import Mathlib.Algebra.Order.Group.Nat
import Llama.Lib.Run

/-!
# Tokens with media chunks

`server_tokens`: a list of tokens in which an image or audio chunk takes as many null entries as
it has tokens, and a map from the start of each chunk to the chunk. Where two chunks are adjacent
their entries cannot be told apart, so that only the map knows where one ends.
-/

namespace Llama.Server

open List Option

abbrev LlamaToken := Int

def nullToken : LlamaToken := -1

/-- An image or audio chunk: `mtmd_input_chunk_get_id` and `mtmd_input_chunk_get_n_tokens`. -/
structure MediaChunk where
  id : String
  nTokens : Nat
deriving DecidableEq

/-- `mtmd_input_chunk`, by its type. -/
inductive InputChunk where
  | text (tokens : List LlamaToken)
  | media (chunk : MediaChunk)
deriving DecidableEq

/-- How a member function fails: it throws, or an assertion ends the process. -/
inductive TokensError where
  | thrown (message : String)
  | aborted
deriving DecidableEq

/-- `server_tokens`. The map is a function of its keys. -/
structure ServerTokens where
  hasMtmd : Bool
  media : Nat → Option MediaChunk
  tokens : List LlamaToken

namespace ServerTokens

/-- The list is empty and has no chunks. -/
def empty (hasMtmd : Bool) : ServerTokens := ⟨hasMtmd, fun _ => none, []⟩

def size (s : ServerTokens) : Nat := s.tokens.length

def findChunk (s : ServerTokens) (idx : Nat) : Except TokensError MediaChunk :=
  match s.media idx with
  | some c => .ok c
  | none => .error (.thrown "Chunk not found")

/-- `push_back` of a token. What it leaves behind, and how it fails. -/
def pushToken (s : ServerTokens) (tok : LlamaToken) : ServerTokens × Option TokensError :=
  if tok = nullToken then (s, some (.thrown "Invalid token"))
  else ({ s with tokens := s.tokens ++ [tok] }, none)

/-- The loop over the tokens of a text chunk, which the first exception ends. -/
def pushTokens (s : ServerTokens) : List LlamaToken → ServerTokens × Option TokensError
  | [] => (s, none)
  | tok :: toks =>
    match s.pushToken tok with
    | (s', none) => s'.pushTokens toks
    | (s', some e) => (s', some e)

/-- `push_back` of a chunk. -/
def pushChunk (s : ServerTokens) : InputChunk → ServerTokens × Option TokensError
  | .media c =>
    if s.hasMtmd then
      ({ s with
          tokens := s.tokens ++ replicate c.nTokens nullToken
          media := Function.update s.media s.tokens.length (some c) }, none)
    else (s, some .aborted)
  | .text toks => s.pushTokens toks

def clear (s : ServerTokens) : ServerTokens := { s with media := fun _ => none, tokens := [] }

/-- The first entries and the chunks that start there. -/
def cutAt (s : ServerTokens) (n : Nat) : ServerTokens :=
  { s with media := fun idx => if n ≤ idx then none else s.media idx, tokens := s.tokens.take n }

def keepFirst (s : ServerTokens) (n : Nat) : ServerTokens × Option TokensError :=
  if s.tokens.length < n then (s, some .aborted)
  else if s.hasMtmd then
    if n = s.tokens.length then (s, none)
    else if 0 < n ∧ s.tokens[n - 1]? = some nullToken ∧ s.tokens[n]? = some nullToken then
      match s.findChunk (n - 1) with
      | .ok _ => (s.cutAt n, none)
      | .error e => (s, some e)
    else (s.cutAt n, none)
  else ({ s with tokens := s.tokens.take n }, none)

/-- `clone`, which copies the chunks. -/
def clone (s : ServerTokens) : ServerTokens := ⟨s.hasMtmd, s.media, s.tokens⟩

/-- The loop of `get_common_prefix` for lists without chunks. -/
def commonTokens : List LlamaToken → List LlamaToken → Nat
  | a :: as, b :: bs => if a = b then commonTokens as bs + 1 else 0
  | _, _ => 0

/-- The loop of `get_common_prefix` for lists with chunks, from the index on. -/
def commonFrom (a b : ServerTokens) : Nat → Nat → Except TokensError Nat
  | 0, _ => .error .aborted
  | fuel + 1, i =>
    match a.tokens[i]?, b.tokens[i]? with
    | some ai, some bi =>
      if ai = nullToken ∧ bi = nullToken then do
        let aChunk ← a.findChunk i
        let bChunk ← b.findChunk i
        if aChunk.id = bChunk.id ∧ aChunk.nTokens = bChunk.nTokens then
          if aChunk.nTokens = 0 then .error .aborted
          else commonFrom a b fuel (i + aChunk.nTokens)
        else .ok i
      else if ai = bi then commonFrom a b fuel (i + 1)
      else .ok i
    | _, _ => .ok (min a.tokens.length b.tokens.length)

def getCommonPrefix (a b : ServerTokens) : Except TokensError Nat :=
  if a.hasMtmd then commonFrom a b (min a.tokens.length b.tokens.length + 1) 0
  else .ok (commonTokens a.tokens b.tokens)

/-- The chunk that starts at one entry takes the other. -/
def InChunk (s : ServerTokens) (i j : Nat) : Prop := ∃ c ∈ s.media i, i ≤ j ∧ j < i + c.nTokens

/-- The keys are the starts of the chunks, each chunk has its null entries inside the list, and
each null entry belongs to one chunk. -/
structure WellFormed (s : ServerTokens) : Prop where
  hasMtmd : s.hasMtmd = true
  starts : ∀ i, (s.media i).isSome = true ↔ s.InChunk i i
  entries : ∀ i j, s.InChunk i j → s.tokens[j]? = some nullToken
  covered : ∀ j, s.tokens[j]? = some nullToken → ∃! i, s.InChunk i j

/-- Keeping that many entries would cut a chunk. -/
def Cuts (s : ServerTokens) (n : Nat) : Prop := ∃ i < n, ∃ c ∈ s.media i, n < i + c.nTokens

instance (s : ServerTokens) (n : Nat) : Decidable (s.Cuts n) :=
  inferInstanceAs (Decidable (∃ i < n, ∃ c ∈ s.media i, n < i + c.nTokens))

/-- Between two null entries a chunk starts at the second one just if one starts at the first. -/
def Agrees (s : ServerTokens) (n : Nat) : Prop :=
  0 < n → s.tokens[n - 1]? = some nullToken → s.tokens[n]? = some nullToken →
    (s.media (n - 1)).isSome = (s.media n).isSome

instance (s : ServerTokens) (n : Nat) : Decidable (s.Agrees n) := by
  unfold Agrees
  infer_instance

variable {s t : ServerTokens} {i j n : Nat} {c : MediaChunk}

theorem WellFormed.pos (h : s.WellFormed) (hc : s.media i = some c) : 0 < c.nTokens := by
  obtain ⟨d, hd, -, hlt⟩ := (h.starts i).mp (by rw [hc]; rfl)
  obtain rfl : c = d := some.inj (hc.symm.trans hd)
  omega

theorem inChunk_self (hc : s.media i = some c) (hpos : 0 < c.nTokens) : s.InChunk i i :=
  ⟨c, hc, le_rfl, by omega⟩

/-- The chunk of an entry is the only one. -/
theorem WellFormed.unique (h : s.WellFormed) {k : Nat} (hi : s.InChunk i j) (hk : s.InChunk k j) :
    i = k :=
  (h.covered j (h.entries i j hi)).unique hi hk

theorem WellFormed.key_lt (h : s.WellFormed) (hc : s.media i = some c) :
    i + c.nTokens ≤ s.tokens.length := by
  have hpos := h.pos hc
  have hlast := h.entries i (i + c.nTokens - 1) ⟨c, hc, by omega, by omega⟩
  have hlt := (List.getElem?_eq_some_iff.mp hlast).1
  omega

/-- The list is well formed when every chunk has an entry. -/
theorem WellFormed.of_pos (hm : s.hasMtmd = true) (hpos : ∀ i c, s.media i = some c → 0 < c.nTokens)
    (hentries : ∀ i j, s.InChunk i j → s.tokens[j]? = some nullToken)
    (hcovered : ∀ j, s.tokens[j]? = some nullToken → ∃! i, s.InChunk i j) : s.WellFormed where
  hasMtmd := hm
  starts := by
    intro i
    constructor
    · intro hsome
      obtain ⟨c, hc⟩ := isSome_iff_exists.mp hsome
      exact inChunk_self hc (hpos i c hc)
    · rintro ⟨c, hc, -, -⟩
      exact isSome_iff_exists.mpr ⟨c, hc⟩
  entries := hentries
  covered := hcovered

theorem wellFormed_empty : (empty true).WellFormed :=
  .of_pos rfl (fun _ _ hc => by cases hc) (fun _ _ ⟨_, hc, _⟩ => by cases hc)
    (fun _ hj => by cases hj)

/-- A chunk is cut between two of its entries, where no chunk starts. -/
theorem WellFormed.cuts_iff (h : s.WellFormed) :
    s.Cuts n ↔ 0 < n ∧ s.tokens[n - 1]? = some nullToken ∧ s.tokens[n]? = some nullToken ∧
      s.media n = none := by
  constructor
  · rintro ⟨i, hi, c, hc, hlt⟩
    refine ⟨by omega, h.entries i _ ⟨c, hc, by omega, by omega⟩,
      h.entries i n ⟨c, hc, by omega, hlt⟩, ?_⟩
    cases hn : s.media n with
    | none => rfl
    | some d =>
      have := h.unique ⟨c, hc, hi.le, hlt⟩ (inChunk_self hn (h.pos hn))
      omega
  · rintro ⟨-, -, hnull, hnone⟩
    obtain ⟨i, ⟨c, hc, hle, hlt⟩, -⟩ := h.covered n hnull
    have hne : i ≠ n := by
      rintro rfl
      exact absurd (hnone.symm.trans hc) (by simp)
    exact ⟨i, by omega, c, hc, hlt⟩

/-- A member function that fails has thrown before it changed anything. -/
theorem keepFirst_failed {e : TokensError} (h : (s.keepFirst n).2 = some e) :
    (s.keepFirst n).1 = s := by
  rw [keepFirst] at h ⊢
  split_ifs at h ⊢ with h1 h2 h3 h4
  · rfl
  · cases hc : s.findChunk (n - 1) with
    | ok c => simp [hc] at h
    | error e => rfl

/-- `keep_first` looks for a chunk that starts in front of the cut. -/
theorem keepFirst_accepts_iff (hm : s.hasMtmd = true) (hn : n ≤ s.tokens.length) :
    (s.keepFirst n).2 = none ↔
      ¬(0 < n ∧ s.tokens[n - 1]? = some nullToken ∧ s.tokens[n]? = some nullToken ∧
        s.media (n - 1) = none) := by
  rw [keepFirst, if_neg (by omega), if_pos hm]
  by_cases heq : n = s.tokens.length
  · rw [if_pos heq, getElem?_eq_none (i := n) (by omega)]
    simp
  · rw [if_neg heq]
    by_cases hnull : 0 < n ∧ s.tokens[n - 1]? = some nullToken ∧ s.tokens[n]? = some nullToken
    · simp only [if_pos hnull, findChunk]
      cases hc : s.media (n - 1) with
      | none => simp [hnull]
      | some c => simp
    · simp only [if_neg hnull, true_iff]
      exact fun hall => hnull ⟨hall.1, hall.2.1, hall.2.2.1⟩

/-- What `keep_first` leaves behind when it does not fail. -/
theorem keepFirst_accepted (hm : s.hasMtmd = true) (h : (s.keepFirst n).2 = none) :
    n ≤ s.tokens.length ∧ (s.keepFirst n).1.hasMtmd = true ∧
      (s.keepFirst n).1.tokens = s.tokens.take n ∧
      (n = s.tokens.length ∧ (s.keepFirst n).1.media = s.media ∨
        (s.keepFirst n).1.media = fun idx => if n ≤ idx then none else s.media idx) := by
  rw [keepFirst] at h ⊢
  split_ifs at h ⊢ with h1 h2 h3
  · exact ⟨by omega, hm, by rw [h2, take_length], .inl ⟨h2, rfl⟩⟩
  · cases hc : s.findChunk (n - 1) with
    | ok c => exact ⟨by omega, hm, rfl, .inr rfl⟩
    | error e => simp [hc] at h
  · exact ⟨by omega, hm, rfl, .inr rfl⟩

/-- `keep_first` does what it says just where the two neighbours of the cut agree. -/
theorem WellFormed.keepFirst_exact_iff (h : s.WellFormed) (hn : n ≤ s.tokens.length) :
    ((s.keepFirst n).2 = none ↔ ¬s.Cuts n) ↔ s.Agrees n := by
  rw [keepFirst_accepts_iff h.hasMtmd hn, h.cuts_iff, Agrees]
  by_cases hnull : 0 < n ∧ s.tokens[n - 1]? = some nullToken ∧ s.tokens[n]? = some nullToken
  · obtain ⟨h0, h1, h2⟩ := hnull
    simp only [h0, h1, h2, true_and, forall_const]
    cases s.media (n - 1) <;> cases s.media n <;> simp
  · constructor
    · intro _ h0 h1 h2
      exact absurd ⟨h0, h1, h2⟩ hnull
    · intro _
      exact iff_of_true (fun hall => hnull ⟨hall.1, hall.2.1, hall.2.2.1⟩)
        (fun hall => hnull ⟨hall.1, hall.2.1, hall.2.2.1⟩)

/-- Entries kept at a place that cuts no chunk are well formed. -/
theorem WellFormed.keepFirst (h : s.WellFormed) (hcut : ¬s.Cuts n)
    (hok : (s.keepFirst n).2 = none) : (s.keepFirst n).1.WellFormed := by
  obtain ⟨hn, hm, htoks, hmedia⟩ := keepFirst_accepted h.hasMtmd hok
  have hkeep : ∀ i c, (s.keepFirst n).1.media i = some c ↔ s.media i = some c ∧ i < n := by
    intro i c
    rcases hmedia with ⟨rfl, hsame⟩ | hmedia
    · rw [hsame]
      refine ⟨fun hc => ⟨hc, ?_⟩, And.left⟩
      have := h.key_lt hc
      have := h.pos hc
      omega
    · rw [hmedia]
      by_cases hi : n ≤ i
      · simp [hi]
      · simp [hi, Nat.lt_of_not_le hi]
  have hin : ∀ i j, (s.keepFirst n).1.InChunk i j ↔ s.InChunk i j ∧ j < n := by
    intro i j
    constructor
    · rintro ⟨c, hc, hle, hlt⟩
      obtain ⟨hc, hi⟩ := (hkeep i c).mp hc
      refine ⟨⟨c, hc, hle, hlt⟩, ?_⟩
      by_contra hj
      exact hcut ⟨i, hi, c, hc, by omega⟩
    · rintro ⟨⟨c, hc, hle, hlt⟩, hj⟩
      exact ⟨c, (hkeep i c).mpr ⟨hc, by omega⟩, hle, hlt⟩
  refine .of_pos hm (fun i c hc => h.pos ((hkeep i c).mp hc).1) ?_ ?_
  · intro i j hij
    obtain ⟨hij, hj⟩ := (hin i j).mp hij
    rw [htoks, getElem?_take_of_lt hj]
    exact h.entries i j hij
  · intro j hj
    rw [htoks, getElem?_take] at hj
    split_ifs at hj with hlt
    obtain ⟨i, hi, hunique⟩ := h.covered j hj
    exact ⟨i, (hin i j).mpr ⟨hi, hlt⟩, fun k hk => hunique k ((hin k j).mp hk).1⟩

theorem WellFormed.pushToken (h : s.WellFormed) (tok : LlamaToken) :
    (s.pushToken tok).1.WellFormed := by
  rw [ServerTokens.pushToken]
  split_ifs with hnull
  · exact h
  refine .of_pos h.hasMtmd (fun i c hc => h.pos hc) ?_ ?_
  · intro i j hij
    have hj := h.entries i j hij
    exact (getElem?_append_left (List.getElem?_eq_some_iff.mp hj).1).trans hj
  · intro j hj
    change (s.tokens ++ [tok])[j]? = _ at hj
    rcases lt_trichotomy j s.tokens.length with hlt | rfl | hgt
    · rw [getElem?_append_left hlt] at hj
      exact h.covered j hj
    · simp [hnull] at hj
    · rw [getElem?_eq_none (by simp; omega)] at hj
      cases hj

theorem WellFormed.pushTokens (h : s.WellFormed) (toks : List LlamaToken) :
    (s.pushTokens toks).1.WellFormed := by
  induction toks generalizing s with
  | nil => exact h
  | cons tok toks ih =>
    rw [ServerTokens.pushTokens]
    have htok := h.pushToken tok
    cases hp : s.pushToken tok with
    | mk s' e =>
      rw [hp] at htok
      cases e with
      | none => exact ih htok
      | some e => exact htok

/-- A chunk of at least one token is pushed behind all entries. -/
theorem WellFormed.pushMedia (h : s.WellFormed) (hpos : 0 < c.nTokens) :
    (s.pushChunk (.media c)).1.WellFormed := by
  rw [ServerTokens.pushChunk, if_pos h.hasMtmd]
  have hold : ∀ i d, s.media i = some d → i < s.tokens.length := by
    intro i d hd
    have := h.key_lt hd
    have := h.pos hd
    omega
  have hmedia : ∀ i d, Function.update s.media s.tokens.length (some c) i = some d ↔
      s.media i = some d ∨ i = s.tokens.length ∧ d = c := by
    intro i d
    by_cases hi : i = s.tokens.length
    · subst hi
      simp only [Function.update_self, some.injEq, true_and]
      constructor
      · exact fun heq => .inr heq.symm
      · rintro (hd | rfl)
        · exact absurd (hold _ d hd) (lt_irrefl _)
        · rfl
    · simp [hi]
  have htoks : ∀ j, (s.tokens ++ replicate c.nTokens nullToken)[j]? = some nullToken ↔
      s.tokens[j]? = some nullToken ∨ s.tokens.length ≤ j ∧ j < s.tokens.length + c.nTokens := by
    intro j
    by_cases hj : j < s.tokens.length
    · rw [getElem?_append_left hj]
      simp [Nat.not_le.mpr hj]
    · rw [getElem?_append_right (by omega), getElem?_replicate, getElem?_eq_none (by omega)]
      simp
      omega
  refine .of_pos h.hasMtmd ?_ ?_ ?_
  · intro i d hd
    rcases (hmedia i d).mp hd with hd | ⟨-, rfl⟩
    · exact h.pos hd
    · exact hpos
  · rintro i j ⟨d, hd, hle, hlt⟩
    rcases (hmedia i d).mp hd with hd | ⟨rfl, rfl⟩
    · exact (htoks j).mpr (.inl (h.entries i j ⟨d, hd, hle, hlt⟩))
    · exact (htoks j).mpr (.inr ⟨hle, hlt⟩)
  · intro j hj
    rcases (htoks j).mp hj with hj | ⟨hle, hlt⟩
    · have hjlt := (List.getElem?_eq_some_iff.mp hj).1
      obtain ⟨i, ⟨d, hd, hij⟩, hunique⟩ := h.covered j hj
      refine ⟨i, ⟨d, (hmedia i d).mpr (.inl hd), hij⟩, ?_⟩
      rintro k ⟨e, he, hkj⟩
      rcases (hmedia k e).mp he with he | ⟨rfl, -⟩
      · exact hunique k ⟨e, he, hkj⟩
      · omega
    · refine ⟨s.tokens.length, ⟨c, (hmedia _ c).mpr (.inr ⟨rfl, rfl⟩), hle, hlt⟩, ?_⟩
      rintro k ⟨e, he, hkj⟩
      rcases (hmedia k e).mp he with he | ⟨rfl, -⟩
      · have := h.key_lt he
        omega
      · rfl

/-- A null entry that is not inside a chunk starts one. -/
theorem WellFormed.starts_of_not_cuts (h : s.WellFormed) (hnull : s.tokens[i]? = some nullToken)
    (hcut : ¬s.Cuts i) : ∃ c, s.media i = some c := by
  obtain ⟨k, ⟨c, hc, hle, hlt⟩, -⟩ := h.covered i hnull
  rcases hle.lt_or_eq with hk | rfl
  · exact absurd ⟨k, hk, c, hc, hlt⟩ hcut
  · exact ⟨c, hc⟩

theorem WellFormed.not_cuts_end (h : s.WellFormed) (hc : s.media i = some c) :
    ¬s.Cuts (i + c.nTokens) := by
  rintro ⟨k, hk, d, hd, hlt⟩
  have hpos := h.pos hc
  have hsame := h.unique (j := i + c.nTokens - 1) ⟨c, hc, by omega, by omega⟩
    ⟨d, hd, by omega, by omega⟩
  subst hsame
  obtain rfl : c = d := some.inj (hc.symm.trans hd)
  omega

/-- No chunk is cut behind a text token. -/
theorem WellFormed.not_cuts_succ (h : s.WellFormed) {tok : LlamaToken}
    (htok : s.tokens[i]? = some tok) (hne : tok ≠ nullToken) : ¬s.Cuts (i + 1) := by
  rintro ⟨k, hk, c, hc, hlt⟩
  have hnull := h.entries k i ⟨c, hc, by omega, by omega⟩
  exact hne (some.inj (htok.symm.trans hnull))

/-- The loop stands in front of an entry that is not inside a chunk, and goes on behind it. -/
theorem commonFrom_spec {a b : ServerTokens} (ha : a.WellFormed) (hb : b.WellFormed) {fuel : Nat}
    (hia : i ≤ a.tokens.length) (hib : i ≤ b.tokens.length) (hca : ¬a.Cuts i) (hcb : ¬b.Cuts i)
    (hfuel : min a.tokens.length b.tokens.length < fuel + i) :
    ∃ v, commonFrom a b fuel i = .ok v ∧ v ≤ a.tokens.length ∧ v ≤ b.tokens.length ∧
      ¬a.Cuts v ∧ ¬b.Cuts v := by
  induction fuel generalizing i with
  | zero => omega
  | succ fuel ih =>
    rw [commonFrom]
    cases hai : a.tokens[i]? with
    | none =>
      have := List.getElem?_eq_none_iff.mp hai
      have hmin : min a.tokens.length b.tokens.length = i := by omega
      exact ⟨i, by simp [hmin], hia, hib, hca, hcb⟩
    | some ai =>
      cases hbi : b.tokens[i]? with
      | none =>
        have := List.getElem?_eq_none_iff.mp hbi
        have hmin : min a.tokens.length b.tokens.length = i := by omega
        exact ⟨i, by simp [hmin], hia, hib, hca, hcb⟩
      | some bi =>
        have halt := (List.getElem?_eq_some_iff.mp hai).1
        have hblt := (List.getElem?_eq_some_iff.mp hbi).1
        by_cases hnull : ai = nullToken ∧ bi = nullToken
        · obtain ⟨rfl, rfl⟩ := hnull
          obtain ⟨c, hc⟩ := ha.starts_of_not_cuts hai hca
          obtain ⟨d, hd⟩ := hb.starts_of_not_cuts hbi hcb
          have hpos := ha.pos hc
          simp only [and_self, if_true, findChunk, hc, hd, bind, Except.bind]
          by_cases heq : c.id = d.id ∧ c.nTokens = d.nTokens
          · rw [if_pos heq, if_neg (by omega)]
            have hend := hb.not_cuts_end hd
            have hlen := hb.key_lt hd
            rw [← heq.2] at hend hlen
            exact ih (ha.key_lt hc) hlen (ha.not_cuts_end hc) hend (by omega)
          · rw [if_neg heq]
            exact ⟨i, rfl, hia, hib, hca, hcb⟩
        · simp only [if_neg hnull]
          by_cases heq : ai = bi
          · subst heq
            have hne : ai ≠ nullToken := fun he => hnull ⟨he, he⟩
            rw [if_pos rfl]
            exact ih halt hblt (ha.not_cuts_succ hai hne) (hb.not_cuts_succ hbi hne) (by omega)
          · rw [if_neg heq]
            exact ⟨i, rfl, hia, hib, hca, hcb⟩

theorem not_cuts_zero : ¬s.Cuts 0 := by
  rintro ⟨i, hi, -⟩
  omega

/-- The common prefix of two lists cuts no chunk of either. -/
theorem WellFormed.getCommonPrefix (hs : s.WellFormed) (ht : t.WellFormed) :
    ∃ v, s.getCommonPrefix t = .ok v ∧ v ≤ s.tokens.length ∧ v ≤ t.tokens.length ∧
      ¬s.Cuts v ∧ ¬t.Cuts v := by
  rw [ServerTokens.getCommonPrefix, if_pos hs.hasMtmd]
  exact commonFrom_spec hs ht (Nat.zero_le _) (Nat.zero_le _) not_cuts_zero not_cuts_zero (by omega)

/-- The operations of a run. -/
inductive Op where
  | pushToken (tok : LlamaToken)
  | pushChunk (chunk : InputChunk)
  | clear
  | keepFirst (n : Nat)
  | clone

/-- What a call leaves behind; nothing when the process ends. -/
def left : ServerTokens × Option TokensError → Option ServerTokens
  | (_, some .aborted) => none
  | (s, _) => some s

/-- The list after an operation, which may have thrown. -/
def step (s : ServerTokens) : Op → Option ServerTokens
  | .pushToken tok => left (s.pushToken tok)
  | .pushChunk chunk => left (s.pushChunk chunk)
  | .clear => some s.clear
  | .keepFirst n => left (s.keepFirst n)
  | .clone => some s.clone

/-- Media chunks have a token, and `keep_first` is called where the two neighbours agree. -/
def Proper (s : ServerTokens) : Op → Prop
  | .pushChunk (.media c) => 0 < c.nTokens
  | .keepFirst n => s.Agrees n
  | _ => True

instance (s : ServerTokens) : (op : Op) → Decidable (s.Proper op)
  | .pushChunk (.media c) => inferInstanceAs (Decidable (0 < c.nTokens))
  | .keepFirst n => inferInstanceAs (Decidable (s.Agrees n))
  | .pushChunk (.text _) => isTrue trivial
  | .pushToken _ => isTrue trivial
  | .clear => isTrue trivial
  | .clone => isTrue trivial

theorem left_eq_some {r : ServerTokens × Option TokensError} (h : left r = some t) : r.1 = t := by
  obtain ⟨s, e⟩ := r
  cases e with
  | none => exact some.inj h
  | some e =>
    cases e with
    | thrown m => exact some.inj h
    | aborted => cases h

/-- An operation keeps the list well formed. -/
theorem WellFormed.step (h : s.WellFormed) {op : Op} (hop : s.Proper op)
    (hstep : s.step op = some t) : t.WellFormed := by
  cases op with
  | pushToken tok =>
    rw [← left_eq_some hstep]
    exact h.pushToken tok
  | pushChunk chunk =>
    rw [← left_eq_some hstep]
    cases chunk with
    | text toks => exact h.pushTokens toks
    | media c => exact h.pushMedia hop
  | clear =>
    cases hstep
    exact .of_pos h.hasMtmd (fun _ _ hc => by cases hc) (fun _ _ ⟨_, hc, _⟩ => by cases hc)
      (fun _ hj => by cases hj)
  | keepFirst n =>
    rw [← left_eq_some hstep]
    cases hok : (s.keepFirst n).2 with
    | none =>
      have hn := (keepFirst_accepted h.hasMtmd hok).1
      exact h.keepFirst (((h.keepFirst_exact_iff hn).mpr hop).mp hok) hok
    | some e =>
      rw [keepFirst_failed hok]
      exact h
  | clone =>
    cases hstep
    exact h

/-- The lists that a run from an empty list with media leads to. -/
def Reached (s : ServerTokens) : Prop :=
  ∃ ops, Run.Meets step Proper (empty true) ops ∧ Run.exec step (empty true) ops = some s

theorem Reached.wellFormed (h : s.Reached) : s.WellFormed := by
  obtain ⟨ops, hmeets, hrun⟩ := h
  exact Run.exec_invariant (fun s a s' hs hP hstep => hs.step hP hstep) wellFormed_empty hmeets hrun

/-- Every list that is reached without a cut between neighbours that disagree is well formed.
`keep_first` is exact, and accepts the common prefix with another list, just at the places where
the neighbours agree. -/
theorem reached_wellFormed {s t : ServerTokens} (hs : s.Reached) (ht : t.Reached) :
    s.WellFormed ∧
    (∀ n ≤ s.size, (((s.keepFirst n).2 = none ↔ ¬s.Cuts n) ↔ s.Agrees n)) ∧
    (∀ n e, (s.keepFirst n).2 = some e → (s.keepFirst n).1 = s) ∧
    ∃ v, s.getCommonPrefix t = .ok v ∧ v ≤ s.size ∧ v ≤ t.size ∧
      ((s.keepFirst v).2 = none ↔ s.Agrees v) ∧ ((t.keepFirst v).2 = none ↔ t.Agrees v) := by
  have hsw := hs.wellFormed
  have htw := ht.wellFormed
  refine ⟨hsw, fun n hn => hsw.keepFirst_exact_iff hn, fun n e he => keepFirst_failed he, ?_⟩
  obtain ⟨v, hv, hvs, hvt, hcs, hct⟩ := hsw.getCommonPrefix htw
  refine ⟨v, hv, hvs, hvt, ?_, ?_⟩
  · rw [← hsw.keepFirst_exact_iff hvs]
    simp [hcs]
  · rw [← htw.keepFirst_exact_iff hvt]
    simp [hct]

/-- A text token and an image, and the image alone. -/
theorem reached_wellFormed_image :
    let image : MediaChunk := ⟨"img0", 2⟩
    let s : ServerTokens := ⟨true, Function.update (fun _ => none) 1 (some image), [7, -1, -1]⟩
    let t : ServerTokens := ⟨true, Function.update (fun _ => none) 0 (some image), [-1, -1]⟩
    s.WellFormed ∧
    (∀ n ≤ s.size, (((s.keepFirst n).2 = none ↔ ¬s.Cuts n) ↔ s.Agrees n)) ∧
    (∀ n e, (s.keepFirst n).2 = some e → (s.keepFirst n).1 = s) ∧
    ∃ v, s.getCommonPrefix t = .ok v ∧ v ≤ s.size ∧ v ≤ t.size ∧
      ((s.keepFirst v).2 = none ↔ s.Agrees v) ∧ ((t.keepFirst v).2 = none ↔ t.Agrees v) :=
  reached_wellFormed
    ⟨[.pushToken 7, .pushChunk (.media ⟨"img0", 2⟩)], by decide, rfl⟩
    ⟨[.pushChunk (.media ⟨"img0", 2⟩)], by decide, rfl⟩

/-- Between two chunks `keep_first` throws, behind the first entry of a chunk it does not. The
common prefix of lists that differ in the second chunk is such a place. -/
theorem keepFirst_adjacent_chunks :
    (Run.exec step (empty true)
        [.pushChunk (.media ⟨"img0", 2⟩), .pushChunk (.media ⟨"img1", 1⟩)]).map
      (fun s => (decide (s.Cuts 2), (s.keepFirst 2).2)) =
        some (false, some (.thrown "Chunk not found")) ∧
    (Run.exec step (empty true) [.pushChunk (.media ⟨"img0", 3⟩)]).map
      (fun s => (decide (s.Cuts 1), (s.keepFirst 1).2)) = some (true, none) ∧
    (do
      let s ← Run.exec step (empty true)
        [.pushChunk (.media ⟨"img0", 2⟩), .pushChunk (.media ⟨"img1", 1⟩)]
      let t ← Run.exec step (empty true)
        [.pushChunk (.media ⟨"img0", 2⟩), .pushChunk (.media ⟨"img2", 1⟩)]
      (s.getCommonPrefix t).toOption) = some 2 := by
  refine ⟨?_, ?_, ?_⟩ <;> rfl

end ServerTokens

end Llama.Server
