import Mathlib.Algebra.BigOperators.Intervals
import Llama.Server.ServerTokens

/-!
# Lists of tokens, appended and measured

`push_back` of a whole list, and the two walks between numbers of tokens and positions. A chunk
may take another number of positions than of tokens.
-/

namespace Llama.Server.ServerTokens

open List Option

/-- A list with chunks is well formed, or there is only text. -/
def Sound (s : ServerTokens) : Prop :=
  s.WellFormed ∨ s.hasMtmd = false ∧ (∀ i, s.media i = none) ∧ nullToken ∉ s.tokens

/-- `map_idx_to_media.begin()`. A chunk without tokens may start behind the last token. -/
def firstChunk (s : ServerTokens) : Option Nat :=
  (range (s.tokens.length + 1)).find? fun i => (s.media i).isSome

/-- The loop of `push_back` over the chunks of a list, which does not advance its iterator. -/
def copyChunks (b : ServerTokens) (start : Nat) :
    Nat → Option Nat → ServerTokens → Option ServerTokens
  | _, none, s => some s
  | 0, some _, _ => none
  | fuel + 1, some it, s =>
    copyChunks b start fuel (some it)
      { s with media := Function.update s.media (start + it) (b.media it) }

/-- `push_back` of a list; `none` when the loop takes more than that many turns. -/
def pushList (s b : ServerTokens) (fuel : Nat) : Option (ServerTokens × Option TokensError) :=
  match s.pushTokens b.tokens with
  | (s', some e) => some (s', some e)
  | (s', none) =>
    if b.hasMtmd then
      if s.hasMtmd then (copyChunks b s.tokens.length fuel b.firstChunk s').map (·, none)
      else some (s', some .aborted)
    else some (s', none)

/-- The entries of both lists, and the chunks of the second one behind the first list. -/
def appended (s b : ServerTokens) : ServerTokens where
  hasMtmd := s.hasMtmd
  media i := if i < s.tokens.length then s.media i else b.media (i - s.tokens.length)
  tokens := s.tokens ++ b.tokens

variable {s b : ServerTokens} {c : MediaChunk} {toks : List LlamaToken} {i m n : Nat}

theorem pushTokens_text (h : nullToken ∉ toks) :
    s.pushTokens toks = ({ s with tokens := s.tokens ++ toks }, none) := by
  induction toks generalizing s with
  | nil => rw [pushTokens, append_nil]
  | cons tok toks ih =>
    obtain ⟨htok, htoks⟩ : nullToken ≠ tok ∧ nullToken ∉ toks := by simpa using h
    rw [pushTokens, pushToken, if_neg (Ne.symm htok)]
    simp only [ih htoks, append_assoc, singleton_append]

/-- The first null entry is not pushed. -/
theorem pushTokens_null (h : nullToken ∈ toks) : (s.pushTokens toks).2 ≠ none := by
  induction toks generalizing s with
  | nil => cases h
  | cons tok toks ih =>
    rw [pushTokens, pushToken]
    by_cases htok : tok = nullToken
    · simp [htok]
    · rw [if_neg htok]
      exact ih ((mem_cons.mp h).resolve_left (Ne.symm htok))

theorem Sound.wellFormed (h : s.Sound) (hc : s.media i = some c) : s.WellFormed := by
  rcases h with h | ⟨-, hnone, -⟩
  · exact h
  · exact absurd ((hnone i).symm.trans hc) (by simp)

/-- No chunk starts behind the entries. -/
theorem Sound.media_behind (h : s.Sound) (hi : s.tokens.length ≤ i) : s.media i = none := by
  by_contra hsome
  obtain ⟨c, hc⟩ := ne_none_iff_exists'.mp hsome
  have hw := h.wellFormed hc
  have := hw.key_lt hc
  have := hw.pos hc
  omega

theorem Sound.null_notMem (h : s.Sound) (hnone : ∀ i, s.media i = none) : nullToken ∉ s.tokens := by
  rcases h with h | ⟨-, -, hnull⟩
  · intro hmem
    obtain ⟨j, hj⟩ := mem_iff_getElem?.mp hmem
    obtain ⟨i, ⟨c, hc, -⟩, -⟩ := h.covered j hj
    exact absurd ((hnone i).symm.trans hc) (by simp)
  · exact hnull

/-- `push_back` of a list appends it just if it has no chunks: the first entry of a chunk is no
token that can be pushed. -/
theorem pushList_appends_iff (hs : s.Sound) (hb : b.Sound) (hsame : s.hasMtmd = b.hasMtmd) :
    (∃ fuel, s.pushList b fuel = some (s.appended b, none)) ↔ ∀ i, b.media i = none := by
  constructor
  · rintro ⟨fuel, hok⟩ i
    by_contra hsome
    obtain ⟨c, hc⟩ := ne_none_iff_exists'.mp hsome
    have hw := hb.wellFormed hc
    have hnull := hw.entries i i (inChunk_self hc (hw.pos hc))
    have hthrown := pushTokens_null (s := s) (mem_of_getElem? hnull)
    rw [pushList] at hok
    cases hp : s.pushTokens b.tokens with
    | mk s' e =>
      rw [hp] at hok hthrown
      cases e with
      | none => exact hthrown rfl
      | some e => cases hok
  · intro hnone
    have hfirst : b.firstChunk = none := find?_eq_none.mpr fun i _ => by simp [hnone i]
    have hall : s.appended b = { s with tokens := s.tokens ++ b.tokens } := by
      have hmedia : (s.appended b).media = s.media := by
        funext i
        by_cases hi : i < s.tokens.length
        · exact if_pos hi
        · exact (if_neg hi).trans ((hnone _).trans (hs.media_behind (Nat.le_of_not_lt hi)).symm)
      rw [← hmedia]
      rfl
    refine ⟨0, ?_⟩
    rw [pushList, pushTokens_text (hb.null_notMem hnone), hall, hfirst, hsame]
    cases b.hasMtmd <;> rfl

section

-- `mtmd_input_chunk_get_n_pos`
variable (nPos : MediaChunk → Nat)

/-- The entries and the positions that a walk passes at an index. -/
def span (s : ServerTokens) (idx : Nat) : Nat × Nat :=
  match s.media idx with
  | some c => (c.nTokens, nPos c)
  | none => (1, 1)

/-- The loop of `pos_next`, to a number of turns. -/
def posFrom (s : ServerTokens) (nTokens : Nat) : Nat → Nat → Nat → Option Nat
  | 0, _, _ => none
  | fuel + 1, idx, pos =>
    if idx < nTokens then
      posFrom s nTokens fuel (idx + (s.span nPos idx).1) (pos + (s.span nPos idx).2)
    else some pos

/-- The positions that the chunk at an index takes beyond its tokens. -/
def extra (s : ServerTokens) (idx : Nat) : Int :=
  match s.media idx with
  | some c => nPos c - c.nTokens
  | none => 0

/-- `pos_next`. There is no answer where the assertion fails, or behind a chunk without tokens,
where the walk never ends. -/
def posNext (s : ServerTokens) (nTokens : Int) : Option Int :=
  if s.hasMtmd then
    if nTokens < 0 then
      some (s.tokens.length + ∑ idx ∈ Finset.range (s.tokens.length + 1), s.extra nPos idx)
    else if s.tokens.length < nTokens then none
    else (s.posFrom nPos nTokens.toNat (s.tokens.length + 1) 0 0).map Nat.cast
  else some (if nTokens < 0 then s.tokens.length else nTokens)

/-- The loop of `size_up_to_pos`, to a number of turns. -/
def sizeFrom (s : ServerTokens) (maxPos : Int) : Nat → Nat → Nat → Option Nat
  | 0, _, _ => none
  | fuel + 1, idx, pos =>
    if idx < s.tokens.length then
      if maxPos ≤ (pos + (s.span nPos idx).2 : Nat) then some (idx + (s.span nPos idx).1)
      else sizeFrom s maxPos fuel (idx + (s.span nPos idx).1) (pos + (s.span nPos idx).2)
    else some idx

/-- `size_up_to_pos`, where a negative position is converted to a large size. -/
def sizeUpToPos (s : ServerTokens) (maxPos : Int) : Option Nat :=
  if s.hasMtmd then s.sizeFrom nPos maxPos (s.tokens.length + 1) 0 0
  else some (if maxPos < 0 then s.tokens.length else min maxPos.toNat s.tokens.length)

end

variable {nPos : MediaChunk → Nat} {fuel idx pos : Nat}

/-- A walk goes from one place between chunks to the next one. -/
theorem WellFormed.span_spec (h : s.WellFormed) (nPos : MediaChunk → Nat) (hcut : ¬s.Cuts idx)
    (hlt : idx < n) (hn : n ≤ s.tokens.length) (hncut : ¬s.Cuts n) :
    0 < (s.span nPos idx).1 ∧ idx + (s.span nPos idx).1 ≤ n ∧
      ¬s.Cuts (idx + (s.span nPos idx).1) := by
  rw [span]
  cases hc : s.media idx with
  | some c =>
    refine ⟨h.pos hc, ?_, h.not_cuts_end hc⟩
    by_contra hle
    exact hncut ⟨idx, hlt, c, hc, Nat.lt_of_not_le hle⟩
  | none =>
    refine ⟨Nat.one_pos, hlt, h.not_cuts_succ (getElem?_eq_getElem (by omega)) fun hnull => ?_⟩
    obtain ⟨c, hsome⟩ :=
      h.starts_of_not_cuts ((getElem?_eq_getElem (by omega)).trans (congrArg some hnull)) hcut
    exact absurd (hc.symm.trans hsome) (by simp)

theorem span_pos (hpos : ∀ i c, s.media i = some c → 0 < nPos c) : 0 < (s.span nPos idx).2 := by
  rw [span]
  cases hc : s.media idx with
  | some c => exact hpos idx c hc
  | none => exact Nat.one_pos

section

variable (h : s.WellFormed) (pos : Nat) (hpos : ∀ i c, s.media i = some c → 0 < nPos c)
include h hpos

/-- The walk to a number of tokens, and the walk to the position that it finds. -/
theorem WellFormed.walks (hn : n ≤ s.tokens.length) (hncut : ¬s.Cuts n) (hcut : ¬s.Cuts idx)
    (hle : idx ≤ n) (hfuel : s.tokens.length < fuel + idx) :
    ∃ p, s.posFrom nPos n fuel idx pos = some p ∧
      if idx < n then pos < p ∧ s.sizeFrom nPos p fuel idx pos = some n else p = pos := by
  induction fuel generalizing idx pos with
  | zero => omega
  | succ fuel ih =>
    rw [posFrom]
    by_cases hlt : idx < n
    · obtain ⟨h1, h2, h3⟩ := h.span_spec nPos hcut hlt hn hncut
      have hp : 0 < (s.span nPos idx).2 := span_pos hpos
      obtain ⟨p, hwalk, hback⟩ := ih (pos + (s.span nPos idx).2) h3 h2 (by omega)
      rw [if_pos hlt]
      refine ⟨p, hwalk, ?_⟩
      rw [if_pos hlt, sizeFrom, if_pos (by omega)]
      by_cases hmore : idx + (s.span nPos idx).1 < n
      · rw [if_pos hmore] at hback
        rw [if_neg (by omega)]
        exact ⟨by omega, hback.2⟩
      · rw [if_neg hmore] at hback
        rw [if_pos (by omega)]
        exact ⟨by omega, congrArg some (by omega)⟩
    · rw [if_neg hlt]
      exact ⟨pos, rfl, by rw [if_neg hlt]⟩

/-- More tokens are at a later position. -/
theorem WellFormed.posFrom_lt (hm : m < n) (hn : n ≤ s.tokens.length) (hmcut : ¬s.Cuts m)
    (hncut : ¬s.Cuts n) (hcut : ¬s.Cuts idx) (hle : idx ≤ m)
    (hfuel : s.tokens.length < fuel + idx) :
    ∃ p q, s.posFrom nPos m fuel idx pos = some p ∧ s.posFrom nPos n fuel idx pos = some q ∧
      p < q := by
  induction fuel generalizing idx pos with
  | zero => omega
  | succ fuel ih =>
    by_cases hlt : idx < m
    · obtain ⟨h1, h2, h3⟩ := h.span_spec nPos hcut hlt (by omega) hmcut
      rw [posFrom, posFrom, if_pos hlt, if_pos (by omega)]
      exact ih _ h3 h2 (by omega)
    · obtain rfl : idx = m := by omega
      obtain ⟨q, hq, hback⟩ := h.walks pos hpos hn hncut hcut (by omega) hfuel
      rw [if_pos hm] at hback
      exact ⟨pos, q, by rw [posFrom, if_neg hlt], hq, hback.1⟩

end

/-- The walk over all tokens passes what all chunks take. -/
theorem WellFormed.posFrom_all (h : s.WellFormed) (nPos : MediaChunk → Nat) (pos : Nat)
    (hcut : ¬s.Cuts idx) (hend : ¬s.Cuts s.tokens.length) (hle : idx ≤ s.tokens.length)
    (hfuel : s.tokens.length < fuel + idx) :
    ∃ p : Nat, s.posFrom nPos s.tokens.length fuel idx pos = some p ∧
      (p : Int) = pos + (s.tokens.length - idx) +
        ∑ i ∈ Finset.Ico idx (s.tokens.length + 1), s.extra nPos i := by
  induction fuel generalizing idx pos with
  | zero => omega
  | succ fuel ih =>
    rw [posFrom]
    by_cases hlt : idx < s.tokens.length
    · obtain ⟨h1, h2, h3⟩ := h.span_spec nPos hcut hlt le_rfl hend
      obtain ⟨p, hp, hsum⟩ := ih (pos + (s.span nPos idx).2) h3 h2 (by omega)
      rw [if_pos hlt]
      refine ⟨p, hp, ?_⟩
      have hnone : ∀ i ∈ Finset.Ico (idx + 1) (idx + (s.span nPos idx).1),
          s.extra nPos i = 0 := by
        intro i hi
        obtain ⟨hlow, hhigh⟩ := Finset.mem_Ico.mp hi
        rw [span] at hhigh
        cases hc : s.media idx with
        | none =>
          rw [hc] at hhigh
          dsimp only at hhigh
          omega
        | some c =>
          rw [hc] at hhigh
          rw [extra]
          cases hd : s.media i with
          | none => rfl
          | some d =>
            have := h.unique (inChunk_self hd (h.pos hd)) ⟨c, hc, by omega, hhigh⟩
            omega
      have hstep : ((s.span nPos idx).2 : Int) - (s.span nPos idx).1 = s.extra nPos idx := by
        rw [span, extra]
        cases s.media idx <;> simp
      rw [Finset.sum_eq_sum_Ico_succ_bot (by omega),
        ← Finset.sum_Ico_consecutive _ (Nat.add_le_add_left h1 idx) (by omega),
        Finset.sum_eq_zero hnone, hsum]
      omega
    · obtain rfl : idx = s.tokens.length := by omega
      have hlast : s.extra nPos s.tokens.length = 0 := by
        rw [extra, Sound.media_behind (.inl h) le_rfl]
      rw [if_neg hlt]
      exact ⟨pos, rfl, by simp [hlast]⟩

/-- Behind the last entry nothing is cut. -/
theorem WellFormed.not_cuts_size (h : s.WellFormed) : ¬s.Cuts s.tokens.length := by
  rintro ⟨i, -, c, hc, hlt⟩
  have := h.key_lt hc
  omega

/-- The two walks are inverse between the chunks, except that the walk to the first position
passes what the list begins with. Positions grow with the tokens, and without a number all tokens
are meant. -/
theorem sizeUpToPos_posNext (nPos : MediaChunk → Nat) (hs : s.Sound)
    (hpos : ∀ i c, s.media i = some c → 0 < nPos c) :
    (∀ n ≤ s.size, ¬s.Cuts n → ∃ p, s.posNext nPos n = some p ∧
      (s.sizeUpToPos nPos p = some n ↔ (s.hasMtmd = true → n = 0 → s.size = 0))) ∧
    (∀ n ≤ s.size, ∀ m < n, ¬s.Cuts m → ¬s.Cuts n →
      ∃ p q, s.posNext nPos m = some p ∧ s.posNext nPos n = some q ∧ p < q) ∧
    s.posNext nPos (-1) = s.posNext nPos s.size := by
  rcases hs with h | ⟨htext, -⟩
  · have hcount : ∀ n ≤ s.size, s.posNext nPos n =
        (s.posFrom nPos n (s.tokens.length + 1) 0 0).map Nat.cast := by
      intro n hn
      rw [size] at hn
      rw [posNext, if_pos h.hasMtmd, if_neg (by omega), if_neg (by omega), Int.toNat_natCast]
    refine ⟨fun n hn hcut => ?_, fun n hn m hm hmcut hcut => ?_, ?_⟩
    · obtain ⟨p, hp, hback⟩ := h.walks 0 hpos hn hcut not_cuts_zero (Nat.zero_le n)
        (Nat.lt_succ_self _)
      refine ⟨p, by rw [hcount n hn, hp]; rfl, ?_⟩
      rw [sizeUpToPos, if_pos h.hasMtmd, size]
      by_cases hzero : 0 < n
      · rw [if_pos hzero] at hback
        exact iff_of_true hback.2 (by omega)
      · obtain rfl : n = 0 := by omega
        rw [if_neg hzero] at hback
        subst hback
        rw [sizeFrom]
        by_cases hsize : 0 < s.tokens.length
        · obtain ⟨h1, -⟩ := h.span_spec nPos not_cuts_zero hsize le_rfl h.not_cuts_size
          rw [if_pos hsize, if_pos (by omega), Option.some.injEq]
          simp only [h.hasMtmd, forall_const]
          omega
        · rw [if_neg hsize]
          exact iff_of_true rfl fun _ _ => by omega
    · obtain ⟨p, q, hp, hq, hlt⟩ := h.posFrom_lt 0 hpos hm hn hmcut hcut not_cuts_zero
        (Nat.zero_le m) (Nat.lt_succ_self _)
      refine ⟨p, q, ?_, by rw [hcount n hn, hq]; rfl, by omega⟩
      rw [hcount m (by omega), hp]
      rfl
    · obtain ⟨p, hp, hsum⟩ := h.posFrom_all nPos 0 not_cuts_zero
        h.not_cuts_size (Nat.zero_le _) (Nat.lt_succ_self _)
      rw [hcount _ le_rfl, size, hp, posNext, if_pos h.hasMtmd, if_pos (by decide)]
      simp [hsum]
  · have hnext : ∀ n : Int, 0 ≤ n → s.posNext nPos n = some n := by
      intro n hn
      rw [posNext, htext, if_neg (by simp), if_neg (by omega)]
    refine ⟨fun n hn _ => ⟨n, hnext n (by omega), ?_⟩, fun n _ m hm _ _ =>
      ⟨m, n, hnext m (by omega), hnext n (by omega), by omega⟩, ?_⟩
    · rw [size] at hn
      rw [sizeUpToPos, htext, if_neg (by simp), if_neg (by omega), Int.toNat_natCast,
        Nat.min_eq_left hn]
      simp
    · rw [hnext s.size (by omega), posNext, htext, if_neg (by simp), if_pos (by decide), size]

/-- A list of one image. -/
def imageOnly : ServerTokens :=
  ⟨true, Function.update (fun _ => none) 0 (some ⟨"img0", 2⟩), [nullToken, nullToken]⟩

theorem wellFormed_imageOnly : imageOnly.WellFormed :=
  Reached.wellFormed ⟨[.pushChunk (.media ⟨"img0", 2⟩)], by decide, rfl⟩

/-- Two tokens of a multimodal request. -/
def textOnly : ServerTokens := ((empty true).pushTokens [5, 7]).1

/-- The tokens of a text are appended to an image. -/
theorem pushList_appends_iff_text :
    (∃ fuel, imageOnly.pushList textOnly fuel = some (imageOnly.appended textOnly, none)) ∧
      (imageOnly.appended textOnly).tokens = [nullToken, nullToken, 5, 7] := by
  have htext : textOnly.WellFormed :=
    Reached.wellFormed ⟨[.pushToken 5, .pushToken 7], by decide, rfl⟩
  exact ⟨(pushList_appends_iff (.inl wellFormed_imageOnly) (.inl htext) rfl).mpr fun _ => rfl, rfl⟩

/-- An image is not appended to a list without entries: its first null entry is no valid token. -/
theorem pushList_image : imageOnly.Sound ∧ (empty true).Sound ∧
    (¬∃ fuel, (empty true).pushList imageOnly fuel = some ((empty true).appended imageOnly, none)) ∧
    (empty true).pushList imageOnly 0 = some (empty true, some (.thrown "Invalid token")) := by
  refine ⟨.inl wellFormed_imageOnly, .inl wellFormed_empty, ?_, rfl⟩
  rintro ⟨fuel, hok⟩
  cases congrArg (Option.map Prod.snd) hok

theorem sizeUpToPos_posNext_image :
    (∀ n ≤ imageOnly.size, ¬imageOnly.Cuts n →
      ∃ p, imageOnly.posNext (fun _ => 1) n = some p ∧
      (imageOnly.sizeUpToPos (fun _ => 1) p = some n ↔
        (imageOnly.hasMtmd = true → n = 0 → imageOnly.size = 0))) ∧
    (∀ n ≤ imageOnly.size, ∀ m < n, ¬imageOnly.Cuts m → ¬imageOnly.Cuts n →
      ∃ p q, imageOnly.posNext (fun _ => 1) m = some p ∧
        imageOnly.posNext (fun _ => 1) n = some q ∧ p < q) ∧
    imageOnly.posNext (fun _ => 1) (-1) = imageOnly.posNext (fun _ => 1) imageOnly.size :=
  sizeUpToPos_posNext (fun _ => 1) (.inl wellFormed_imageOnly) fun _ _ _ => Nat.one_pos

/-- No token stands before the first position, and the walk returns the two of the image. -/
theorem sizeUpToPos_zero_image : imageOnly.posNext (fun _ => 1) 0 = some 0 ∧
    ¬imageOnly.Cuts 0 ∧ imageOnly.sizeUpToPos (fun _ => 1) 0 = some 2 :=
  ⟨rfl, not_cuts_zero, rfl⟩

end Llama.Server.ServerTokens
