import Llama.Vocab.Ugm

/-!
# Relaxing the table

What one code point does to the table of best tokenizations: the tokens that the text goes on
with, and the unknown token where no token covers exactly one character, challenge the
champions at their ends.
-/

namespace Llama.Vocab

open NaiveTrie hiding node
open List Option
open Peg

variable {T T' : List BestTokenization} {i j p id : Nat} {s x : ℚ}

theorem relax_cases (T : List BestTokenization) (i p id : Nat) (s : ℚ) :
    relax T i p id s = T ∨ ∃ cur, scoreAt T i = some cur ∧ p < T.length ∧
      (∀ y, scoreAt T p = some y → y < cur + s) ∧
      relax T i p id s =
        T.set p { tokenId := id, inputOffset := i, scoreSum := some (cur + s) } := by
  unfold relax
  cases hc : scoreAt T i with
  | none => exact .inl rfl
  | some cur =>
    cases hp : T[p]? with
    | none => exact .inl rfl
    | some champ =>
      simp only
      split
      · rename_i himp
        refine .inr ⟨cur, rfl, (List.getElem?_eq_some_iff.mp hp).1, fun y hy => ?_, rfl⟩
        simp only [scoreAt, hp, bind_some] at hy
        simpa [improves, hy] using himp
      · exact .inl rfl

@[simp] theorem relax_length : (relax T i p id s).length = T.length := by
  rcases relax_cases T i p id s with h | ⟨cur, -, -, -, h⟩ <;> simp [h]

theorem relax_of_ne (h : j ≠ p) : (relax T i p id s)[j]? = T[j]? := by
  rcases relax_cases T i p id s with he | ⟨cur, -, -, -, he⟩
  · rw [he]
  · rw [he, getElem?_set_ne (Ne.symm h)]

theorem scoreAt_of_getElem? {b : BestTokenization} (h : T[j]? = some b) :
    scoreAt T j = b.scoreSum := by
  rw [scoreAt, h, bind_some]

theorem relax_mono (h : scoreAt T j = some x) :
    ∃ y, scoreAt (relax T i p id s) j = some y ∧ x ≤ y := by
  rcases relax_cases T i p id s with he | ⟨cur, -, hlt, himp, he⟩
  · exact ⟨x, by rw [he, h], le_rfl⟩
  · by_cases hj : j = p
    · subst hj
      refine ⟨cur + s, ?_, (himp x h).le⟩
      rw [he, scoreAt_of_getElem? (getElem?_set_self hlt)]
    · exact ⟨x, by rw [scoreAt, relax_of_ne hj, ← h, scoreAt], le_rfl⟩

/-- The champion afterwards is at least the challenger. -/
theorem relax_bound {cur : ℚ} (hc : scoreAt T i = some cur) (hp : p < T.length) :
    ∃ y, scoreAt (relax T i p id s) p = some y ∧ cur + s ≤ y := by
  obtain ⟨champ, hchamp⟩ : ∃ b, T[p]? = some b := ⟨_, getElem?_eq_getElem hp⟩
  by_cases himp : improves champ.scoreSum (cur + s) = true
  · refine ⟨cur + s, ?_, le_rfl⟩
    simp only [relax, hc, hchamp, himp, if_true]
    rw [scoreAt_of_getElem? (getElem?_set_self hp)]
  · have he : relax T i p id s = T := by simp only [relax, hc, hchamp, if_neg himp]
    rw [he, scoreAt_of_getElem? hchamp]
    cases hs : champ.scoreSum with
    | none => simp [improves, hs] at himp
    | some y => exact ⟨y, rfl, by simpa [improves, hs] using himp⟩

/-- The entry at an offset afterwards is the old one or the challenger. -/
theorem relax_entry (T : List BestTokenization) (i p id j : Nat) (s : ℚ) :
    (relax T i p id s)[j]? = T[j]? ∨ ∃ cur, scoreAt T i = some cur ∧ j = p ∧
      (relax T i p id s)[j]? =
        some { tokenId := id, inputOffset := i, scoreSum := some (cur + s) } := by
  rcases relax_cases T i p id s with he | ⟨cur, hc, hlt, -, he⟩
  · exact .inl (by rw [he])
  · by_cases hj : j = p
    · subst hj
      exact .inr ⟨cur, hc, rfl, by rw [he, getElem?_set_self hlt]⟩
    · exact .inl (relax_of_ne hj)

/-- A challenger: its end, its token and its score. -/
abbrev Challenger := Nat × Nat × ℚ

/-- All challengers from an offset, one after the other. -/
def relaxAll (i : Nat) (cands : List Challenger) (T : List BestTokenization) :
    List BestTokenization :=
  cands.foldl (fun T c => relax T i c.1 c.2.1 c.2.2) T

/-- What they leave behind. -/
structure Relaxed (i : Nat) (cands : List Challenger) (T T' : List BestTokenization) : Prop where
  length : T'.length = T.length
  kept : ∀ j ≤ i, T'[j]? = T[j]?
  entry : ∀ j, T'[j]? = T[j]? ∨ ∃ c ∈ cands, ∃ cur, scoreAt T i = some cur ∧ j = c.1 ∧
    T'[j]? = some { tokenId := c.2.1, inputOffset := i, scoreSum := some (cur + c.2.2) }
  mono : ∀ j x, scoreAt T j = some x → ∃ y, scoreAt T' j = some y ∧ x ≤ y
  bound : ∀ c ∈ cands, ∀ cur, scoreAt T i = some cur → c.1 < T.length →
    ∃ y, scoreAt T' c.1 = some y ∧ cur + c.2.2 ≤ y

/-- Challengers that end behind the offset leave its own entry alone. -/
theorem relaxAll_relaxed (i : Nat) (cands : List Challenger) (h : ∀ c ∈ cands, i < c.1)
    (T : List BestTokenization) : Relaxed i cands T (relaxAll i cands T) := by
  induction cands generalizing T with
  | nil =>
    exact ⟨rfl, fun _ _ => rfl, fun _ => .inl rfl, fun _ x hx => ⟨x, hx, le_rfl⟩, by simp⟩
  | cons c cands ih =>
    have hc : i < c.1 := h c (mem_cons_self ..)
    have hr := ih (fun c hc => h c (mem_cons_of_mem _ hc)) (relax T i c.1 c.2.1 c.2.2)
    have hcur : scoreAt (relax T i c.1 c.2.1 c.2.2) i = scoreAt T i := by
      rw [scoreAt, relax_of_ne (by omega), ← scoreAt]
    refine ⟨hr.length.trans relax_length, fun j hj => ?_, fun j => ?_, fun j x hx => ?_, ?_⟩
    · exact (hr.kept j hj).trans (relax_of_ne (by omega))
    · rcases hr.entry j with he | ⟨d, hd, cur, hdc, hdj, he⟩
      · rcases relax_entry T i c.1 c.2.1 j c.2.2 with he' | ⟨cur, hcc, hj, he'⟩
        · exact .inl (he.trans he')
        · exact .inr ⟨c, mem_cons_self .., cur, hcc, hj, he.trans he'⟩
      · rw [hcur] at hdc
        exact .inr ⟨d, mem_cons_of_mem _ hd, cur, hdc, hdj, he⟩
    · obtain ⟨y, hy, hxy⟩ : ∃ y, scoreAt (relax T i c.1 c.2.1 c.2.2) j = some y ∧ x ≤ y :=
        relax_mono hx
      obtain ⟨z, hz, hyz⟩ := hr.mono j y hy
      exact ⟨z, hz, hxy.trans hyz⟩
    · intro d hd cur hdc hlt
      rcases mem_cons.mp hd with rfl | hd
      · obtain ⟨y, hy, hxy⟩ :
            ∃ y, scoreAt (relax T i d.1 d.2.1 d.2.2) d.1 = some y ∧ cur + d.2.2 ≤ y :=
          relax_bound hdc hlt
        obtain ⟨z, hz, hyz⟩ := hr.mono _ y hy
        exact ⟨z, hz, hxy.trans hyz⟩
      · exact hr.bound d hd cur (hcur.trans hdc) (by rwa [relax_length])

/-- The values along a walk: where they are and what they are. -/
def walkEnds : NaiveTrie → List UInt8 → Nat → List (Nat × Nat)
  | node, rest, k =>
    (match node.value with | some id => [(k, id)] | none => []) ++
    match rest with
    | [] => []
    | c :: rest =>
      match node.traverse c with
      | none => []
      | some u => walkEnds u rest (k + 1)

theorem mem_walkEnds (node : NaiveTrie) (rest : List UInt8) (k p id : Nat) :
    (p, id) ∈ walkEnds node rest k ↔
      ∃ m ≤ rest.length, p = k + m ∧ node.lookup (rest.take m) = some id := by
  induction rest generalizing node k with
  | nil =>
    unfold walkEnds
    cases hv : node.value with
    | none => simp [lookup_nil, hv]
    | some v =>
      simp only [append_nil, mem_singleton, Prod.mk.injEq, take_nil, lookup_nil, hv,
        length_nil, Option.some.injEq]
      constructor
      · rintro ⟨rfl, rfl⟩
        exact ⟨0, le_rfl, rfl, rfl⟩
      · rintro ⟨m, hm, rfl, rfl⟩
        exact ⟨by omega, rfl⟩
  | cons c rest ih =>
    have hhead : (p, id) ∈ (match node.value with | some id => [(k, id)] | none => []) ↔
        p = k ∧ node.lookup [] = some id := by
      rw [lookup_nil]
      cases node.value <;> simp [eq_comm]
    have htail : (p, id) ∈ (match node.traverse c with
        | none => []
        | some u => walkEnds u rest (k + 1)) ↔
        ∃ m ≤ rest.length, p = k + 1 + m ∧ node.lookup (c :: rest.take m) = some id := by
      cases ht : node.traverse c with
      | none => simp [lookup_cons, ht]
      | some u =>
        simp only [lookup_cons, ht, bind_some]
        exact ih u (k + 1)
    unfold walkEnds
    rw [mem_append, hhead, htail]
    constructor
    · rintro (⟨rfl, hl⟩ | ⟨m, hm, rfl, hl⟩)
      · exact ⟨0, Nat.zero_le _, rfl, hl⟩
      · exact ⟨m + 1, by simpa using hm, by omega, hl⟩
    · rintro ⟨m, hm, rfl, hl⟩
      cases m with
      | zero => exact .inl ⟨rfl, hl⟩
      | succ m => exact .inr ⟨m, by simpa using hm, by omega, hl⟩

variable {vocab : List (TokenData ℚ)} {units : Nat}

/-- The walk lets the values along it challenge. -/
theorem walkTokens_eq (node : NaiveTrie) (rest : List UInt8) (k : Nat)
    (st : Bool × List BestTokenization) :
    walkTokens vocab i units node rest k st =
      (st.1 || (walkEnds node rest k).any (fun e => e.1 - i == units),
        relaxAll i ((walkEnds node rest k).map fun e => (e.1, e.2, scoreOf vocab e.2)) st.2) := by
  induction rest generalizing node k st with
  | nil =>
    unfold walkTokens walkEnds
    cases node.value <;> simp [relaxAll]
  | cons c rest ih =>
    unfold walkTokens walkEnds
    cases ht : node.traverse c with
    | none => cases node.value <;> simp [ht, relaxAll]
    | some u =>
      simp only [ht]
      rw [ih]
      cases node.value <;> simp [relaxAll, Bool.or_assoc]

end Llama.Vocab
