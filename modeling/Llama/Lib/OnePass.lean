import Mathlib.Data.List.Infix

/-!
# Search in one pass without fallback

The text is read once, beside the pattern. A letter that does not continue the match starts the
pattern over behind that letter, and the letters matched so far are not looked at again. What is
found is an occurrence, but an occurrence is found only if the search starts over right in front
of it.
-/

namespace Llama.OnePass

open List

variable {α : Type*} [DecidableEq α] {pattern left text rest : List α}

/-- The text behind the first match that is found, where `left` is what the current match still
needs of the pattern. -/
def search (pattern : List α) : List α → List α → Option (List α)
  | _, [] => none
  | [], _ :: _ => none
  | p :: left, c :: text =>
    if c = p then
      if left = [] then some text else search pattern left text
    else search pattern pattern text

/-- A match that was begun and the letter that broke it. -/
structure Broken (pattern u : List α) (c : α) : Prop where
  begins : u <+: pattern
  breaks : ¬ u ++ [c] <+: pattern
  unfinished : u ≠ pattern

/-- A sequence of begun matches, each with the letter that broke it. -/
inductive Splits (pattern : List α) : List α → Prop where
  | nil : Splits pattern []
  | broken {u s : List α} {c : α} (h : Broken pattern u c) (hs : Splits pattern s) :
      Splits pattern (u ++ c :: s)

omit [DecidableEq α] in
/-- A match is broken at its first letter, or behind it. -/
theorem broken_cons_iff {p c : α} {u : List α} :
    Broken (p :: left) u c ↔ u = [] ∧ c ≠ p ∨ ∃ v, u = p :: v ∧ Broken left v c := by
  constructor
  · rintro ⟨hbegins, hbreaks, hunfinished⟩
    cases u with
    | nil =>
      left
      refine ⟨rfl, fun hc => hbreaks ?_⟩
      rw [nil_append, hc]
      exact cons_prefix_cons.mpr ⟨rfl, nil_prefix⟩
    | cons d v =>
      right
      obtain ⟨rfl, hv⟩ := cons_prefix_cons.mp hbegins
      refine ⟨v, rfl, hv, fun hb => hbreaks ?_, fun he => hunfinished (he ▸ rfl)⟩
      rw [cons_append]
      exact cons_prefix_cons.mpr ⟨rfl, hb⟩
  · rintro (⟨rfl, hc⟩ | ⟨v, rfl, hbegins, hbreaks, hunfinished⟩)
    · refine ⟨ nil_prefix, fun hb => hc ?_, (cons_ne_nil _ _).symm⟩
      rw [nil_append] at hb
      exact (cons_prefix_cons.mp hb).1
    · refine ⟨cons_prefix_cons.mpr ⟨rfl, hbegins⟩, fun hb => hbreaks ?_,
        fun he => hunfinished (List.cons.inj he).2⟩
      rw [cons_append] at hb
      exact (cons_prefix_cons.mp hb).2

omit [DecidableEq α] in
/-- A text that splits is empty, or begins with a broken match. -/
theorem splits_append_iff :
    (∃ s, Splits pattern s ∧ text = s ++ (pattern ++ rest)) ↔
      text = pattern ++ rest ∨ ∃ u c s, Broken pattern u c ∧ Splits pattern s ∧
        text = u ++ c :: (s ++ (pattern ++ rest)) := by
  constructor
  · rintro ⟨s, hs, rfl⟩
    cases hs with
    | nil => exact .inl rfl
    | broken hb hs => exact .inr ⟨_, _, _, hb, hs, by simp⟩
  · rintro (rfl | ⟨u, c, s, hb, hs, rfl⟩)
    · exact ⟨[], .nil, rfl⟩
    · exact ⟨u ++ c :: s, .broken hb hs, by simp⟩

/-- The match that is under way is finished, or it is broken and the search starts over. -/
theorem search_eq_some (hp : pattern ≠ []) (hl : left ≠ []) :
    search pattern left text = some rest ↔
      text = left ++ rest ∨ ∃ u c s, Broken left u c ∧ Splits pattern s ∧
        text = u ++ c :: (s ++ (pattern ++ rest)) := by
  induction text generalizing left with
  | nil =>
    cases left with
    | nil => exact absurd rfl hl
    | cons p left => simp [search]
  | cons c text ih =>
    cases left with
    | nil => exact absurd rfl hl
    | cons p left =>
      rw [search]
      by_cases hc : c = p
      · subst hc
        rw [if_pos rfl]
        by_cases hnil : left = []
        · subst hnil
          simp only [broken_cons_iff, if_true, Option.some.injEq, singleton_append,
            List.cons.injEq, true_and]
          constructor
          · exact .inl
          · rintro (h | ⟨u, d, s, ⟨rfl, hd⟩ | ⟨v, -, hv⟩, -, htext⟩)
            · exact h
            · exact absurd (List.cons.inj htext).1.symm hd
            · exact absurd (prefix_nil.mp hv.begins) hv.unfinished
        · rw [if_neg hnil, ih hnil]
          simp only [broken_cons_iff, cons_append, List.cons.injEq, true_and]
          refine or_congr Iff.rfl ?_
          constructor
          · rintro ⟨u, d, s, hb, hs, rfl⟩
            exact ⟨c :: u, d, s, .inr ⟨u, rfl, hb⟩, hs, rfl⟩
          · rintro ⟨u, d, s, ⟨rfl, hd⟩ | ⟨v, rfl, hv⟩, hs, htext⟩
            · exact absurd (List.cons.inj htext).1.symm hd
            · exact ⟨v, d, s, hv, hs, (List.cons.inj htext).2⟩
      · rw [if_neg hc, ih hp, ← splits_append_iff]
        simp only [broken_cons_iff, cons_append, List.cons.injEq, hc, false_and, false_or]
        constructor
        · rintro ⟨s, hs, rfl⟩
          exact ⟨[], c, s, .inl ⟨rfl, hc⟩, hs, rfl⟩
        · rintro ⟨u, d, s, ⟨rfl, -⟩ | ⟨v, rfl, -⟩, hs, htext⟩
          · exact ⟨s, hs, (List.cons.inj htext).2⟩
          · exact absurd (List.cons.inj htext).1 hc

/-- A pass over the whole text finds a match behind a text that splits into broken ones. -/
theorem search_pattern (hp : pattern ≠ []) :
    search pattern pattern text = some rest ↔
      ∃ s, Splits pattern s ∧ text = s ++ (pattern ++ rest) := by
  rw [search_eq_some hp hp, splits_append_iff]

end Llama.OnePass
