import Mathlib.Algebra.Order.Monoid.Defs
import Mathlib.Algebra.BigOperators.Group.List.Basic

/-!
# Best paths

A dynamic program over the nodes of a graph without cycles keeps a value for every node. When
no step raises a value above that of its source, the values bound the scores of all paths to
the goal; when every value comes from a chosen step, following the choices attains it.
-/

namespace Llama.BestPath

variable {N L S : Type} {step choice : N → L → N → Prop} {goal i : N} {ls : List L}

/-- A path to the goal, with the labels of its steps. -/
inductive Path (step : N → L → N → Prop) (goal : N) : N → List L → Prop
  | nil : Path step goal goal []
  | cons {i j : N} {l : L} {ls : List L} (hs : step i l j) (hp : Path step goal j ls) :
    Path step goal i (l :: ls)

theorem Path.mono (hsub : ∀ i l j, choice i l j → step i l j) (h : Path choice goal i ls) :
    Path step goal i ls := by
  induction h with
  | nil => exact .nil
  | cons hs _ ih => exact .cons (hsub _ _ _ hs) ih

variable [AddCommMonoid S] [PartialOrder S] [IsOrderedAddMonoid S] {score : L → S}
  {value : N → Option S} {rank : N → Nat} {s : S}

/-- The score of a path. -/
def total (score : L → S) (ls : List L) : S := (ls.map score).sum

omit [PartialOrder S] [IsOrderedAddMonoid S] in
@[simp] theorem total_nil : total score [] = 0 := rfl

omit [PartialOrder S] [IsOrderedAddMonoid S] in
@[simp] theorem total_cons (l : L) (ls : List L) :
    total score (l :: ls) = score l + total score ls := by
  simp [total]

/-- The values that a dynamic program ends with: zero at the goal, and no step does better. -/
structure Bounding (step : N → L → N → Prop) (goal : N) (score : L → S)
    (value : N → Option S) : Prop where
  goal : value goal = some 0
  step : ∀ i l j s, step i l j → value j = some s → ∃ s', value i = some s' ∧ score l + s ≤ s'

/-- Every value but that of the goal comes from a choice that comes closer to the goal. -/
def Attained (choice : N → L → N → Prop) (goal : N) (score : L → S) (value : N → Option S)
    (rank : N → Nat) : Prop :=
  ∀ i s, value i = some s → (i = goal ∧ s = 0) ∨ ∃ l j s', choice i l j ∧ rank j < rank i ∧
    value j = some s' ∧ s = score l + s'

/-- The values bound all paths, and there is a value wherever there is a path. -/
theorem Bounding.total_le (h : Bounding step goal score value) (hp : Path step goal i ls) :
    ∃ s, value i = some s ∧ total score ls ≤ s := by
  induction hp with
  | nil => exact ⟨0, h.goal, le_rfl⟩
  | @cons i j l ls hs _ ih =>
    obtain ⟨s, hv, hle⟩ := ih
    obtain ⟨s', hv', hle'⟩ := h.step i l j s hs hv
    refine ⟨s', hv', ?_⟩
    calc total score (l :: ls) = score l + total score ls := total_cons l ls
      _ ≤ score l + s := by gcongr
      _ ≤ s' := hle'

omit [PartialOrder S] [IsOrderedAddMonoid S] in
/-- Following the choices attains the value. -/
theorem Attained.exists_path (h : Attained choice goal score value rank)
    (hv : value i = some s) : ∃ ls, Path choice goal i ls ∧ total score ls = s := by
  induction hr : rank i using Nat.strong_induction_on generalizing i s with
  | _ r ih =>
    rcases h i s hv with ⟨rfl, rfl⟩ | ⟨l, j, s', hc, hlt, hv', rfl⟩
    · exact ⟨[], .nil, rfl⟩
    · obtain ⟨ls, hp, ht⟩ := ih (rank j) (hr ▸ hlt) hv' rfl
      exact ⟨l :: ls, .cons hc hp, by rw [total_cons, ht]⟩

/-- From wherever there is a path, following the choices is a best path. -/
theorem exists_best (hb : Bounding step goal score value)
    (ha : Attained choice goal score value rank) (hp : Path step goal i ls) :
    ∃ best, Path choice goal i best ∧
      ∀ ls', Path step goal i ls' → total score ls' ≤ total score best := by
  obtain ⟨s, hv, -⟩ := hb.total_le hp
  obtain ⟨best, hc, ht⟩ := ha.exists_path hv
  refine ⟨best, hc, fun ls' hp' => ?_⟩
  obtain ⟨s', hv', hle⟩ := hb.total_le hp'
  rw [hv] at hv'
  cases hv'
  rwa [ht]

end Llama.BestPath
