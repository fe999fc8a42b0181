import Mathlib.Data.List.Basic

/-!
# Runs of a partial step function

A system whose steps are chosen by an environment is a partial function of the state and of the
chosen action. A run is a list of actions; it exists if every step does. A condition on steps
is asked of each state that the run passes together with the action taken there.
-/

namespace Llama.Run

open Option

variable {σ α : Type*} {step : σ → α → Option σ} {P Q : σ → α → Prop} {I : σ → Prop}

/-- The state after a list of actions. -/
def exec (step : σ → α → Option σ) (s : σ) (as : List α) : Option σ := as.foldlM step s

/-- Every step of the run meets the condition. -/
def Meets (step : σ → α → Option σ) (P : σ → α → Prop) : σ → List α → Prop
  | _, [] => True
  | s, a :: as =>
    P s a ∧ match step s a with
      | none => True
      | some s' => Meets step P s' as

instance decidableMeets [∀ s a, Decidable (P s a)] :
    (as : List α) → (s : σ) → Decidable (Meets step P s as)
  | [], _ => isTrue trivial
  | a :: as, s =>
    match hs : step s a with
    | none => decidable_of_iff (P s a) (by simp [Meets, hs])
    | some s' =>
      have := decidableMeets as s'
      decidable_of_iff (P s a ∧ Meets step P s' as) (by simp [Meets, hs])

@[simp] theorem exec_nil (s : σ) : exec step s [] = some s := rfl

theorem exec_cons (s : σ) (a : α) (as : List α) :
    exec step s (a :: as) = (step s a).bind fun s' => exec step s' as := rfl

variable {s s' : σ} {a : α} {as : List α}

/-- A run is a first step and the rest. -/
theorem exec_cons_eq_some {s'' : σ} :
    exec step s (a :: as) = some s'' ↔ ∃ s', step s a = some s' ∧ exec step s' as = some s'' := by
  rw [exec_cons, bind_eq_some_iff]

theorem Meets.tail (h : Meets step P s (a :: as)) (hs : step s a = some s') :
    Meets step P s' as := by
  have := h.2
  rwa [hs] at this

theorem meets_append {bs : List α} (h : Meets step P s (as ++ bs)) (hs : exec step s as = some s') :
    Meets step P s as ∧ Meets step P s' bs := by
  induction as generalizing s with
  | nil =>
    obtain rfl : s = s' := by simpa using hs
    exact ⟨trivial, h⟩
  | cons a as ih =>
    obtain ⟨t, ht, hrest⟩ := exec_cons_eq_some.mp hs
    obtain ⟨h1, h2⟩ := ih (h.tail ht) hrest
    refine ⟨⟨h.1, ?_⟩, h2⟩
    rw [ht]
    exact h1

/-- Invariant rule: what every step under the condition keeps, every run under it keeps. -/
theorem exec_invariant (hstep : ∀ s a s', I s → P s a → step s a = some s' → I s') (hs : I s)
    (hP : Meets step P s as) (h : exec step s as = some s') : I s' := by
  induction as generalizing s with
  | nil =>
    obtain rfl : s = s' := by simpa using h
    exact hs
  | cons a as ih =>
    obtain ⟨t, ht, hrest⟩ := exec_cons_eq_some.mp h
    exact ih (hstep s a t hs hP.1 ht) (hP.tail ht) hrest

theorem Meets.and (hP : Meets step P s as) (hQ : Meets step Q s as) :
    Meets step (fun s a => P s a ∧ Q s a) s as := by
  induction as generalizing s with
  | nil => trivial
  | cons a as ih =>
    refine ⟨⟨hP.1, hQ.1⟩, ?_⟩
    cases hs : step s a with
    | none => trivial
    | some s' => exact ih (hP.tail hs) (hQ.tail hs)

/-- Either no step of a run meets a condition, or there is a last one that does. -/
theorem exists_last (Q : σ → α → Prop) (h : exec step s as = some s') :
    Meets step (fun s a => ¬ Q s a) s as ∨
      ∃ before a after s₁ s₂, as = before ++ a :: after ∧ exec step s before = some s₁ ∧ Q s₁ a ∧
        step s₁ a = some s₂ ∧ Meets step (fun s a => ¬ Q s a) s₂ after ∧
        exec step s₂ after = some s' := by
  induction as generalizing s with
  | nil => exact .inl trivial
  | cons a as ih =>
    obtain ⟨t, ht, hrest⟩ := exec_cons_eq_some.mp h
    rcases ih hrest with hnone | ⟨before, b, after, s₁, s₂, rfl, hbefore, hQ⟩
    · by_cases hq : Q s a
      · exact .inr ⟨[], a, as, s, t, rfl, rfl, hq, ht, hnone, hrest⟩
      · refine .inl ⟨hq, ?_⟩
        rw [ht]
        exact hnone
    · refine .inr ⟨a :: before, b, after, s₁, s₂, rfl, ?_, hQ⟩
      rw [exec_cons, ht, bind_some, hbefore]

theorem meets_true (s : σ) (as : List α) : Meets step (fun _ _ => True) s as := by
  induction as generalizing s with
  | nil => trivial
  | cons a as ih =>
    refine ⟨trivial, ?_⟩
    cases step s a with
    | none => trivial
    | some s' => exact ih s'

end Llama.Run
