import Mathlib.Order.Basic

/-!
# Programs with a state and exceptions

The weakest precondition of a program that reads and writes a state and may throw: the states
from which it ends with a value as wanted, or throws as allowed. An exception leaves the state
as it is.
-/

namespace Llama.Wp

variable {ε σ α β : Type}

/-- From the state `s` the program returns with `Q` or throws with `E`. -/
def wp (x : EStateM ε σ α) (Q : α → σ → Prop) (E : ε → σ → Prop) (s : σ) : Prop :=
  match x s with
  | .ok a s' => Q a s'
  | .error e s' => E e s'

variable {x : EStateM ε σ α} {f : α → EStateM ε σ β} {Q Q' : α → σ → Prop} {R : β → σ → Prop}
  {E E' : ε → σ → Prop} {s : σ}

variable {a : α} {c : Prop} {e : ε} {s' : σ}

theorem wp_pure (h : Q a s) : wp (pure a) Q E s := h

theorem wp_bind (h : wp x (fun a s' => wp (f a) R E s') E s) : wp (x >>= f) R E s := by
  simp only [wp, bind, EStateM.bind] at h ⊢
  cases hx : x s with
  | ok a s' =>
    rw [hx] at h
    exact h
  | error e s' =>
    rw [hx] at h
    exact h

/-- The rule of consequence. -/
theorem wp_mono (h : wp x Q E s) (hQ : ∀ a s', Q a s' → Q' a s')
    (hE : ∀ e s', E e s' → E' e s') : wp x Q' E' s := by
  simp only [wp] at h ⊢
  cases hx : x s with
  | ok a s' =>
    rw [hx] at h
    exact hQ a s' h
  | error e s' =>
    rw [hx] at h
    exact hE e s' h

theorem wp_then (h : wp x Q E s) (hf : ∀ a s', Q a s' → wp (f a) R E s') : wp (x >>= f) R E s :=
  wp_bind (wp_mono h hf fun _ _ he => he)

theorem wp_unless [Decidable c] {g : Unit → EStateM ε σ α} (he : c → E e s)
    (h : ¬ c → wp (g ()) Q E s) : wp (if c then throw e >>= g else g ()) Q E s := by
  split
  · exact he ‹_›
  · exact h ‹_›

theorem wp_ite [Decidable c] {y : EStateM ε σ α} (hx : c → wp x Q E s) (hy : ¬ c → wp y Q E s) :
    wp (if c then x else y) Q E s := by
  split
  · exact hx ‹_›
  · exact hy ‹_›

theorem wp_get {Q : σ → σ → Prop} (h : Q s s) : wp (get : EStateM ε σ σ) Q E s := h

theorem wp_modify {g : σ → σ} {Q : PUnit → σ → Prop} (h : Q ⟨⟩ (g s)) :
    wp (modify g : EStateM ε σ PUnit) Q E s := h

theorem wp_modifyGet {g : σ → α × σ} (h : Q (g s).1 (g s).2) :
    wp (modifyGet g : EStateM ε σ α) Q E s := h

theorem wp_of_ok (h : x s = .ok a s') (hQ : Q a s') : wp x Q E s := by
  rw [wp, h]
  exact hQ

theorem wp_of_error (h : x s = .error e s') (hE : E e s') : wp x Q E s := by
  rw [wp, h]
  exact hE

theorem wp.ok (h : wp x Q E s) (hx : x s = .ok a s') : Q a s' := by
  rw [wp, hx] at h
  exact h

theorem wp.error (h : wp x Q E s) (hx : x s = .error e s') : E e s' := by
  rw [wp, hx] at h
  exact h

end Llama.Wp
