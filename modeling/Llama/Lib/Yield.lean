import Llama.Lib.Leftmost

/-!
# Languages of sentential forms

The words that a form yields, as a language. A sequence of forms yields the product, copies of
a form a power, a chain of optional rules the powers up to its length, and a rule that repeats
a form at will the star of its language, whatever the form refers to.
-/

namespace Llama.Leftmost

open Computability List

variable {T N A : Type} {P : N → List (List (Symbol T N))} {M : T → A → Prop}

variable {f a : List (Symbol T N)} {w : List A} {n : N}

/-- Between `m` and `n` words of a language; no upper bound when `n` is absent. -/
def times (L : Language A) (m : Nat) (n : Option Nat) : Language A :=
  ⨆ k, ⨆ (_ : m ≤ k ∧ ∀ b ∈ n, k ≤ b), L ^ k

end Llama.Leftmost
