import Llama.Batch.Partition
import Mathlib.Data.List.Sort

/-!
# The order of a sequence

The tokens of a sequence should leave the splits in the order of the batch. `init` means to
reject batches for which they do not, but its check never fires: tokens of one sequence may
carry different sets, and then a token can be passed over by a later one. `Clean` describes the
batches of which `split_equal` and `split_seq` keep the order, turn by turn.
-/

namespace Llama.Batch

open List

variable {E : Type} {b : Allocr E} {p : Progress}

/-- Two tokens share a sequence. -/
def Allocr.Shares (b : Allocr E) (i j : Nat) : Prop := ∃ s, s ∈ b.seqSet i ∧ s ∈ b.seqSet j

instance (i j : Nat) : Decidable (b.Shares i j) :=
  decidable_of_iff (∃ s ∈ b.seqSet i, s ∈ b.seqSet j) (by rfl)

/-- The tokens left of the set of token `i`. -/
def Allocr.alike (b : Allocr E) (left : List Nat) (i : Nat) : List Nat :=
  left.filter fun j => decide (b.seqSet j = b.seqSet i)

/-- Turn by turn, no token that is left over stands before one of the turn with which it shares a
sequence. -/
inductive Allocr.Clean (b : Allocr E) (turn : List Nat → List Nat) : List Nat → Prop
  | nil : b.Clean turn []
  | turn {left : List Nat}
      (front : ∀ i ∈ turn left, ∀ j ∈ left, j ∉ turn left → b.Shares i j → i < j)
      (rest : b.Clean turn (left.filter (· ∉ turn left))) : b.Clean turn left

variable {i j n nUbatch k : Nat} {l left done idxs is : List Nat} {p' : Progress}
  {sequential : Bool} {c : Cut} {turn : List Nat → List Nat} {mode : Mode}

theorem Allocr.Shares.symm (h : b.Shares i j) : b.Shares j i := by
  obtain ⟨s, hi, hj⟩ := h
  exact ⟨s, hj, hi⟩

/-- Tokens that share a sequence stand in order. -/
def Allocr.Ordered (b : Allocr E) (l : List Nat) : Prop :=
  l.Pairwise fun i j => b.Shares i j → i < j

/-- Used tokens come before unused ones of the same sequence. -/
def SharedInOrder (b : Allocr E) (p : Progress) : Prop :=
  ∀ i j, i < j → j < b.nTokens → b.Shares i j → p.used j = true → p.used i = true

theorem sharedInOrder_reset : SharedInOrder b Progress.reset := fun _ _ _ _ _ h => by cases h

/-- The tokens `done` have been taken in this order. -/
structure Followed (b : Allocr E) (p : Progress) (done : List Nat) : Prop where
  used : ∀ i, p.used i = true ↔ i ∈ done
  lt : ∀ i ∈ done, i < b.nTokens

theorem Followed.step (h : Followed b p done) (hu : Uses b p idxs p')
    (hlt : ∀ i ∈ idxs, i < b.nTokens) : Followed b p' (done ++ idxs) := by
  refine ⟨fun i => ?_, fun i hi => ?_⟩
  · rw [hu.used, h.used, mem_append]
  · rcases mem_append.mp hi with hi | hi
    · exact h.lt i hi
    · exact hlt i hi

theorem Followed.mem_iff (h : Followed b p done) (hall : ∀ i < b.nTokens, p.used i = true)
    (i : Nat) : i ∈ done ↔ i < b.nTokens :=
  ⟨h.lt i, fun hi => (h.used i).mp (hall i hi)⟩

theorem seqSet_eq_of_not_hasCpl (hcpl : b.hasCpl = false) (hi : i < b.nTokens) (hj : j < b.nTokens)
    (hs : b.Shares i j) : b.seqSet i = b.seqSet j := by
  have hone : ∀ k < b.nTokens, ∀ s ∈ b.seqSet k, b.seqSet k = {s} := by
    intro k hk s hs
    have hle : b.nSeqId k ≤ 1 := by
      have := any_eq_false.mp hcpl k (mem_range.mpr hk)
      simpa using this
    have hlen : ((b.seqs k).map Int.toNat).length ≤ 1 := by simpa [Allocr.seqs] using hle
    rw [Allocr.seqSet, mem_toFinset] at hs
    rw [Allocr.seqSet]
    match (b.seqs k).map Int.toNat, hlen, hs with
    | [t], _, hs => simp_all
  obtain ⟨s, h1, h2⟩ := hs
  rw [hone i hi s h1, hone j hj s h2]

/-- Without coupled sequences the tokens of a sequence all have the same set. -/
theorem sharedInOrder_of_not_hasCpl (hcpl : b.hasCpl = false) (h : UsedInOrder b p) :
    SharedInOrder b p := fun i j hij hj hs =>
  h i j hij hj (seqSet_eq_of_not_hasCpl hcpl (hij.trans hj) hj hs)

end Llama.Batch
