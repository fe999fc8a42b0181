import Llama.Kv.Cells
import Mathlib.Tactic.Abel

/-!
# Representation invariant of the cell metadata

`used`, `seq_pos` and the cell records are redundant. `Cells.Inv` says that the
first two are determined by the records. Every mutator that respects its
assertions replaces the record of one index and adjusts the redundant fields
accordingly; `Replaced` states that once, and each method is an instance of it.
-/

namespace Llama.Kv

open Function Finset

/-- What one record contributes to the positions of a sequence. -/
def Cell.contrib (x : Cell) (q : SeqId) : Multiset Int := if q ∈ x.seq then {x.pos} else 0

variable {x : Cell} {q : SeqId}

/-- A record without sequences contributes nothing. -/
@[simp] theorem Cell.contrib_of_seq_empty (h : x.seq = ∅) (q : SeqId) :
    x.contrib q = 0 := by simp [Cell.contrib, h]

theorem Cell.contrib_of_mem (h : q ∈ x.seq) : x.contrib q = {x.pos} := by
  simp [Cell.contrib, h]

theorem Cell.contrib_of_notMem (h : q ∉ x.seq) : x.contrib q = 0 := by
  simp [Cell.contrib, h]

namespace Cells

/-- The positions of a sequence as the records give them. -/
def track (c : Cells) (q : SeqId) : Multiset Int := ∑ i ∈ range c.size, (c.cell i).contrib q

/-- The redundant fields agree with the records, and the records are well formed. -/
structure Inv (c : Cells) : Prop where
  used : ∀ i, i ∈ c.used ↔ i < c.size ∧ (c.cell i).pos ≠ -1
  pos : ∀ i < c.size, (c.cell i).pos = -1 ∨ 0 ≤ (c.cell i).pos
  seq : ∀ i < c.size, (c.cell i).pos = -1 → (c.cell i).seq = ∅
  seqPos : ∀ q, c.seqPos q = c.track q

/-- Between two operations a cell without a sequence is also empty. -/
structure Full (c : Cells) : Prop extends Inv c where
  /-- No used cell is left without a sequence. -/
  owned : ∀ i < c.size, (c.cell i).seq = ∅ → (c.cell i).pos = -1

/-- `c'` is `c` with the record of index `i` replaced by `x`. -/
structure Replaced (c c' : Cells) (i : Nat) (x : Cell) : Prop where
  size : c'.size = c.size
  cell : c'.cell = update c.cell i x
  used : c'.used = if x.pos = -1 then c.used.erase i else insert i c.used
  seqPos : ∀ q, c'.seqPos q + (c.cell i).contrib q = c.seqPos q + x.contrib q

section

variable (c : Cells) (p : Bool)

@[simp] theorem assert_size : (c.assert p).size = c.size := rfl
@[simp] theorem assert_cell : (c.assert p).cell = c.cell := rfl
@[simp] theorem assert_used : (c.assert p).used = c.used := rfl
@[simp] theorem assert_seqPos : (c.assert p).seqPos = c.seqPos := rfl
@[simp] theorem assert_ok : (c.assert p).ok = (c.ok && p) := rfl

end

variable {c c' : Cells} {i : Nat} {x : Cell}

/-- The records fix the contribution sum up to the index that changes. -/
theorem track_update (hs : c'.size = c.size) (hc : c'.cell = update c.cell i x)
    (hi : i < c.size) (q : SeqId) :
    c'.track q + (c.cell i).contrib q = c.track q + x.contrib q := by
  have hm : i ∈ range c.size := mem_range.mpr hi
  have hrest : ∑ j ∈ (range c.size).erase i, (update c.cell i x j).contrib q =
      ∑ j ∈ (range c.size).erase i, (c.cell j).contrib q := by
    apply sum_congr rfl
    intro j hj
    rw [update_of_ne (ne_of_mem_erase hj)]
  rw [track, track, hs, hc, ← add_sum_erase _ _ hm, ← add_sum_erase _ _ hm, hrest, update_self]
  abel

/-- Replacing a record by a well-formed one keeps the invariant. -/
theorem Replaced.inv (h : Replaced c c' i x) (hc : c.Inv) (hi : i < c.size)
    (hpos : x.pos = -1 ∨ 0 ≤ x.pos) (hseq : x.pos = -1 → x.seq = ∅) : c'.Inv where
  used j := by
    rw [h.used, h.cell, h.size]
    by_cases he : j = i
    · subst he
      by_cases hx : x.pos = -1 <;> simp [hx, hi]
    · rw [update_of_ne he, ← hc.used j]
      by_cases hx : x.pos = -1 <;> simp [hx, he]
  pos j hj := by
    rw [h.size] at hj
    rw [h.cell]
    by_cases he : j = i
    · subst he
      simpa using hpos
    · simpa [update_of_ne he] using hc.pos j hj
  seq j hj := by
    rw [h.size] at hj
    rw [h.cell]
    by_cases he : j = i
    · subst he
      simpa using hseq
    · simpa [update_of_ne he] using hc.seq j hj
  seqPos q := by
    have h1 := h.seqPos q
    have h2 := track_update h.size h.cell hi q
    rw [hc.seqPos q, ← h2] at h1
    exact Multiset.add_left_inj.mp h1

/-- Two replacements at one index leave the second record. -/
theorem Replaced.trans {c'' : Cells} {y : Cell} (h : Replaced c c' i x) (h' : Replaced c' c'' i y) :
    Replaced c c'' i y where
  size := h'.size.trans h.size
  cell := by rw [h'.cell, h.cell, update_idem]
  used := by
    rw [h'.used, h.used]
    by_cases hx : x.pos = -1 <;> by_cases hy : y.pos = -1 <;> simp [hx, hy]
    · ext j
      by_cases hj : j = i <;> simp [hj]
  seqPos q := by
    have h1 := h.seqPos q
    have h2 := h'.seqPos q
    rw [h.cell, update_self] at h2
    have h3 : c''.seqPos q + (c.cell i).contrib q + x.contrib q =
        c.seqPos q + y.contrib q + x.contrib q := by
      calc c''.seqPos q + (c.cell i).contrib q + x.contrib q
          = (c''.seqPos q + x.contrib q) + (c.cell i).contrib q := by abel
        _ = (c'.seqPos q + (c.cell i).contrib q) + y.contrib q := by rw [h2]; abel
        _ = c.seqPos q + y.contrib q + x.contrib q := by rw [h1]; abel
    exact Multiset.add_left_inj.mp h3

/-- A replacement leaves the records of the other indices alone. -/
theorem Replaced.cell_of_ne {j : Nat} (h : Replaced c c' i x) (hj : j ≠ i) :
    c'.cell j = c.cell j := by
  rw [h.cell, update_of_ne hj]

/-- A replacement writes its own record. -/
theorem Replaced.cell_self (h : Replaced c c' i x) : c'.cell i = x := by
  rw [h.cell, update_self]

/-- A replacement by a record that is empty exactly when unowned keeps `Full`. -/
theorem Replaced.full (h : Replaced c c' i x) (hc : c.Full) (hi : i < c.size)
    (hpos : x.pos = -1 ∨ 0 ≤ x.pos) (hseq : x.pos = -1 ↔ x.seq = ∅) : c'.Full where
  toInv := h.inv hc.toInv hi hpos hseq.mp
  owned j hj := by
    rw [h.size] at hj
    by_cases he : j = i
    · subst he
      rw [h.cell_self]
      exact hseq.mpr
    · rw [h.cell_of_ne he]
      exact hc.owned j hj

/-- The position of a cell is recorded for each of its sequences. -/
theorem Inv.pos_mem_seqPos (h : c.Inv) (hi : i < c.size) (hq : q ∈ (c.cell i).seq) :
    (c.cell i).pos ∈ c.seqPos q := by
  rw [h.seqPos q, track]
  apply Multiset.mem_of_le (single_le_sum (f := fun j => (c.cell j).contrib q)
    (fun _ _ => Multiset.zero_le _) (mem_range.mpr hi))
  simp [Cell.contrib, hq]

/-- Membership in a position map, read back to the cells. -/
theorem Inv.mem_seqPos_iff (h : c.Inv) (q : SeqId) (p : Int) :
    p ∈ c.seqPos q ↔ ∃ i < c.size, q ∈ (c.cell i).seq ∧ (c.cell i).pos = p := by
  constructor
  · intro hp
    rw [h.seqPos q, track, Multiset.mem_sum] at hp
    obtain ⟨i, hi, hm⟩ := hp
    unfold Cell.contrib at hm
    split at hm
    · rename_i hq
      exact ⟨i, mem_range.mp hi, hq, (Multiset.mem_singleton.mp hm).symm⟩
    · simp at hm
  · rintro ⟨i, hi, hq, rfl⟩
    exact h.pos_mem_seqPos hi hq

/-- The invariant determines the redundant fields from the records. -/
theorem Inv.ext_of_cell (h : c.Inv) (h' : c'.Inv) (hs : c'.size = c.size)
    (hc : ∀ i < c.size, (c'.cell i).pos = (c.cell i).pos ∧ (c'.cell i).seq = (c.cell i).seq) :
    c'.used = c.used ∧ c'.seqPos = c.seqPos := by
  constructor
  · ext i
    rw [h.used, h'.used, hs]
    constructor
    · rintro ⟨hi, hp⟩
      exact ⟨hi, by rwa [(hc i hi).1] at hp⟩
    · rintro ⟨hi, hp⟩
      exact ⟨hi, by rwa [(hc i hi).1]⟩
  · funext q
    rw [h.seqPos, h'.seqPos, track, track, hs]
    apply sum_congr rfl
    intro i hi
    obtain ⟨hp, hq⟩ := hc i (mem_range.mp hi)
    simp only [Cell.contrib, hp, hq]

theorem resize_full (n : Nat) : (resize n).Full where
  used i := by simp [resize]
  pos i _ := by simp [resize]
  seq i _ _ := rfl
  seqPos q := by simp [resize, track, Cell.contrib]
  owned i _ _ := rfl

theorem reset_full (c : Cells) : c.reset.Full where
  used := (resize_full c.size).used
  pos := (resize_full c.size).pos
  seq := (resize_full c.size).seq
  seqPos := (resize_full c.size).seqPos
  owned := (resize_full c.size).owned

end Cells

end Llama.Kv
