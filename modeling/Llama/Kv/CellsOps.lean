import Llama.Kv.CellsInv

/-!
# Every method replaces one record

Under its asserted precondition each mutator of `llama_kv_cells` replaces the record
of its index (`Replaced`) and meets its assertions (`ok` does not change).
-/

namespace Llama.Kv

open List Function

/-- The record that `seq_rm` leaves. -/
def Cell.without (x : Cell) (q : SeqId) : Cell :=
  if x.seq.erase q = ∅ then {} else { x with seq := x.seq.erase q }

/-- The record that `pos_add` leaves. -/
def Cell.moved (x : Cell) (d : Int) : Cell :=
  if x.pos + d < 0 then { x with pos := -1, shift := 0, seq := ∅ }
  else { x with pos := x.pos + d, shift := x.shift + d }

/-- The record that `pos_div` leaves. -/
def Cell.scaled (x : Cell) (d : Int) : Cell :=
  { x with pos := x.pos.tdiv d, shift := x.shift + (x.pos - x.pos.tdiv d) }

namespace Cells

variable {c : Cells} {i : Nat}

/-- Inserting a used index or erasing an unused one changes nothing. -/
theorem Inv.used_eq (h : c.Inv) (hi : i < c.size) :
    c.used = if (c.cell i).pos = -1 then c.used.erase i else insert i c.used := by
  split
  · rename_i hp
    rw [Finset.erase_eq_of_notMem]
    rw [h.used]
    simp [hp]
  · rename_i hp
    rw [Finset.insert_eq_of_mem]
    rw [h.used]
    exact ⟨hi, hp⟩

/-- `seq_pos_rm` takes out exactly the contribution of its cell. -/
theorem Inv.seqPosRm_seqPos (h : c.Inv) (hi : i < c.size) (q : SeqId) :
    (c.seqPosRm i).seqPos q + (c.cell i).contrib q = c.seqPos q := by
  simp only [seqPosRm, Cell.contrib]
  split
  · rename_i hq
    rw [add_comm, Multiset.singleton_add]
    exact Multiset.cons_erase (h.pos_mem_seqPos hi hq)
  · simp

/-- `seq_pos_rm` finds every entry it decrements. -/
theorem Inv.seqPosRm_ok (h : c.Inv) (hi : i < c.size) : (c.seqPosRm i).ok = c.ok := by
  have hm : decide (∀ q ∈ (c.cell i).seq, (c.cell i).pos ∈ c.seqPos q) = true :=
    decide_eq_true fun q hq => h.pos_mem_seqPos hi hq
  rw [seqPosRm, hm]
  simp

/-- `seq_pos_add` puts in exactly the contribution of its cell. -/
theorem seqPosAdd_seqPos (c : Cells) (i : Nat) (q : SeqId) :
    (c.seqPosAdd i).seqPos q = c.seqPos q + (c.cell i).contrib q := by
  simp only [seqPosAdd, Cell.contrib]
  split
  · rw [add_comm, Multiset.singleton_add]
  · simp

theorem assert_inv {p : Bool} (h : c.Inv) : (c.assert p).Inv := ⟨h.used, h.pos, h.seq, h.seqPos⟩

/-- A met assertion changes nothing at all. -/
theorem assert_true (c : Cells) : c.assert true = c := by simp [assert]

/-- The assertion of a non-empty cell holds for a used index. -/
theorem nonEmptyPre_eq_true (hi : i < c.size) (hp : (c.cell i).pos ≠ -1) :
    c.nonEmptyPre i = true := by simp [nonEmptyPre, hi, hp]

theorem Inv.rm (h : c.Inv) (hi : i < c.size) : Replaced c (c.rm i) i {} where
  size := rfl
  cell := rfl
  used := rfl
  seqPos q := by
    have hq := (assert_inv (p := c.nonEmptyPre i) h).seqPosRm_seqPos hi q
    simpa [Cells.rm, put, usedErase] using hq

theorem Inv.rm_ok (h : c.Inv) (hi : i < c.size) (hp : (c.cell i).pos ≠ -1) :
    (c.rm i).ok = c.ok := by
  have hq := h.seqPosRm_ok hi
  simpa only [Cells.rm, put, usedErase, nonEmptyPre_eq_true hi hp, assert_true] using hq

/-- `seq_rm` removes one sequence and empties the cell with the last one. -/
theorem Inv.seqRm (h : c.Inv) (hi : i < c.size) {q : SeqId} (hq : q ∈ (c.cell i).seq)
    (hp : (c.cell i).pos ≠ -1) : Replaced c (c.seqRm i q).1 i ((c.cell i).without q) := by
  have hu := h.used_eq hi
  have hm := h.pos_mem_seqPos hi hq
  have hdec : ∀ r, update c.seqPos q ((c.seqPos q).erase (c.cell i).pos) r +
      (c.cell i).contrib r =
      c.seqPos r + Cell.contrib { c.cell i with seq := (c.cell i).seq.erase q } r := by
    intro r
    by_cases hr : r = q
    · subst hr
      simp only [update_self, Cell.contrib, hq, if_true, Finset.notMem_erase, if_false, add_zero]
      rw [add_comm, Multiset.singleton_add]
      exact Multiset.cons_erase hm
    · simp only [update_of_ne hr, Cell.contrib, Finset.mem_erase, ne_eq, hr,
        not_false_eq_true, true_and]
  by_cases he : (c.cell i).seq.erase q = ∅
  · simp only [Cells.seqRm, Cell.without, assert_cell, he, if_true]
    refine ⟨rfl, ?_, rfl, ?_⟩
    · simp [put, seqPosDec, usedErase, assert]
    · intro r
      have := hdec r
      simpa [put, seqPosDec, usedErase, assert, Cell.contrib, he] using this
  · simp only [Cells.seqRm, Cell.without, assert_cell, he, if_false]
    refine ⟨rfl, rfl, ?_, ?_⟩
    · simpa [put, seqPosDec, assert, hp] using hu
    · intro r
      have := hdec r
      simpa [put, seqPosDec, assert] using this

variable {q : SeqId}

section

variable (h : c.Inv) (hi : i < c.size) (hq : q ∈ (c.cell i).seq) (hp : (c.cell i).pos ≠ -1)
include h hi hq hp

theorem Inv.seqRm_ok : (c.seqRm i q).1.ok = c.ok := by
  have hm := h.pos_mem_seqPos hi hq
  have hh : c.seqHas i q = true := by simp [seqHas, hq]
  simp only [Cells.seqRm, nonEmptyPre_eq_true hi hp, hh, Bool.and_true, assert_true]
  split <;> simp [put, seqPosDec, usedErase, assert, hm]

/-- `seq_keep` on a member reduces the cell to that sequence. -/
theorem Inv.seqKeep_mem : Replaced c (c.seqKeep i q).1 i { c.cell i with seq := {q} } := by
  have hu := h.used_eq hi
  simp only [Cells.seqKeep, assert_cell, hq, if_true]
  refine ⟨rfl, rfl, ?_, ?_⟩
  · simpa [seqPosInc, put, seqPosRm, hp] using hu
  · intro r
    have hr := (assert_inv (p := decide (i < c.size)) h).seqPosRm_seqPos hi r
    rw [assert_cell, assert_seqPos] at hr
    by_cases he : r = q
    · subst he
      rw [Cell.contrib_of_mem (x := { c.cell i with seq := {r} }) (by simp), add_comm _ {_},
        Multiset.singleton_add, ← hr, ← Multiset.cons_add]
      simp [seqPosInc, put]
    · rw [Cell.contrib_of_notMem (x := { c.cell i with seq := {q} }) (by simpa using he), add_zero,
        ← hr]
      simp [seqPosInc, put, update_of_ne he]

end

/-- `seq_keep` on any other owned cell empties it. -/
theorem Inv.seqKeep_other (h : c.Inv) (hi : i < c.size) (hq : q ∉ (c.cell i).seq)
    (hs : (c.cell i).seq ≠ ∅) : Replaced c (c.seqKeep i q).1 i {} := by
  simp only [Cells.seqKeep, assert_cell, hq, if_false, hs, ne_eq, not_false_eq_true, if_true]
  refine ⟨rfl, rfl, rfl, ?_⟩
  intro r
  have hr := (assert_inv (p := decide (i < c.size)) h).seqPosRm_seqPos hi r
  simpa [put, usedErase] using hr

theorem Full.seqKeep_ok (h : c.Full) (hi : i < c.size) (q : SeqId) :
    (c.seqKeep i q).1.ok = c.ok := by
  have hd : decide (i < c.size) = true := decide_eq_true hi
  simp only [Cells.seqKeep, hd, assert_true]
  split
  · simpa [put, seqPosInc] using h.toInv.seqPosRm_ok hi
  · split
    · simpa [put, usedErase] using h.toInv.seqPosRm_ok hi
    · rename_i hs
      simp [h.owned i hi (by simpa using hs)]

/-- `seq_add` adds one absent sequence. -/
theorem Inv.seqAdd (h : c.Inv) (hi : i < c.size) {q : SeqId} (hq : q ∉ (c.cell i).seq)
    (hp : (c.cell i).pos ≠ -1) :
    Replaced c (c.seqAdd i q) i { c.cell i with seq := insert q (c.cell i).seq } := by
  have hu := h.used_eq hi
  refine ⟨rfl, rfl, ?_, ?_⟩
  · simpa [Cells.seqAdd, seqPosInc, put, hp] using hu
  · intro r
    by_cases he : r = q
    · subst he
      simp only [Cells.seqAdd, seqPosInc, put, assert_cell, assert_seqPos, update_self,
        Cell.contrib, hq, if_false, add_zero, Finset.mem_insert_self, if_true]
      rw [add_comm, Multiset.singleton_add]
    · simp [Cells.seqAdd, seqPosInc, put, Cell.contrib, he]

theorem seqAdd_ok (hi : i < c.size) (hq : q ∉ (c.cell i).seq) (hp : (c.cell i).pos ≠ -1) :
    (c.seqAdd i q).ok = c.ok := by
  have hh : c.seqHas i q = false := by simp [seqHas, hq]
  simp [Cells.seqAdd, nonEmptyPre_eq_true hi hp, hh, seqPosInc, put]

/-- `pos_set` gives a position to an empty cell. -/
theorem Inv.posSet (h : c.Inv) (hi : i < c.size) (hp : (c.cell i).pos = -1) {p : Int}
    (hp' : p ≠ -1) : Replaced c (c.posSet i p) i { c.cell i with pos := p } := by
  have hs := h.seq i hi hp
  refine ⟨rfl, rfl, ?_, ?_⟩
  · simp [Cells.posSet, usedInsert, put, hp']
  · intro r
    simp [Cells.posSet, usedInsert, put, Cell.contrib, hs]

theorem Inv.posSet_ok (h : c.Inv) (hi : i < c.size) (hp : (c.cell i).pos = -1) (p : Int) :
    (c.posSet i p).ok = c.ok := by
  simp [Cells.posSet, usedInsert, put, hi, hp, h.seq i hi hp]

/-- `ext_set` only touches the spatial position. -/
theorem Inv.extSet (h : c.Inv) (hi : i < c.size) (e : CellExt) :
    Replaced c (c.extSet i e) i { c.cell i with ext := e } :=
  ⟨rfl, rfl, h.used_eq hi, fun _ => rfl⟩

theorem extSet_ok (hi : i < c.size) (e : CellExt) : (c.extSet i e).ok = c.ok := by
  simp [Cells.extSet, put, hi]

/-- `pos_add` moves a cell, emptying it below zero. -/
theorem Inv.posAdd (h : c.Inv) (hi : i < c.size) (hp : (c.cell i).pos ≠ -1) (d : Int) :
    Replaced c (c.posAdd i d).1 i ((c.cell i).moved d) := by
  have hr := h.seqPosRm_seqPos hi
  have hu := h.used_eq hi
  simp only [Cells.posAdd, Cell.moved, nonEmptyPre_eq_true hi hp, assert_true]
  have hcell : (c.seqPosRm i).cell i = c.cell i := rfl
  rw [hcell]
  split
  · refine ⟨rfl, rfl, rfl, ?_⟩
    intro r
    have := hr r
    simpa [put, usedErase, Cell.contrib] using this
  · rename_i hd
    refine ⟨rfl, rfl, ?_, ?_⟩
    · have hne : ¬ (c.cell i).pos + d = -1 := by omega
      simp only [hp, if_false] at hu
      simpa [put, seqPosAdd, seqPosRm, hne] using hu
    · intro r
      rw [seqPosAdd_seqPos]
      have := hr r
      simp only [put, update_self]
      rw [← this]
      abel

theorem Inv.posAdd_ok (h : c.Inv) (hi : i < c.size) (hp : (c.cell i).pos ≠ -1) (d : Int) :
    (c.posAdd i d).1.ok = c.ok := by
  simp only [Cells.posAdd, nonEmptyPre_eq_true hi hp, assert_true]
  split
  · simpa [put, usedErase] using h.seqPosRm_ok hi
  · simpa [put, seqPosAdd] using h.seqPosRm_ok hi

/-- `pos_div` divides the position of a cell. -/
theorem Inv.posDiv (h : c.Inv) (hi : i < c.size) (hp : 0 ≤ (c.cell i).pos) {d : Int}
    (hd : 1 ≤ d) : Replaced c (c.posDiv i d) i ((c.cell i).scaled d) := by
  have hne : (c.cell i).pos ≠ -1 := by omega
  have hr := h.seqPosRm_seqPos hi
  have hu := h.used_eq hi
  have hnn : 0 ≤ (c.cell i).pos.tdiv d := Int.tdiv_nonneg hp (by omega)
  simp only [Cells.posDiv, Cell.scaled, nonEmptyPre_eq_true hi hne, assert_true]
  have hcell : (c.seqPosRm i).cell i = c.cell i := rfl
  rw [hcell]
  refine ⟨rfl, rfl, ?_, ?_⟩
  · have hd1 : ¬ (c.cell i).pos.tdiv d = -1 := by omega
    simp only [hne, if_false] at hu
    simpa [put, seqPosAdd, seqPosRm, hd1] using hu
  · intro r
    have := seqPosAdd_seqPos ((c.seqPosRm i).put i ((c.cell i).scaled d)) i r
    simp only [Cell.scaled] at this
    simp only [this]
    have := hr r
    simp only [put, update_self]
    rw [← this]
    abel

theorem Inv.posDiv_ok (h : c.Inv) (hi : i < c.size) (hp : (c.cell i).pos ≠ -1) (d : Int) :
    (c.posDiv i d).ok = c.ok := by
  simpa [Cells.posDiv, nonEmptyPre_eq_true hi hp, assert_true, put, seqPosAdd] using
    h.seqPosRm_ok hi

/-- One iteration of `set` writes a saved record back; the shift stays. -/
theorem Inv.setOne (h : c.Inv) (hi : i < c.size) {y : Cell} (hy : y.pos = -1 → y.seq = ∅) :
    Replaced c (c.setOne i y) i { y with shift := (c.cell i).shift } := by
  have hr := h.seqPosRm_seqPos hi
  have hu := h.used_eq hi
  have hs := h.seq i hi
  by_cases hx : (c.cell i).pos = -1 <;> by_cases hyp : y.pos = -1
  · refine ⟨by simp [Cells.setOne, hx, hyp, put], by simp [Cells.setOne, hx, hyp, put],
      by simpa [Cells.setOne, hx, hyp, put] using hu, ?_⟩
    intro r
    simp [Cells.setOne, hx, hyp, put, Cell.contrib, hs hx, hy hyp]
  · refine ⟨by simp [Cells.setOne, hx, hyp, put, usedInsert, seqPosAdd],
      by simp [Cells.setOne, hx, hyp, put, usedInsert, seqPosAdd],
      by simp [Cells.setOne, hx, hyp, put, usedInsert, seqPosAdd], ?_⟩
    intro r
    simp only [Cells.setOne, hx, hyp, ne_eq, not_false_eq_true, not_true_eq_false, and_self,
      if_true, if_false, assert_seqPos, seqPosAdd_seqPos]
    simp [put, usedInsert, Cell.contrib, hs hx]
  · refine ⟨by simp [Cells.setOne, hx, hyp, put, usedErase, seqPosRm],
      by simp [Cells.setOne, hx, hyp, put, usedErase, seqPosRm],
      by simp [Cells.setOne, hx, hyp, put, usedErase, seqPosRm], ?_⟩
    intro r
    have := hr r
    simpa [Cells.setOne, hx, hyp, put, usedErase, seqPosRm, Cell.contrib, hy hyp] using this
  · refine ⟨by simp [Cells.setOne, hx, hyp, put, seqPosRm, seqPosAdd],
      by simp [Cells.setOne, hx, hyp, put, seqPosRm, seqPosAdd], ?_, ?_⟩
    · simp only [hx, if_false] at hu
      simpa [Cells.setOne, hx, hyp, put, seqPosRm, seqPosAdd] using hu
    · intro r
      have := hr r
      simp only [Cells.setOne, hx, hyp, ne_eq, not_false_eq_true, and_true, and_false,
        if_true, if_false, assert_seqPos, seqPosAdd_seqPos]
      rw [← this]
      simp only [put, update_self, Cell.contrib]
      abel

/-- `seq_pos_min` is the least position of the sequence, `-1` when it has none. -/
theorem Inv.seqPosMin_spec (h : c.Inv) (q : SeqId) :
    (∃ i < c.size, q ∈ (c.cell i).seq ∧ (c.cell i).pos = c.seqPosMin q ∧
      ∀ j < c.size, q ∈ (c.cell j).seq → c.seqPosMin q ≤ (c.cell j).pos) ∨
    ((∀ j < c.size, q ∉ (c.cell j).seq) ∧ c.seqPosMin q = -1) := by
  have hmem := fun p => (Multiset.mem_sort (· ≤ ·)).trans (h.mem_seqPos_iff q p)
  have hsorted := (c.seqPos q).pairwise_sort (· ≤ ·)
  cases hs : (c.seqPos q).sort (· ≤ ·) with
  | nil =>
    rw [hs] at hmem
    exact .inr ⟨fun j hj hq => not_mem_nil ((hmem _).mpr ⟨j, hj, hq, rfl⟩),
      by simp [seqPosMin, hs]⟩
  | cons a l =>
    rw [hs] at hmem hsorted
    obtain ⟨i, hi, hq, hp⟩ := (hmem a).mp mem_cons_self
    rw [show c.seqPosMin q = a by simp [seqPosMin, hs]]
    refine .inl ⟨i, hi, hq, hp, fun j hj hjq => ?_⟩
    rcases mem_cons.mp ((hmem _).mpr ⟨j, hj, hjq, rfl⟩) with he | he
    · exact he.ge
    · exact (pairwise_cons.mp hsorted).1 _ he

/-- `seq_pos_max` is the greatest position of the sequence, `-1` when it has none. -/
theorem Inv.seqPosMax_spec (h : c.Inv) (q : SeqId) :
    (∃ i < c.size, q ∈ (c.cell i).seq ∧ (c.cell i).pos = c.seqPosMax q ∧
      ∀ j < c.size, q ∈ (c.cell j).seq → (c.cell j).pos ≤ c.seqPosMax q) ∨
    ((∀ j < c.size, q ∉ (c.cell j).seq) ∧ c.seqPosMax q = -1) := by
  have hmem := fun p => (Multiset.mem_sort (· ≤ ·)).trans (h.mem_seqPos_iff q p)
  have hsorted := (c.seqPos q).pairwise_sort (· ≤ ·)
  rcases eq_nil_or_concat' ((c.seqPos q).sort (· ≤ ·)) with hs | ⟨l, a, hs⟩ <;> rw [hs] at hmem
  · exact .inr ⟨fun j hj hq => not_mem_nil ((hmem _).mpr ⟨j, hj, hq, rfl⟩),
      by simp [seqPosMax, hs]⟩
  · rw [hs] at hsorted
    obtain ⟨i, hi, hq, hp⟩ := (hmem a).mp (mem_append_right l mem_cons_self)
    rw [show c.seqPosMax q = a by simp [seqPosMax, hs]]
    refine .inl ⟨i, hi, hq, hp, fun j hj hjq => ?_⟩
    rcases mem_append.mp ((hmem _).mpr ⟨j, hj, hjq, rfl⟩) with he | he
    · exact (pairwise_append.mp hsorted).2.2 _ he a mem_cons_self
    · exact (mem_singleton.mp he).le

end Cells

end Llama.Kv
