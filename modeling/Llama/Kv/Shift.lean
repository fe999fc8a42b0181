import Llama.Kv.CellsOps
import Llama.Lib.Run

/-!
# The pending shift of a cell

`shift` queues the changes of `pos` that a later rotation of the cached keys has to make up for.
A run of the mutators of `llama_kv_cells` is followed together with the position that each cell
had when its shift was last known to be zero: when the cell was set or at the last `reset_shift`.
Additions and that position account for the shift exactly, but `pos_div` does not.
-/

namespace Llama.Kv

open List Function

namespace Cells

def resetShift (c : Cells) : Cells :=
  { c with hasShift := false, cell := fun i => { c.cell i with shift := 0 } }

end Cells

/-- The mutators of `llama_kv_cells`. -/
inductive CellsOp where
  | reset
  | resetShift
  | resize (n : Nat)
  | rm (i : Nat)
  | seqRm (i : Nat) (q : SeqId)
  | seqKeep (i : Nat) (q : SeqId)
  | seqAdd (i : Nat) (q : SeqId)
  | posSet (i : Nat) (p : Int)
  | extSet (i : Nat) (e : CellExt)
  | posAdd (i : Nat) (d : Int)
  | posDiv (i : Nat) (d : Int)
  | set (idxs : List Nat) (other : List Cell)

namespace CellsOp

/-- The effect of a mutator. -/
def apply : CellsOp → Cells → Cells
  | reset, c => c.reset
  | resetShift, c => c.resetShift
  | resize n, c => { Cells.resize n with ok := c.ok }
  | rm i, c => c.rm i
  | seqRm i q, c => (c.seqRm i q).1
  | seqKeep i q, c => (c.seqKeep i q).1
  | seqAdd i q, c => c.seqAdd i q
  | posSet i p, c => c.posSet i p
  | extSet i e, c => c.extSet i e
  | posAdd i d, c => (c.posAdd i d).1
  | posDiv i d, c => c.posDiv i d
  | set idxs other, c => (c.assert (idxs.length == other.length)).set idxs other

/-- The mutator writes the position of the cell outright, or calls its shift zero. -/
def anchors : CellsOp → Nat → Bool
  | reset, _ | resetShift, _ | resize _, _ => true
  | posSet i _, j => i == j
  | set idxs _, j => idxs.contains j
  | _, _ => false

/-- A division by zero has no behaviour. -/
def defined : CellsOp → Bool
  | posDiv _ d => d != 0
  | _ => true

end CellsOp

/-- Cells together with the position that each of them was last anchored at. -/
structure Traced where
  cells : Cells
  /-- Ghost: position when the cell was set, or at the last `reset_shift` after that. -/
  base : Nat → Int

namespace Traced

/-- `n` empty cells. -/
def start (n : Nat) : Traced := ⟨Cells.resize n, fun _ => -1⟩

/-- One call of a mutator whose assertions hold. -/
def step (t : Traced) (op : CellsOp) : Option Traced :=
  let c := op.apply t.cells
  if op.defined && c.ok then
    some ⟨c, fun i => if op.anchors i then (c.cell i).pos else t.base i⟩
  else none

/-- The shift of every non-empty cell is the way it has come from its anchor. -/
def Exact (t : Traced) : Prop :=
  ∀ i < t.cells.size, t.cells.isEmpty i = false →
    (t.cells.cell i).shift = (t.cells.cell i).pos - t.base i

/-- The condition on a step: a division leaves the position as it is. -/
def Unscaled (t : Traced) : CellsOp → Prop
  | .posDiv i d => (t.cells.cell i).pos.tdiv d = (t.cells.cell i).pos
  | _ => True

end Traced

/-- The shift of a record anchored at `b`: exact if the cell is in use, zero if it is free. -/
structure Cell.Settled (x : Cell) (b : Int) : Prop where
  /-- A cell with a position has come from its anchor by its shift. -/
  live : x.pos ≠ -1 → x.shift = x.pos - b
  idle : x.pos = -1 → x.seq = ∅ → x.shift = 0

namespace Cell.Settled

variable {x : Cell} {b : Int}

theorem of_shift_zero (h : x.shift = 0) : x.Settled x.pos := ⟨fun _ => by omega, fun _ _ => h⟩

theorem cleared (b : Int) : Cell.Settled {} b := ⟨fun h => absurd rfl h, fun _ _ => rfl⟩

/-- Sequences and spatial positions of a cell in use do not matter. -/
theorem retag (h : x.Settled b) (hp : x.pos ≠ -1) (e : CellExt) (s : Finset SeqId) :
    Cell.Settled { x with ext := e, seq := s } b :=
  ⟨h.live, fun hq => absurd hq hp⟩

theorem without (h : x.Settled b) (hp : x.pos ≠ -1) (q : SeqId) : (x.without q).Settled b := by
  unfold Cell.without
  split
  · exact cleared b
  · exact h.retag hp x.ext (x.seq.erase q)

theorem moved (h : x.Settled b) (hp : x.pos ≠ -1) (d : Int) : (x.moved d).Settled b := by
  unfold Cell.moved
  split
  · exact ⟨fun hq => absurd rfl hq, fun _ _ => rfl⟩
  · rename_i hd
    refine ⟨fun _ => ?_, fun hq => ?_⟩
    · have hl := h.live hp
      simp only
      omega
    · simp only at hq
      omega

/-- The sign of `pos_div`: a divided cell is exact only where the division did nothing. -/
theorem scaled_iff (h : x.Settled b) (hp : x.pos ≠ -1) (d : Int) :
    (x.scaled d).shift = (x.scaled d).pos - b ↔ x.pos.tdiv d = x.pos := by
  have hl := h.live hp
  simp only [Cell.scaled]
  omega

theorem scaled (h : x.Settled b) (hp : x.pos ≠ -1) {d : Int} (hd : x.pos.tdiv d = x.pos) :
    (x.scaled d).Settled b :=
  ⟨fun _ => (h.scaled_iff hp d).mpr hd, fun hq => absurd (hd ▸ hq) hp⟩

end Cell.Settled

namespace Cells

variable {c : Cells} {i : Nat}

theorem nonEmptyPre_pos (h : c.nonEmptyPre i = true) : (c.cell i).pos ≠ -1 := by
  simp only [nonEmptyPre, Bool.and_eq_true, bne_iff_ne] at h
  exact h.2

/-- Every record is settled at its anchor. -/
def Settled (c : Cells) (base : Nat → Int) : Prop := ∀ i, (c.cell i).Settled (base i)

/-- Overwriting one record by a settled one. -/
theorem Settled.put {base : Nat → Int} (h : c.Settled base) {x : Cell}
    (hx : x.Settled (base i)) : (c.put i x).Settled base := by
  intro j
  by_cases he : j = i
  · subst he
    simpa [Cells.put] using hx
  · simpa [Cells.put, update_of_ne he] using h j

theorem seqRm_cell (c : Cells) (i : Nat) (q : SeqId) :
    (c.seqRm i q).1.cell = (c.put i ((c.cell i).without q)).cell := by
  by_cases he : (c.cell i).seq.erase q = ∅ <;>
    simp [Cells.seqRm, Cell.without, he, Cells.put, usedErase, seqPosDec]

theorem seqRm_pre {q : SeqId} (h : (c.seqRm i q).1.ok = true) : c.nonEmptyPre i = true := by
  by_cases he : (c.cell i).seq.erase q = ∅
  · simp only [Cells.seqRm, assert_cell, he, if_true, Cells.put, usedErase, seqPosDec, assert_ok,
      Bool.and_eq_true] at h
    exact h.1.2.1
  · simp only [Cells.seqRm, assert_cell, he, if_false, Cells.put, seqPosDec, assert_ok,
      Bool.and_eq_true] at h
    exact h.1.2.1

theorem posAdd_cell (c : Cells) (i : Nat) (d : Int) :
    (c.posAdd i d).1.cell = (c.put i ((c.cell i).moved d)).cell := by
  have hcell : ((c.assert (c.nonEmptyPre i)).seqPosRm i).cell = c.cell := rfl
  by_cases hd : (c.cell i).pos + d < 0 <;>
    simp [Cells.posAdd, Cell.moved, hcell, hd, Cells.put, usedErase, seqPosAdd]

variable {d : Int} {base : Nat → Int}

theorem posAdd_pre (h : (c.posAdd i d).1.ok = true) : c.nonEmptyPre i = true := by
  have hok : (c.posAdd i d).1.ok = ((c.assert (c.nonEmptyPre i)).seqPosRm i).ok := by
    simp only [Cells.posAdd]
    split <;> rfl
  rw [hok] at h
  simp only [seqPosRm, assert_ok, Bool.and_eq_true] at h
  exact h.1.2

theorem posDiv_pre (h : (c.posDiv i d).ok = true) : c.nonEmptyPre i = true := by
  simp only [Cells.posDiv, Cells.put, seqPosAdd, seqPosRm, assert_ok, Bool.and_eq_true] at h
  exact h.1.2

/-- `seq_keep` leaves the position of a member and clears any other owned cell. -/
theorem seqKeep_settled (h : c.Settled base) (q : SeqId) : (c.seqKeep i q).1.Settled base := by
  have hx := h i
  by_cases hq : q ∈ (c.cell i).seq
  · have hk : (c.seqKeep i q).1.cell = (c.put i { c.cell i with seq := {q} }).cell := by
      simp [Cells.seqKeep, hq, Cells.put, seqPosInc, seqPosRm]
    have hput : (c.put i { c.cell i with seq := {q} }).Settled base :=
      h.put ⟨hx.live, fun _ hs => absurd hs (Finset.singleton_ne_empty q)⟩
    intro j
    rw [hk]
    exact hput j
  · by_cases hs : (c.cell i).seq = ∅
    · simpa [Cells.seqKeep, hs, Settled] using h
    · have hk : (c.seqKeep i q).1.cell = (c.put i {}).cell := by
        simp [Cells.seqKeep, hq, hs, Cells.put, usedErase, seqPosRm]
      intro j
      rw [hk]
      exact h.put (Cell.Settled.cleared _) j

/-- One write of `set`: a saved record whose shift is asserted to be zero is its own anchor. -/
theorem setOne_cell (c : Cells) (i : Nat) (y : Cell) :
    (c.setOne i y).cell = (c.put i { y with shift := (c.cell i).shift }).cell := by
  by_cases hx : (c.cell i).pos = -1 <;> by_cases hy : y.pos = -1 <;>
    simp [Cells.setOne, hx, hy, Cells.put, usedInsert, usedErase, seqPosRm, seqPosAdd]

theorem setOne_ok {y : Cell} (h : (c.setOne i y).ok = true) :
    c.ok = true ∧ (c.cell i).shift = 0 := by
  by_cases hx : (c.cell i).pos = -1 <;> by_cases hy : y.pos = -1 <;>
    simp [Cells.setOne, hx, hy, Cells.put, usedInsert, usedErase, seqPosRm, seqPosAdd] at h
  all_goals tauto

/-- A whole `set` whose assertions hold: written cells have nothing pending, the others stay. -/
theorem foldl_setOne {es : List (Nat × Cell)}
    (h : (es.foldl (fun c e => c.setOne e.1 e.2) c).ok = true) :
    c.ok = true ∧ ∀ j, if j ∈ es.map Prod.fst
      then ((es.foldl (fun c e => c.setOne e.1 e.2) c).cell j).shift = 0
      else (es.foldl (fun c e => c.setOne e.1 e.2) c).cell j = c.cell j := by
  induction es generalizing c with
  | nil => exact ⟨h, fun j => by simp⟩
  | cons e es ih =>
    obtain ⟨hok, hcell⟩ := ih h
    obtain ⟨hc, hshift⟩ := setOne_ok hok
    refine ⟨hc, fun j => ?_⟩
    have hj := hcell j
    simp only [map_cons, mem_cons, foldl_cons]
    by_cases hm : j ∈ es.map Prod.fst
    · rw [if_pos hm] at hj
      rw [if_pos (.inr hm)]
      exact hj
    · rw [if_neg hm, setOne_cell] at hj
      by_cases he : j = e.1
      · rw [if_pos (.inl he), hj, he]
        simpa [Cells.put] using hshift
      · rw [if_neg (by tauto), hj]
        simp [Cells.put, update_of_ne he]

theorem set_settled {idxs : List Nat} {other : List Cell} (h : c.Settled base)
    (hl : idxs.length = other.length) (hok : (c.set idxs other).ok = true) :
    (c.set idxs other).Settled
      fun i => if idxs.contains i then ((c.set idxs other).cell i).pos else base i := by
  have hfst : (idxs.zip other).map Prod.fst = idxs := map_fst_zip (by omega)
  intro j
  have hj := (foldl_setOne hok).2 j
  rw [hfst] at hj
  by_cases hm : j ∈ idxs
  · rw [if_pos hm] at hj
    simp only [contains_iff_mem.mpr hm, if_true]
    exact Cell.Settled.of_shift_zero hj
  · rw [if_neg hm] at hj
    simp only [contains_iff_mem, hm, if_false]
    rw [Cells.set, hj]
    exact h j

end Cells

namespace Traced

variable {t t' : Traced} {op : CellsOp}

/-- What a step does, with the guards it passed. -/
theorem step_eq_some (h : t.step op = some t') :
    op.defined = true ∧ (op.apply t.cells).ok = true ∧
      t' = ⟨op.apply t.cells,
        fun i => if op.anchors i then ((op.apply t.cells).cell i).pos else t.base i⟩ := by
  simp only [step] at h
  split at h
  · rename_i hg
    rw [Bool.and_eq_true] at hg
    exact ⟨hg.1, hg.2, (Option.some.inj h).symm⟩
  · cases h

/-- Every mutator under the condition keeps the records settled. -/
theorem step_settled (hs : t.cells.Settled t.base) (hu : t.Unscaled op)
    (h : t.step op = some t') : t'.cells.Settled t'.base := by
  obtain ⟨-, hok, rfl⟩ := step_eq_some h
  cases op with
  | reset => exact fun i => Cell.Settled.cleared _
  | resize n => exact fun i => Cell.Settled.cleared _
  | resetShift => exact fun i => Cell.Settled.of_shift_zero rfl
  | rm i => exact hs.put (Cell.Settled.cleared _)
  | seqRm i q =>
    have hp := Cells.nonEmptyPre_pos (Cells.seqRm_pre hok)
    intro j
    simp only [CellsOp.apply, Cells.seqRm_cell]
    exact hs.put ((hs i).without hp q) j
  | seqKeep i q => exact Cells.seqKeep_settled hs q
  | seqAdd i q =>
    have hp : (t.cells.cell i).pos ≠ -1 := by
      simp only [CellsOp.apply, Cells.seqAdd, Cells.seqPosInc, Cells.put, Cells.assert_ok,
        Bool.and_eq_true] at hok
      exact Cells.nonEmptyPre_pos hok.2.1
    exact hs.put ((hs i).retag hp _ _)
  | posSet i p =>
    have hpre : (t.cells.cell i).pos = -1 ∧ (t.cells.cell i).seq = ∅ := by
      simp only [CellsOp.apply, Cells.posSet, Cells.usedInsert, Cells.put, Cells.assert_ok,
        Bool.and_eq_true, beq_iff_eq, decide_eq_true_eq] at hok
      exact ⟨hok.2.1.2, hok.2.2⟩
    have hz := (hs i).idle hpre.1 hpre.2
    intro j
    by_cases he : j = i
    · subst he
      simpa [CellsOp.apply, CellsOp.anchors, Cells.posSet, Cells.usedInsert, Cells.put] using
        Cell.Settled.of_shift_zero (x := { t.cells.cell j with pos := p }) hz
    · have hne : ¬ i = j := fun h => he h.symm
      simpa [CellsOp.apply, CellsOp.anchors, Cells.posSet, Cells.usedInsert, Cells.put, he, hne]
        using hs j
  | extSet i e => exact hs.put ⟨(hs i).live, (hs i).idle⟩
  | posAdd i d =>
    have hp := Cells.nonEmptyPre_pos (Cells.posAdd_pre hok)
    intro j
    simp only [CellsOp.apply, Cells.posAdd_cell]
    exact hs.put ((hs i).moved hp d) j
  | posDiv i d =>
    have hp := Cells.nonEmptyPre_pos (Cells.posDiv_pre hok)
    exact hs.put ((hs i).scaled hp hu)
  | set idxs other =>
    have hl : idxs.length = other.length := by
      have hlen := (Cells.foldl_setOne hok).1
      simp only [Cells.assert_ok, Bool.and_eq_true, beq_iff_eq] at hlen
      exact hlen.2
    exact Cells.set_settled (c := t.cells.assert _) hs hl hok

theorem exact_of_settled (h : t.cells.Settled t.base) : t.Exact := by
  intro i _ he
  have hp : (t.cells.cell i).pos ≠ -1 := by simpa [Cells.isEmpty] using he
  exact (h i).live hp

theorem start_settled (n : Nat) : (start n).cells.Settled (start n).base :=
  fun _ => Cell.Settled.cleared _

/-- The first division that moves a cell, and leaves it in use, spoils its shift. -/
theorem exact_posDiv_iff (hs : t.cells.Settled t.base) {i : Nat} {d : Int}
    (h : t.step (.posDiv i d) = some t') (hd : (t.cells.cell i).pos.tdiv d ≠ -1) :
    t'.Exact ↔ t.Unscaled (.posDiv i d) := by
  constructor
  · intro he
    obtain ⟨-, hok, rfl⟩ := step_eq_some h
    have hpre := Cells.posDiv_pre hok
    have hi : i < t.cells.size := by
      simp only [Cells.nonEmptyPre, Bool.and_eq_true, decide_eq_true_eq] at hpre
      exact hpre.1
    have hcell : (t.cells.posDiv i d).cell i = (t.cells.cell i).scaled d := update_self i _ _
    have hused : (t.cells.posDiv i d).isEmpty i = false := by
      simpa [Cells.isEmpty, hcell, Cell.scaled] using hd
    have hshift := he i hi hused
    simp only [CellsOp.apply, CellsOp.anchors, hcell, Bool.false_eq_true, if_false] at hshift
    exact ((hs i).scaled_iff (Cells.nonEmptyPre_pos hpre) d).mp hshift
  · intro hu
    exact exact_of_settled (step_settled hs hu h)

/-- As long as no division changes a position, every shift is the way that its cell has come
since it was set or since the last `reset_shift`. The first division that does change one, and
leaves the cell in use, spoils its shift. -/
theorem exec_shift_exact {n : Nat} {ops : List CellsOp} (hu : Run.Meets step Unscaled (start n) ops)
    (h : Run.exec step (start n) ops = some t) :
    t.Exact ∧ ∀ i d t', t.step (.posDiv i d) = some t' → (t.cells.cell i).pos.tdiv d ≠ -1 →
      (t'.Exact ↔ t.Unscaled (.posDiv i d)) := by
  have hs : t.cells.Settled t.base :=
    Run.exec_invariant (I := fun t => t.cells.Settled t.base)
      (fun _ _ _ hi hp hstep => step_settled hi hp hstep) (start_settled n) hu h
  exact ⟨exact_of_settled hs, fun _ _ _ hstep hd => exact_posDiv_iff hs hstep hd⟩

set_option maxRecDepth 4000 in
/-- A cell set at 5, moved to 8 and divided by 1. -/
theorem exec_shift_exact_moved :
    ∃ t, Run.exec step (start 1) [.posSet 0 5, .seqAdd 0 0, .posAdd 0 3, .posDiv 0 1] = some t ∧
      (t.cells.cell 0).shift = 3 ∧ t.Exact := by
  have hu : Run.Meets step Unscaled (start 1)
      [.posSet 0 5, .seqAdd 0 0, .posAdd 0 3, .posDiv 0 1] :=
    ⟨trivial, trivial, trivial, rfl, trivial⟩
  exact ⟨_, rfl, rfl, (exec_shift_exact hu rfl).1⟩

set_option maxRecDepth 4000 in
/-- A cell set at 5 and halved is at 2 with the shift 3 instead of -3. -/
theorem halved_shift_is_positive :
    ∃ t, Run.exec step (start 1) [.posSet 0 5, .seqAdd 0 0, .posDiv 0 2] = some t ∧
      (t.cells.cell 0).pos = 2 ∧ t.base 0 = 5 ∧ (t.cells.cell 0).shift = 3 ∧ ¬ t.Exact := by
  refine ⟨_, rfl, rfl, rfl, rfl, ?_⟩
  intro he
  have hshift := he 0 (by decide) rfl
  exact absurd hshift (by decide)

end Traced

end Llama.Kv
