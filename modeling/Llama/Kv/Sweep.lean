import Llama.Kv.CellsOps
import Llama.Kv.Cache
import Llama.Lib.Loop

/-!
# What the loops over the cells of a stream do

`Cells.Good` is the state of a stream between two operations: the invariant, the
size, every assertion met, and only sequences that belong to the stream. Each loop
body keeps it and rewrites one record, so each loop maps a function over the records.
-/

namespace Llama.Kv

open Finset

/-- A record that may stand in a stream whose sequences satisfy `T`. -/
structure Cell.Wf (T : SeqId → Prop) (x : Cell) : Prop where
  pos : x.pos = -1 ∨ 0 ≤ x.pos
  owned : x.pos = -1 ↔ x.seq = ∅
  home : ∀ q ∈ x.seq, T q

/-- A stream of `n` cells between two operations. -/
structure Cells.Good (n : Nat) (T : SeqId → Prop) (x : Cells) : Prop extends Cells.Full x where
  /-- The number of cells. -/
  size : x.size = n
  /-- Every assertion held. -/
  ok : x.ok = true
  /-- Only sequences of this stream. -/
  home : ∀ i < n, ∀ q ∈ (x.cell i).seq, T q

variable {n : Nat} {T : SeqId → Prop} {x : Cells} {i : Nat}

/-- The empty record may stand anywhere. -/
theorem Cell.wf_empty : Cell.Wf T {} := ⟨.inl rfl, by simp, by simp⟩

namespace Cells

section

variable (h : x.Good n T)
include h

theorem Good.lt_size (hi : i < n) : i < x.size := by rwa [h.size]

theorem Good.wf (hi : i < n) : (x.cell i).Wf T :=
  ⟨h.pos i (h.lt_size hi), ⟨h.seq i (h.lt_size hi), h.owned i (h.lt_size hi)⟩, h.home i hi⟩

/-- A cell with a sequence has a valid position. -/
theorem Good.pos_of_mem (hi : i < n) {q : SeqId} (hq : q ∈ (x.cell i).seq) :
    0 ≤ (x.cell i).pos := by
  rcases (h.wf hi).pos with hp | hp
  · rw [(h.wf hi).owned.mp hp] at hq
    simp at hq
  · exact hp

/-- Replacing a record by a well-formed one keeps a stream good. -/
theorem Good.replace {x' : Cells} {y : Cell} (hr : Replaced x x' i y) (hok : x'.ok = x.ok)
    (hi : i < n) (hy : y.Wf T) : x'.Good n T where
  toFull := hr.full h.toFull (h.lt_size hi) hy.pos hy.owned
  size := hr.size.trans h.size
  ok := hok.trans h.ok
  home j hj q hq := by
    by_cases he : j = i
    · subst he
      rw [hr.cell_self] at hq
      exact hy.home q hq
    · rw [hr.cell_of_ne he] at hq
      exact h.home j hj q hq

/-- The index assertion of a loop body holds. -/
theorem Good.assert_lt (hi : i < n) : x.assert (decide (i < x.size)) = x := by
  rw [decide_eq_true (h.lt_size hi), assert_true]

/-- A step that rewrites a record only in a case that concerns it. -/
theorem Good.ite {y : Cells} {p : Prop} [Decidable p] {r : Cell}
    (hy : p → y.Good n T ∧ y.cell = Function.update x.cell i r) : (if p then y else x).Good n T ∧
      (if p then y else x).cell = Function.update x.cell i (if p then r else x.cell i) := by
  split
  next hp => exact hy hp
  next => exact ⟨h, (Function.update_eq_self i x.cell).symm⟩

/-- A loop whose body rewrites one record, by `g`, maps `g` over the records. -/
theorem Good.loop {g : Cell → Cell} {step : Cells → Nat → Cells} (hstep : ∀ y, ∀ i < n, y.Good n T →
      (step y i).Good n T ∧ (step y i).cell = Function.update y.cell i (g (y.cell i))) :
    ((List.range n).foldl step x).Good n T ∧
      ∀ j, ((List.range n).foldl step x).cell j = if j < n then g (x.cell j) else x.cell j :=
  Loop.foldl_range_table (I := Cells.Good n T) (t := Cells.cell) (p := fun _ _ => True)
    (g := fun _ => g) h (fun _ _ => trivial) fun y i hi hy _ => hstep y i hi hy

end

theorem reset_good (hx : x.size = n) (hok : x.ok = true) : x.reset.Good n T where
  toFull := reset_full x
  size := by simpa [reset, resize] using hx
  ok := by simpa [reset] using hok
  home i _ q hq := by simp [reset, resize] at hq

end Cells

/-- Effect of the `seq_rm` loop on one record. -/
def Cell.seqRmRange (q : SeqId) (p0 p1 : Int) (x : Cell) : Cell :=
  if (p0 ≤ x.pos ∧ x.pos < p1) ∧ q ∈ x.seq then x.without q else x

/-- Effect of the `seq_rm(-1)` loop on one record. -/
def Cell.rmRange (p0 p1 : Int) (x : Cell) : Cell := if p0 ≤ x.pos ∧ x.pos < p1 then {} else x

/-- Effect of the `seq_cp` loop on one record. -/
def Cell.seqCpRange (src dst : SeqId) (p0 p1 : Int) (x : Cell) : Cell :=
  if (p0 ≤ x.pos ∧ x.pos < p1) ∧ src ∈ x.seq then { x with seq := insert dst x.seq } else x

/-- Effect of the `seq_keep` loop on one record. -/
def Cell.kept (q : SeqId) (x : Cell) : Cell :=
  if q ∈ x.seq then { x with seq := {q} } else if x.seq ≠ ∅ then {} else x

/-- Effect of the `seq_add` loop on one record. -/
def Cell.seqAddRange (q : SeqId) (p0 p1 d : Int) (x : Cell) : Cell :=
  if (p0 ≤ x.pos ∧ x.pos < p1) ∧ q ∈ x.seq then x.moved d else x

/-- Effect of the `seq_div` loop on one record. -/
def Cell.seqDivRange (q : SeqId) (p0 p1 d : Int) (x : Cell) : Cell :=
  if (p0 ≤ x.pos ∧ x.pos < p1) ∧ q ∈ x.seq then x.scaled d else x

theorem Cell.Wf.without {x : Cell} (h : x.Wf T) (q : SeqId) : (x.without q).Wf T := by
  unfold Cell.without
  by_cases he : x.seq.erase q = ∅
  · rw [if_pos he]
    exact Cell.wf_empty
  · rw [if_neg he]
    refine ⟨h.pos, ⟨fun hp => ?_, fun hs => absurd hs he⟩, fun r hr => ?_⟩
    · rw [h.owned.mp hp]
      simp
    · exact h.home r (mem_of_mem_erase hr)

namespace Cache

theorem lower_nonneg (p0 : Int) : 0 ≤ lower p0 := by
  unfold lower
  split <;> omega

/-- First component of the `seq_rm` body. -/
def seqRmStep (q : SeqId) (p0 p1 : Int) (x : Cells) (i : Nat) : Cells :=
  (seqRmBody q p0 p1 (x, 0) i).1

variable {q dst src : SeqId} {p0 p1 d : Int}

/-- The two tests of a loop body that looks at the cells of a sequence. -/
theorem tests_eq (x y z : Cells) : (if !x.posIn i p0 p1 then z else if x.seqHas i q then y else z) =
    if (p0 ≤ (x.cell i).pos ∧ (x.cell i).pos < p1) ∧ q ∈ (x.cell i).seq then y else z := by
  by_cases hr : p0 ≤ (x.cell i).pos ∧ (x.cell i).pos < p1
  · simp [Cells.posIn, Cells.seqHas, hr]
  · have hout : x.posIn i p0 p1 = false := by simpa [Cells.posIn] using hr
    simp [hout, hr]

theorem seqRmBody_eq (st : Cells × Nat) : (seqRmBody q p0 p1 st i).1 =
    if (p0 ≤ (st.1.cell i).pos ∧ (st.1.cell i).pos < p1) ∧ q ∈ (st.1.cell i).seq then
      ((st.1.assert (decide (i < st.1.size))).seqRm i q).1
    else st.1.assert (decide (i < st.1.size)) := by
  rw [seqRmBody, apply_ite Prod.fst, apply_ite Prod.fst]
  exact tests_eq ..

theorem seqRmBody_fst (q : SeqId) (p0 p1 : Int) (st : Cells × Nat) (i : Nat) :
    (seqRmBody q p0 p1 st i).1 = seqRmStep q p0 p1 st.1 i := by
  rw [seqRmStep, seqRmBody_eq, seqRmBody_eq]

theorem seqRmStep_spec (hp0 : 0 ≤ p0) (h : x.Good n T) (hi : i < n) :
    (seqRmStep q p0 p1 x i).Good n T ∧ (seqRmStep q p0 p1 x i).cell =
      Function.update x.cell i ((x.cell i).seqRmRange q p0 p1) := by
  rw [seqRmStep, seqRmBody_eq]
  dsimp only
  rw [h.assert_lt hi]
  refine h.ite fun ⟨hr, hq⟩ => ?_
  have hp : (x.cell i).pos ≠ -1 := by omega
  have hrep := h.toInv.seqRm (h.lt_size hi) hq hp
  exact ⟨h.replace hrep (h.toInv.seqRm_ok (h.lt_size hi) hq hp) hi ((h.wf hi).without q), hrep.cell⟩

/-- The `seq_rm` loop removes the sequence from the records in range. -/
theorem seqRm_loop (q : SeqId) (p1 : Int) (hp0 : 0 ≤ p0) (h : x.Good n T) (m : Nat) :
    ((List.range n).foldl (seqRmBody q p0 p1) (x, m)).1.Good n T ∧
      ∀ j, ((List.range n).foldl (seqRmBody q p0 p1) (x, m)).1.cell j =
        if j < n then (x.cell j).seqRmRange q p0 p1 else x.cell j := by
  rw [Loop.foldl_fst (seqRmBody_fst q p0 p1)]
  exact h.loop fun _ _ hi hy => seqRmStep_spec hp0 hy hi

/-- First component of the `seq_rm(-1)` body. -/
def rmStep (p0 p1 : Int) (x : Cells) (i : Nat) : Cells := (rmBody p0 p1 (x, 0) i).1

theorem rmBody_eq (st : Cells × Nat) : (rmBody p0 p1 st i).1 =
    if p0 ≤ (st.1.cell i).pos ∧ (st.1.cell i).pos < p1 then
      (st.1.assert (decide (i < st.1.size))).rm i
    else st.1.assert (decide (i < st.1.size)) := by
  rw [rmBody, apply_ite Prod.fst]
  by_cases hr : p0 ≤ (st.1.cell i).pos ∧ (st.1.cell i).pos < p1
  · simp [Cells.posIn, hr]
  · have hout : st.1.posIn i p0 p1 = false := by simpa [Cells.posIn] using hr
    rw [if_neg hr, if_pos]
    exact congrArg not hout

theorem rmBody_fst (p0 p1 : Int) (st : Cells × Nat) (i : Nat) :
    (rmBody p0 p1 st i).1 = rmStep p0 p1 st.1 i := by
  rw [rmStep, rmBody_eq, rmBody_eq]

theorem rmStep_spec (hp0 : 0 ≤ p0) (h : x.Good n T) (hi : i < n) :
    (rmStep p0 p1 x i).Good n T ∧ (rmStep p0 p1 x i).cell =
      Function.update x.cell i ((x.cell i).rmRange p0 p1) := by
  rw [rmStep, rmBody_eq]
  dsimp only
  rw [h.assert_lt hi]
  refine h.ite fun hr => ?_
  have hrep := h.toInv.rm (h.lt_size hi)
  exact ⟨h.replace hrep (h.toInv.rm_ok (h.lt_size hi) (by omega)) hi Cell.wf_empty, hrep.cell⟩

theorem rm_loop (hp0 : 0 ≤ p0) (h : x.Good n T) (m : Nat) :
    ((List.range n).foldl (rmBody p0 p1) (x, m)).1.Good n T := by
  rw [Loop.foldl_fst (rmBody_fst p0 p1)]
  exact (h.loop fun _ _ hi hy => rmStep_spec hp0 hy hi).1

theorem seqCpBody_spec (hp0 : 0 ≤ p0) (hd : T dst) (h : x.Good n T) (hi : i < n)
    (hpre : (p0 ≤ (x.cell i).pos ∧ (x.cell i).pos < p1) → src ∈ (x.cell i).seq →
      dst ∉ (x.cell i).seq) :
    (seqCpBody src dst p0 p1 x i).Good n T ∧ (seqCpBody src dst p0 p1 x i).cell =
      Function.update x.cell i ((x.cell i).seqCpRange src dst p0 p1) := by
  rw [seqCpBody, tests_eq, h.assert_lt hi]
  refine h.ite fun ⟨hr, hq⟩ => ?_
  have hp : (x.cell i).pos ≠ -1 := by omega
  have hrep := h.toInv.seqAdd (h.lt_size hi) (hpre hr hq) hp
  refine ⟨h.replace hrep (Cells.seqAdd_ok (h.lt_size hi) (hpre hr hq) hp) hi ?_, hrep.cell⟩
  refine ⟨(h.wf hi).pos, ⟨fun he => absurd he hp, by simp⟩, fun r hr' => ?_⟩
  rcases mem_insert.mp hr' with rfl | hr'
  · exact hd
  · exact h.home i hi r hr'

/-- The `seq_cp` loop inside a stream is sound when no record in range has both sequences. -/
theorem seqCp_loop (hp0 : 0 ≤ p0) (hd : T dst) (h : x.Good n T)
    (hpre : ∀ i < n, (p0 ≤ (x.cell i).pos ∧ (x.cell i).pos < p1) → src ∈ (x.cell i).seq →
      dst ∉ (x.cell i).seq) :
    ((List.range n).foldl (seqCpBody src dst p0 p1) x).Good n T :=
  (Loop.foldl_range_table (I := Cells.Good n T) (t := Cells.cell)
    (p := fun _ (y : Cell) => (p0 ≤ y.pos ∧ y.pos < p1) → src ∈ y.seq → dst ∉ y.seq)
    (g := fun _ => Cell.seqCpRange src dst p0 p1) h hpre
    fun _ _ hi hb hp => seqCpBody_spec hp0 hd hb hi hp).1

theorem seqKeepBody_fst (q : SeqId) (st : Cells × Nat) (i : Nat) :
    (seqKeepBody q st i).1 = (st.1.seqKeep i q).1 := rfl

theorem seqKeep_spec (hq : T q) (h : x.Good n T) (hi : i < n) :
    (x.seqKeep i q).1.Good n T ∧ (x.seqKeep i q).1.cell =
      Function.update x.cell i ((x.cell i).kept q) := by
  have hok := h.toFull.seqKeep_ok (h.lt_size hi) q
  unfold Cell.kept
  by_cases hm : q ∈ (x.cell i).seq
  · have hp : (x.cell i).pos ≠ -1 := by
      have := h.pos_of_mem hi hm
      omega
    have hrep := h.toInv.seqKeep_mem (h.lt_size hi) hm hp
    rw [if_pos hm]
    refine ⟨h.replace hrep hok hi ⟨(h.wf hi).pos, ⟨fun he => absurd he hp, by simp⟩, ?_⟩, hrep.cell⟩
    intro r hr
    rw [mem_singleton.mp hr]
    exact hq
  · rw [if_neg hm]
    by_cases hs : (x.cell i).seq = ∅
    · have he : (x.seqKeep i q).1 = x := by
        simp [Cells.seqKeep, hs, h.assert_lt hi, (h.wf hi).owned.mpr hs, Cells.assert_true]
      rw [he]
      simp [h, hs]
    · have hrep := h.toInv.seqKeep_other (h.lt_size hi) hm hs
      rw [if_pos hs]
      exact ⟨h.replace hrep hok hi Cell.wf_empty, hrep.cell⟩

theorem seqKeep_loop (hq : T q) (h : x.Good n T) (m : Nat) :
    ((List.range n).foldl (seqKeepBody q) (x, m)).1.Good n T := by
  rw [Loop.foldl_fst (g := fun x i => (x.seqKeep i q).1) (seqKeepBody_fst q)]
  exact (h.loop fun _ _ hi hy => seqKeep_spec hq hy hi).1

/-- First component of the `seq_add` body. -/
def seqAddStep (q : SeqId) (p0 p1 d : Int) (x : Cells) (i : Nat) : Cells :=
  (seqAddBody q p0 p1 d (x, 0) i).1

theorem seqAddBody_eq (st : Cells × Nat) : (seqAddBody q p0 p1 d st i).1 =
    if (p0 ≤ (st.1.cell i).pos ∧ (st.1.cell i).pos < p1) ∧ q ∈ (st.1.cell i).seq then
      ((st.1.assert (decide (i < st.1.size))).posAdd i d).1
    else st.1.assert (decide (i < st.1.size)) := by
  rw [seqAddBody, apply_ite Prod.fst, apply_ite Prod.fst]
  exact tests_eq ..

theorem seqAddBody_fst (q : SeqId) (p0 p1 d : Int) (st : Cells × Nat) (i : Nat) :
    (seqAddBody q p0 p1 d st i).1 = seqAddStep q p0 p1 d st.1 i := by
  rw [seqAddStep, seqAddBody_eq, seqAddBody_eq]

theorem seqAddStep_spec (hp0 : 0 ≤ p0) (h : x.Good n T) (hi : i < n) :
    (seqAddStep q p0 p1 d x i).Good n T ∧ (seqAddStep q p0 p1 d x i).cell =
      Function.update x.cell i ((x.cell i).seqAddRange q p0 p1 d) := by
  rw [seqAddStep, seqAddBody_eq]
  dsimp only
  rw [h.assert_lt hi]
  refine h.ite fun ⟨hr, hq⟩ => ?_
  have hp : (x.cell i).pos ≠ -1 := by omega
  have hrep := h.toInv.posAdd (h.lt_size hi) hp d
  refine ⟨h.replace hrep (h.toInv.posAdd_ok (h.lt_size hi) hp d) hi ?_, hrep.cell⟩
  unfold Cell.moved
  by_cases hd : (x.cell i).pos + d < 0
  · rw [if_pos hd]
    exact ⟨.inl rfl, by simp, by simp⟩
  · rw [if_neg hd]
    have hs : (x.cell i).seq ≠ ∅ := ne_empty_of_mem hq
    exact ⟨.inr (by simpa using hd), ⟨fun he => by simp only at he; omega,
      fun he => absurd he hs⟩, (h.wf hi).home⟩

theorem seqAdd_loop (q : SeqId) (p1 d : Int) (hp0 : 0 ≤ p0) (h : x.Good n T) (m : Nat) :
    ((List.range n).foldl (seqAddBody q p0 p1 d) (x, m)).1.Good n T := by
  rw [Loop.foldl_fst (seqAddBody_fst q p0 p1 d)]
  exact (h.loop fun _ _ hi hy => seqAddStep_spec hp0 hy hi).1

theorem seqDivBody_spec (hp0 : 0 ≤ p0) (hd : 1 ≤ d) (h : x.Good n T) (hi : i < n) :
    (seqDivBody q p0 p1 d x i).Good n T ∧ (seqDivBody q p0 p1 d x i).cell =
      Function.update x.cell i ((x.cell i).seqDivRange q p0 p1 d) := by
  rw [seqDivBody, tests_eq, h.assert_lt hi]
  refine h.ite fun ⟨hr, hq⟩ => ?_
  have hp : 0 ≤ (x.cell i).pos := by omega
  have hrep := h.toInv.posDiv (h.lt_size hi) hp hd
  refine ⟨h.replace hrep (h.toInv.posDiv_ok (h.lt_size hi) (by omega) d) hi ?_, hrep.cell⟩
  have hnn : 0 ≤ (x.cell i).pos.tdiv d := Int.tdiv_nonneg hp (by omega)
  have hs : (x.cell i).seq ≠ ∅ := ne_empty_of_mem hq
  exact ⟨.inr hnn, ⟨fun he => by simp only [Cell.scaled] at he; omega,
    fun he => absurd he hs⟩, (h.wf hi).home⟩

theorem seqDiv_loop (hp0 : 0 ≤ p0) (hd : 1 ≤ d) (h : x.Good n T) :
    ((List.range n).foldl (seqDivBody q p0 p1 d) x).Good n T :=
  (h.loop fun _ _ hi hy => seqDivBody_spec hp0 hd hy hi).1

end Cache

end Llama.Kv
