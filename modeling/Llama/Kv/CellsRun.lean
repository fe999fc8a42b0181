import Llama.Kv.Shift
import Mathlib.Algebra.BigOperators.Group.Finset.Piecewise

/-!
# Runs of the methods of the cell metadata

The methods of `llama_kv_cells` may be called in any order, each under its asserted precondition;
records that `set` writes back were saved by `cp`, from these cells at an earlier time or from
others. What then always holds is stated without the redundant fields: `used` and `seq_pos` are
read off the records, and an empty cell has no sequence and no shift.
-/

namespace Llama.Kv

open List

namespace Cells

/-- `cp(i, n)`: the saved records of `n` cells from `i` on. -/
def cpAt (c : Cells) (i n : Nat) : List Cell :=
  (List.range n).map fun j => { c.cell (i + j) with shift := 0 }

/-- `set(i, other)`: write saved records back from `i` on. -/
def setAt (c : Cells) (i : Nat) (other : List Cell) : Cells :=
  ((List.range other.length).zip other).foldl (fun c e => c.setOne (i + e.1) e.2)
    (c.assert (decide (i + other.length ≤ c.size)))

/-- The records were saved by one of the two `cp` methods, under its assertions. -/
inductive Saved (c : Cells) : List Cell → Prop
  | range (i n : Nat) (hsize : i + n ≤ c.size) (hshift : ∀ j < n, (c.cell (i + j)).shift = 0) :
    Saved c (c.cpAt i n)
  | list (idxs : List Nat) (hidxs : ∀ i ∈ idxs, i < c.size ∧ (c.cell i).shift = 0) :
    Saved c (c.cp idxs)

end Cells

/-- The asserted precondition of a method. Restoring is left to `Cells.Reaches`. -/
def CellsOp.Pre (c : Cells) : CellsOp → Prop
  | reset | resetShift | resize _ => True
  | rm i => i < c.size ∧ (c.cell i).pos ≠ -1
  | seqRm i q => i < c.size ∧ q ∈ (c.cell i).seq ∧ (c.cell i).pos ≠ -1
  | seqKeep i q => i < c.size ∧ (q ∉ (c.cell i).seq → (c.cell i).seq = ∅ → (c.cell i).pos = -1)
  | seqAdd i q => i < c.size ∧ (c.cell i).pos ≠ -1 ∧ q ∉ (c.cell i).seq
  | posSet i p => i < c.size ∧ (c.cell i).pos = -1 ∧ (c.cell i).seq = ∅ ∧ 0 ≤ p
  | extSet i _ => i < c.size
  | posAdd i _ => i < c.size ∧ (c.cell i).pos ≠ -1
  | posDiv i d => i < c.size ∧ (c.cell i).pos ≠ -1 ∧ 1 ≤ d
  | set _ _ => False

namespace Cells

/-- The cells that a sequence of calls can lead to. -/
inductive Reaches : Cells → Prop
  | new : Reaches (resize 0)
  | call {c : Cells} {op : CellsOp} : Reaches c → op.Pre c → Reaches (op.apply c)
  | setAt {c c0 : Cells} {i : Nat} {other : List Cell} : Reaches c → Reaches c0 →
      c0.Saved other → i + other.length ≤ c.size →
      (∀ j < other.length, (c.cell (i + j)).shift = 0) → Reaches (c.setAt i other)
  | set {c c0 : Cells} {idxs : List Nat} {other : List Cell} : Reaches c → Reaches c0 →
      c0.Saved other → idxs.length = other.length → idxs.Nodup →
      (∀ i ∈ idxs, i < c.size ∧ (c.cell i).shift = 0) →
      Reaches ((CellsOp.set idxs other).apply c)

/-- What the fields of the cells mean. -/
structure Represented (c : Cells) : Prop where
  used : c.used = (Finset.range c.size).filter fun i => (c.cell i).pos ≠ -1
  /-- A position is a key of a sequence when some cell of the sequence has it. -/
  key : ∀ s p, p ∈ c.seqPos s ↔ ∃ i < c.size, (c.cell i).pos = p ∧ s ∈ (c.cell i).seq
  value : ∀ s p, (c.seqPos s).count p =
    ((Finset.range c.size).filter fun i => (c.cell i).pos = p ∧ s ∈ (c.cell i).seq).card
  empty : ∀ i < c.size, (c.cell i).pos = -1 → (c.cell i).seq = ∅ ∧ (c.cell i).shift = 0

/-- The invariant of the records, no shift in empty cells, and no failed assertion. -/
structure Sound (c : Cells) : Prop extends Inv c where
  /-- An empty cell has no shift. -/
  idle : ∀ i < c.size, (c.cell i).pos = -1 → (c.cell i).shift = 0
  /-- No assertion has failed. -/
  ok : c.ok = true

variable {c c' : Cells} {i : Nat}

theorem Sound.represented (h : c.Sound) : c.Represented where
  used := by
    ext i
    rw [h.used, Finset.mem_filter, Finset.mem_range]
  key s p := by
    rw [h.toInv.mem_seqPos_iff]
    constructor
    · rintro ⟨i, hi, hs, hp⟩
      exact ⟨i, hi, hp, hs⟩
    · rintro ⟨i, hi, hp, hs⟩
      exact ⟨i, hi, hs, hp⟩
  value s p := by
    have hone : ∀ x : Cell, (x.contrib s).count p = if x.pos = p ∧ s ∈ x.seq then 1 else 0 := by
      intro x
      rw [Cell.contrib]
      by_cases hs : s ∈ x.seq
      · rw [if_pos hs, Multiset.count_singleton]
        simp [hs, eq_comm]
      · simp [hs]
    rw [h.seqPos, track, Multiset.count_sum', Finset.card_filter]
    exact Finset.sum_congr rfl fun i _ => hone _
  empty i hi hp := ⟨h.seq i hi hp, h.idle i hi hp⟩

/-- A method that replaces one record by a well-formed one keeps everything. -/
theorem Replaced.sound {x : Cell} (h : Replaced c c' i x) (hc : c.Sound) (hi : i < c.size)
    (hpos : x.pos = -1 ∨ 0 ≤ x.pos) (hempty : x.pos = -1 → x.seq = ∅ ∧ x.shift = 0)
    (hok : c'.ok = c.ok) : c'.Sound where
  toInv := h.inv hc.toInv hi hpos fun hp => (hempty hp).1
  idle j hj hp := by
    rw [h.size] at hj
    by_cases he : j = i
    · subst he
      rw [h.cell_self] at hp ⊢
      exact (hempty hp).2
    · rw [h.cell_of_ne he] at hp ⊢
      exact hc.idle j hj hp
  ok := hok.trans hc.ok

/-- A cell in use has a valid position. -/
theorem Inv.pos_nonneg (h : c.Inv) (hi : i < c.size) (hp : (c.cell i).pos ≠ -1) :
    0 ≤ (c.cell i).pos :=
  (h.pos i hi).resolve_left hp

theorem resize_sound (n : Nat) : (resize n).Sound where
  toInv := (resize_full n).toInv
  idle _ _ _ := rfl
  ok := rfl

theorem Sound.reset (h : c.Sound) : c.reset.Sound where
  toInv := (reset_full c).toInv
  idle _ _ _ := rfl
  ok := h.ok

theorem Sound.resetShift (h : c.Sound) : c.resetShift.Sound where
  used := h.used
  pos := h.pos
  seq := h.seq
  seqPos := h.seqPos
  idle _ _ _ := rfl
  ok := h.ok

theorem Sound.seqKeep (h : c.Sound) (hi : i < c.size) {q : SeqId}
    (hpre : q ∉ (c.cell i).seq → (c.cell i).seq = ∅ → (c.cell i).pos = -1) :
    (c.seqKeep i q).1.Sound := by
  by_cases hq : q ∈ (c.cell i).seq
  · have hp : (c.cell i).pos ≠ -1 := by
      intro hp
      rw [h.seq i hi hp] at hq
      exact absurd hq (Finset.notMem_empty q)
    have hok : (c.seqKeep i q).1.ok = c.ok := by
      have hrm := h.toInv.seqPosRm_ok hi
      simpa [Cells.seqKeep, hi, hq, Cells.put, seqPosInc, assert_true] using hrm
    exact (h.toInv.seqKeep_mem hi hq hp).sound h hi (.inr (h.toInv.pos_nonneg hi hp))
      (fun hp' => absurd hp' hp) hok
  · by_cases hs : (c.cell i).seq = ∅
    · have hsame : (c.seqKeep i q).1 = c := by
        simp [Cells.seqKeep, hi, hs, hpre hq hs, assert_true]
      rw [hsame]
      exact h
    · have hok : (c.seqKeep i q).1.ok = c.ok := by
        have hrm := h.toInv.seqPosRm_ok hi
        simpa [Cells.seqKeep, hi, hq, hs, Cells.put, usedErase, assert_true] using hrm
      exact (h.toInv.seqKeep_other hi hq hs).sound h hi (.inl rfl) (fun _ => ⟨rfl, rfl⟩) hok

/-- Every method but `set` keeps the invariant. -/
theorem Sound.apply (h : c.Sound) {op : CellsOp} (hpre : op.Pre c) : (op.apply c).Sound := by
  have hinv := h.toInv
  cases op with
  | reset => exact h.reset
  | resetShift => exact h.resetShift
  | resize n =>
    exact ⟨⟨(resize_full n).used, (resize_full n).pos, (resize_full n).seq,
      (resize_full n).seqPos⟩, fun _ _ _ => rfl, h.ok⟩
  | rm i =>
    obtain ⟨hi, hp⟩ := hpre
    exact (hinv.rm hi).sound h hi (.inl rfl) (fun _ => ⟨rfl, rfl⟩) (hinv.rm_ok hi hp)
  | seqRm i q =>
    obtain ⟨hi, hq, hp⟩ := hpre
    refine (hinv.seqRm hi hq hp).sound h hi ?_ ?_ (hinv.seqRm_ok hi hq hp)
    · rw [Cell.without]
      split
      · exact .inl rfl
      · exact .inr (hinv.pos_nonneg hi hp)
    · rw [Cell.without]
      split
      · exact fun _ => ⟨rfl, rfl⟩
      · exact fun hp' => absurd hp' hp
  | seqKeep i q => exact h.seqKeep hpre.1 hpre.2
  | seqAdd i q =>
    obtain ⟨hi, hp, hq⟩ := hpre
    exact (hinv.seqAdd hi hq hp).sound h hi (.inr (hinv.pos_nonneg hi hp))
      (fun hp' => absurd hp' hp) (seqAdd_ok hi hq hp)
  | posSet i p =>
    obtain ⟨hi, hp, -, hp0⟩ := hpre
    refine (hinv.posSet hi hp (by omega)).sound h hi (.inr hp0) (fun hp' => ?_)
      (hinv.posSet_ok hi hp p)
    simp only at hp'
    omega
  | extSet i e =>
    refine (hinv.extSet hpre e).sound h hpre (hinv.pos i hpre) (fun hp => ?_) (extSet_ok hpre e)
    exact ⟨hinv.seq i hpre hp, h.idle i hpre hp⟩
  | posAdd i d =>
    obtain ⟨hi, hp⟩ := hpre
    refine (hinv.posAdd hi hp d).sound h hi ?_ ?_ (hinv.posAdd_ok hi hp d)
    · rw [Cell.moved]
      split
      · exact .inl rfl
      · rename_i hd
        simp only
        omega
    · rw [Cell.moved]
      split
      · exact fun _ => ⟨rfl, rfl⟩
      · rename_i hd
        intro hp'
        simp only at hp'
        omega
  | posDiv i d =>
    obtain ⟨hi, hp, hd⟩ := hpre
    have hnn := hinv.pos_nonneg hi hp
    have hdiv : 0 ≤ ((c.cell i).scaled d).pos := Int.tdiv_nonneg hnn (by omega)
    refine (hinv.posDiv hi hnn hd).sound h hi (.inr hdiv) (fun hp' => ?_) (hinv.posDiv_ok hi hp d)
    omega
  | set idxs other => exact hpre.elim

theorem Sound.saved (h : c.Sound) {other : List Cell} (hs : c.Saved other) :
    ∀ y ∈ other, (y.pos = -1 ∨ 0 ≤ y.pos) ∧ (y.pos = -1 → y.seq = ∅) := by
  cases hs with
  | range i n hsize _ =>
    intro y hy
    obtain ⟨j, hj, rfl⟩ := mem_map.mp hy
    have hlt : i + j < c.size := by
      have := mem_range.mp hj
      omega
    exact ⟨h.pos _ hlt, h.seq _ hlt⟩
  | list idxs hidxs =>
    intro y hy
    obtain ⟨j, hj, rfl⟩ := mem_map.mp hy
    exact ⟨h.pos _ (hidxs j hj).1, h.seq _ (hidxs j hj).1⟩

/-- Writing back a record meets its assertions when nothing is pending. -/
theorem Inv.setOne_ok (h : c.Inv) (hi : i < c.size) (hshift : (c.cell i).shift = 0) (y : Cell) :
    (c.setOne i y).ok = c.ok := by
  have hm : ∀ q ∈ (c.cell i).seq, (c.cell i).pos ∈ c.seqPos q := fun q hq => h.pos_mem_seqPos hi hq
  by_cases hx : (c.cell i).pos = -1 <;> by_cases hy : y.pos = -1
  · simp [Cells.setOne, hx, hy, Cells.put, hshift]
  · simp [Cells.setOne, hx, hy, Cells.put, hshift, usedInsert, seqPosAdd]
  · simpa [Cells.setOne, hx, hy, Cells.put, hshift, usedErase, seqPosRm] using fun _ => hm
  · simpa [Cells.setOne, hx, hy, Cells.put, hshift, seqPosRm, seqPosAdd] using fun _ => hm

/-- Writing back saved records where nothing is pending keeps the invariant. -/
theorem Sound.restore : ∀ {es : List (Nat × Cell)} {c : Cells}, c.Sound →
    (∀ e ∈ es, (e.1 < c.size ∧ (c.cell e.1).shift = 0) ∧
      (e.2.pos = -1 ∨ 0 ≤ e.2.pos) ∧ (e.2.pos = -1 → e.2.seq = ∅)) →
    (es.foldl (fun c e => c.setOne e.1 e.2) c).Sound := by
  intro es
  induction es with
  | nil => exact fun h _ => h
  | cons e es ih =>
    intro c h hes
    obtain ⟨⟨hi, hshift⟩, hpos, hseq⟩ := hes e (by simp)
    have hone := h.toInv.setOne hi hseq
    refine ih (hone.sound h hi hpos (fun hp => ⟨hseq hp, hshift⟩)
      (h.toInv.setOne_ok hi hshift e.2)) fun e' he' => ?_
    obtain ⟨⟨hi', hshift'⟩, hgood⟩ := hes e' (mem_cons_of_mem _ he')
    refine ⟨⟨by rwa [hone.size], ?_⟩, hgood⟩
    by_cases he : e'.1 = e.1
    · rw [he, hone.cell_self]
      exact hshift
    · rw [hone.cell_of_ne he]
      exact hshift'

/-- Everything that calls can lead to is sound. -/
theorem Reaches.sound (h : c.Reaches) : c.Sound := by
  induction h with
  | new => exact resize_sound 0
  | call _ hpre ih => exact ih.apply hpre
  | @setAt c c0 i other _ _ hsaved hsize hshift ih ih0 =>
    have hassert : c.assert (decide (i + other.length ≤ c.size)) = c := by
      rw [decide_eq_true hsize, assert_true]
    have hfold : c.setAt i other = (((List.range other.length).map (i + ·)).zip other).foldl
        (fun c e => c.setOne e.1 e.2) c := by
      rw [Cells.setAt, hassert, zip_map_left, foldl_map]
      rfl
    rw [hfold]
    refine ih.restore fun e he => ⟨?_, ih0.saved hsaved e.2 (of_mem_zip he).2⟩
    obtain ⟨j, hj, he1⟩ := mem_map.mp (of_mem_zip he).1
    have hlt := mem_range.mp hj
    rw [← he1]
    exact ⟨by omega, hshift j hlt⟩
  | @set c c0 idxs other _ _ hsaved hlen _ hidxs ih ih0 =>
    have hassert : c.assert (idxs.length == other.length) = c := by
      rw [beq_iff_eq.mpr hlen, assert_true]
    rw [CellsOp.apply, hassert]
    exact ih.restore fun e he =>
      ⟨hidxs e.1 (of_mem_zip he).1, ih0.saved hsaved e.2 (of_mem_zip he).2⟩

/-- After any calls under their preconditions the fields mean what they should, and no assertion
has failed. -/
theorem reaches_represented (h : c.Reaches) : c.Represented ∧ c.ok = true :=
  ⟨h.sound.represented, h.sound.ok⟩

/-- Two cells of which the second is filled and saved back over the first. -/
def savedBack : Cells :=
  (CellsOp.set [0] (((CellsOp.seqAdd 1 3).apply ((CellsOp.posSet 1 7).apply
    ((CellsOp.resize 2).apply (resize 0)))).cp [1])).apply ((CellsOp.seqAdd 1 3).apply
      ((CellsOp.posSet 1 7).apply ((CellsOp.resize 2).apply (resize 0))))

theorem savedBack_represented : savedBack.Represented ∧ savedBack.ok = true := by
  have h2 := @Reaches.call _ (.resize 2) Reaches.new trivial
  have h3 := @Reaches.call _ (.posSet 1 7) h2 ⟨by decide, rfl, rfl, by decide⟩
  have h4 := @Reaches.call _ (.seqAdd 1 3) h3 ⟨by decide, by decide, by decide⟩
  exact reaches_represented (h4.set h4 (Saved.list [1] (by decide)) rfl (by decide) (by decide))

end Cells

end Llama.Kv
