import Llama.Kv.Content

/-!
# What the cells of a sequence were computed for

`seq_rm` and `seq_add` change the positions of cells and leave their data in place. A sequence is
then described by the token that the cell at each position was computed for, a partial function of
the positions: removing a range takes its positions out, and shifting a range to a lower place that
is free moves them there.
-/

namespace Llama.Kv

open Function

/-- What is left of a record after `seq_add`, seen from the sequence. -/
theorem Cell.mem_seqAddRange {q : SeqId} {p0 p1 d p : Int} {e : Cell} :
    q ∈ (e.seqAddRange q p0 p1 d).seq ∧ (e.seqAddRange q p0 p1 d).pos = p ↔
      q ∈ e.seq ∧ if p0 ≤ e.pos ∧ e.pos < p1 then 0 ≤ e.pos + d ∧ e.pos + d = p else e.pos = p := by
  unfold Cell.seqAddRange Cell.moved
  by_cases hq : q ∈ e.seq
  · by_cases hr : p0 ≤ e.pos ∧ e.pos < p1
    · rw [if_pos ⟨hr, hq⟩, if_pos hr]
      by_cases hneg : e.pos + d < 0
      · rw [if_pos hneg]
        constructor
        · rintro ⟨hmem, -⟩
          cases hmem
        · rintro ⟨-, hge, -⟩
          omega
      · rw [if_neg hneg]
        simp only [hq, true_and]
        omega
    · rw [if_neg (fun h => hr h.1), if_neg hr]
  · rw [if_neg (fun h => hq h.2)]
    simp [hq]

namespace Cache

variable {α : Type*} {c : Cache} {q : SeqId} {tag : Nat → α} {f : Nat → Option α} {i : Nat}
  {p p0 p1 d : Int}

theorem seqAddStep_cells (q : SeqId) (p0 p1 d : Int) (x : Cells) (i : Nat) :
    (seqAddStep q p0 p1 d x i).size = x.size ∧ (seqAddStep q p0 p1 d x i).cell =
      update x.cell i ((x.cell i).seqAddRange q p0 p1 d) := by
  rw [seqAddStep, seqAddBody_eq, Cell.seqAddRange]
  split
  · rw [Cells.posAdd, Cell.moved]
    by_cases hneg : (x.cell i).pos + d < 0
    · simp [hneg, Cells.assert, Cells.put, Cells.seqPosRm, Cells.usedErase]
    · simp [hneg, Cells.assert, Cells.put, Cells.seqPosRm, Cells.seqPosAdd]
  · exact ⟨rfl, (update_eq_self i x.cell).symm⟩

theorem seqAdd_loop_cells (q : SeqId) (p0 p1 d : Int) (x : Cells) (m : Nat) :
    ((List.range x.size).foldl (seqAddBody q p0 p1 d) (x, m)).1.size = x.size ∧
      ∀ j, ((List.range x.size).foldl (seqAddBody q p0 p1 d) (x, m)).1.cell j =
        if j < x.size then (x.cell j).seqAddRange q p0 p1 d else x.cell j := by
  rw [Loop.foldl_fst (seqAddBody_fst q p0 p1 d)]
  exact Loop.foldl_range_table (I := fun y => y.size = x.size) (t := Cells.cell)
    (p := fun _ _ => True) (g := fun _ => Cell.seqAddRange q p0 p1 d) rfl (fun _ _ => trivial)
    fun y i _ hy _ =>
      ⟨(seqAddStep_cells q p0 p1 d y i).1.trans hy, (seqAddStep_cells q p0 p1 d y i).2⟩

/-- `seq_add` moves the cells with a position in the range, and empties those that it would move
below zero. -/
theorem cellAt_seqAdd : (c.seqAdd q p0 p1 d).CellAt q i p ↔
    ∃ p', c.CellAt q i p' ∧
      if lower p0 ≤ p' ∧ p' < upper p1 then 0 ≤ p' + d ∧ p' + d = p else p' = p := by
  have hnone : (∀ p', c.CellAt q i p' → lower p0 ≤ p' ∧ p' < upper p1 → d = 0) →
      (c.CellAt q i p ↔ ∃ p', c.CellAt q i p' ∧
        if lower p0 ≤ p' ∧ p' < upper p1 then 0 ≤ p' + d ∧ p' + d = p else p' = p) := by
    intro hsame
    have hlow := lower_nonneg p0
    constructor
    · intro h
      refine ⟨p, h, ?_⟩
      split_ifs with hr
      · have := hsame p h hr
        omega
      · rfl
    · rintro ⟨p', h, hp⟩
      split_ifs at hp with hr
      · obtain rfl : p' = p := by
          have := hsame p' h hr
          omega
        exact h
      · exact hp ▸ h
  rw [seqAdd]
  by_cases hd : d = 0
  · rw [if_pos hd]
    exact hnone fun _ _ _ => hd
  by_cases hempty : lower p0 = upper p1
  · rw [if_neg hd, if_pos hempty]
    exact hnone fun _ _ hr => by omega
  rw [if_neg hd, if_neg hempty]
  obtain ⟨hsize, hcell⟩ := seqAdd_loop_cells q (lower p0) (upper p1) d
    (c.cells (c.cfg.seqToStream q)) (c.cells (c.cfg.seqToStream q)).size
  simp only [CellAt, assert, setHead, setCells, update_self]
  rw [hsize, hcell]
  by_cases hi : i < (c.cells (c.cfg.seqToStream q)).size
  · rw [if_pos hi, Cell.mem_seqAddRange]
    simp only [hi, true_and]
    constructor
    · rintro ⟨hq, hp⟩
      exact ⟨_, ⟨hq, rfl⟩, hp⟩
    · rintro ⟨p', ⟨hq, rfl⟩, hp⟩
      exact ⟨hq, hp⟩
  · simp [hi]

/-- The sequence has exactly the positions of the function, each in one cell, which was computed
for the token there. -/
structure Remembers (c : Cache) (q : SeqId) (tag : Nat → α) (f : Nat → Option α) : Prop where
  listed : ∀ i p, c.CellAt q i p → ∃ k : Nat, p = k ∧ f k = some (tag i)
  once : ∀ k a, f k = some a → ∃! i, c.CellAt q i (k : Int)

theorem Remembers.congr {g : Nat → Option α} (h : c.Remembers q tag f) (hfg : ∀ k, f k = g k) :
    c.Remembers q tag g := by
  obtain rfl : f = g := funext hfg
  exact h

/-- The token of a position is that of its cell. -/
theorem Remembers.tag_eq (h : c.Remembers q tag f) {k : Nat} (hs : c.CellAt q i (k : Int)) :
    f k = some (tag i) := by
  obtain ⟨l, hl, hf⟩ := h.listed i k hs
  obtain rfl : k = l := by exact_mod_cast hl
  exact hf

/-- Removing a range takes its positions out. -/
theorem Remembers.seqRm (h : c.Remembers q tag f) (p0 p1 : Int) :
    (c.seqRm (some q) p0 p1).Remembers q tag
      fun k => if lower p0 ≤ k ∧ (k : Int) < upper p1 then none else f k where
  listed := by
    intro i p hs
    obtain ⟨hs, hout⟩ := cellAt_seqRm.mp hs
    obtain ⟨k, rfl, hk⟩ := h.listed i p hs
    exact ⟨k, rfl, by rw [if_neg fun h => hout ⟨rfl, h⟩]; exact hk⟩
  once := by
    intro k a hk
    split_ifs at hk with hr
    obtain ⟨i, hi, hunique⟩ := h.once k a hk
    exact ⟨i, cellAt_seqRm.mpr ⟨hi, fun h => hr h.2⟩, fun j hj => hunique j (cellAt_seqRm.mp hj).1⟩

/-- Moving a range down to free positions moves the tokens there. -/
theorem Remembers.seqAdd (h : c.Remembers q tag f) {a b m : Nat} (hm : m ≤ a) (hab : a ≤ b)
    (hfree : ∀ k, a - m ≤ k → k < a → f k = none) :
    (c.seqAdd q a b (-m)).Remembers q tag fun k =>
      if a - m ≤ k ∧ k < b - m then f (k + m) else if a ≤ k ∧ k < b then none else f k := by
  have hlow : lower (a : Int) = a := by simp [lower]
  have hup : upper (b : Int) = b := by simp [upper]
  -- where a cell of the moved sequence comes from
  have hmoved : ∀ i (k : Nat), (c.seqAdd q a b (-m)).CellAt q i k ↔
      (a - m ≤ k ∧ k < b - m ∧ c.CellAt q i ((k + m : Nat) : Int)) ∨
        ¬(a ≤ k ∧ k < b) ∧ c.CellAt q i k := by
    intro i k
    rw [cellAt_seqAdd, hlow, hup]
    constructor
    · rintro ⟨p', hs, hp⟩
      split_ifs at hp with hr
      · obtain rfl : p' = ((k + m : Nat) : Int) := by push_cast; omega
        push_cast at hr
        exact .inl ⟨by omega, by omega, hs⟩
      · obtain rfl := hp
        exact .inr ⟨by omega, hs⟩
    · rintro (⟨h1, h2, hs⟩ | ⟨hout, hs⟩)
      · refine ⟨_, hs, ?_⟩
        push_cast
        rw [if_pos (by omega)]
        omega
      · exact ⟨_, hs, by rw [if_neg (by omega)]⟩
  constructor
  · intro i p hs
    obtain ⟨p', hs', hp⟩ := cellAt_seqAdd.mp hs
    obtain ⟨k, rfl, hk⟩ := h.listed i p' hs'
    rw [hlow, hup] at hp
    split_ifs at hp with hr
    · refine ⟨k - m, by omega, ?_⟩
      rw [if_pos (by omega), Nat.sub_add_cancel (by omega)]
      exact hk
    · refine ⟨k, hp.symm, ?_⟩
      have hout : ¬(a - m ≤ k ∧ k < b - m) := by
        intro hin
        rw [hfree k hin.1 (by omega)] at hk
        cases hk
      rw [if_neg hout, if_neg (by omega)]
      exact hk
  · intro k x hk
    by_cases hin : a - m ≤ k ∧ k < b - m
    · rw [if_pos hin] at hk
      obtain ⟨i, hi, hunique⟩ := h.once _ x hk
      refine ⟨i, (hmoved i k).mpr (.inl ⟨hin.1, hin.2, hi⟩), fun j hj => ?_⟩
      rcases (hmoved j k).mp hj with ⟨-, -, hj⟩ | ⟨hout, hj⟩
      · exact hunique j hj
      · have := h.tag_eq hj
        rw [hfree k hin.1 (by omega)] at this
        cases this
    · rw [if_neg hin] at hk
      split_ifs at hk with hr
      obtain ⟨i, hi, hunique⟩ := h.once k x hk
      refine ⟨i, (hmoved i k).mpr (.inr ⟨hr, hi⟩), fun j hj => ?_⟩
      rcases (hmoved j k).mp hj with ⟨h1, h2, -⟩ | ⟨-, hj⟩
      · exact absurd ⟨h1, h2⟩ hin
      · exact hunique j hj

/-- The cells of the sequence were computed for a list of tokens. -/
def Computed (c : Cache) (q : SeqId) (tag : Nat → α) (toks : List α) : Prop :=
  c.Remembers q tag fun k => toks[k]?

/-- A memory with one sequence, whose positions are in the order of the cells. -/
def inOrder (n : Nat) : Cache :=
  { init ⟨n, 1, 1, 0, .none, 1⟩ with
    cells := fun _ => { Cells.resize n with cell := fun i => { pos := i, seq := {0} } } }

theorem computed_inOrder (toks : List α) (a : α) :
    (inOrder toks.length).Computed 0 (fun i => toks.getD i a) toks := by
  have hat : ∀ i p, (inOrder toks.length).CellAt 0 i p ↔ i < toks.length ∧ (i : Int) = p :=
    fun i p => ⟨fun h => ⟨h.1, h.2.2⟩, fun h => ⟨h.1, Finset.mem_singleton_self _, h.2⟩⟩
  constructor
  · intro i p hs
    obtain ⟨hi, rfl⟩ := (hat i p).mp hs
    exact ⟨i, rfl, by simp [hi]⟩
  · intro k b hk
    have hlt := (List.getElem?_eq_some_iff.mp hk).1
    exact ⟨k, (hat k k).mpr ⟨hlt, rfl⟩, fun j hj => by
      have := ((hat j k).mp hj).2
      omega⟩

end Cache

end Llama.Kv
