import Llama.Recurrent.Memory
import Llama.Lib.Loop

/-!
# The invariant of the recurrent memory

`Linked F` says that the sets of the cells and the tails describe the same map from sequences to
cells, where the sequences of `F` have a tail but do not stand in its set yet; between two
operations `F` is empty. Every operation keeps the invariant except `seq_rm` with a negative
sequence, which empties the cells and forgets the tails.
-/

namespace Llama.Recurrent

open Function Finset

variable {m : Memory}

/-! ## Changing one cell -/

@[simp] theorem Memory.modify_size (m : Memory) (c : Nat) (f : Cell → Cell) :
    (m.modify c f).size = m.size := rfl

theorem Memory.modify_cells (m : Memory) (c : Nat) (f : Cell → Cell) (j : Nat) :
    (m.modify c f).cells j = if j = c then f (m.cells c) else m.cells j := by
  simp only [Memory.modify, update_apply]

variable {x : Cell} {id p0 p1 : Int} {F : Finset Nat} {c s t : Nat} {m' : Memory}
  {st : Memory × Nat}

theorem hasSeqId_iff : x.hasSeqId id = true ↔ 0 ≤ id ∧ id.toNat ∈ x.seqId := decide_eq_true_iff

theorem isEmpty_iff : x.isEmpty = true ↔ x.seqId = ∅ := decide_eq_true_iff

/-! ## The invariant -/

/-- The sets and the tails agree, apart from the sequences of `F`. -/
structure Linked (F : Finset Nat) (m : Memory) : Prop where
  mem_iff : ∀ s c, c < m.size →
    (s ∈ (m.cells c).seqId ↔ s < m.size ∧ (m.cells s).tail = some c ∧ s ∉ F)
  tail_lt : ∀ s < m.size, ∀ c, (m.cells s).tail = some c → c < m.size
  pos_iff : ∀ c < m.size, (m.cells c).pos = -1 ↔ (m.cells c).seqId = ∅
  pos_ge : ∀ c < m.size, -1 ≤ (m.cells c).pos

/-- The memory between two operations. -/
structure Inv (m : Memory) : Prop extends Linked ∅ m where
  /-- The used cells are counted. -/
  used : m.used = m.countUsed
  /-- The head is a cell, or just behind the last. -/
  head : m.head ≤ m.size
  /-- A state is not copied from another cell. -/
  src : ∀ c < m.size, (m.cells c).src = none ∨ (m.cells c).src = some c

section

variable (h : Linked F m) (hc : c < m.size) (hs : s ∈ (m.cells c).seqId)
include h hc hs

theorem Linked.tail_of_mem : (m.cells s).tail = some c := ((h.mem_iff s c hc).mp hs).2.1

theorem Linked.pos_nonneg : 0 ≤ (m.cells c).pos := by
  have hge := h.pos_ge c hc
  have hne : (m.cells c).pos ≠ -1 := by
    intro he
    rw [(h.pos_iff c hc).mp he] at hs
    exact absurd hs (notMem_empty s)
  omega

end

/-- The invariant depends on the sets, tails and positions only. -/
theorem Linked.congr (h : Linked F m) (hsize : m'.size = m.size)
    (hcells : ∀ c < m.size, (m'.cells c).seqId = (m.cells c).seqId ∧
      (m'.cells c).tail = (m.cells c).tail ∧ (m'.cells c).pos = (m.cells c).pos) :
    Linked F m' where
  mem_iff s c hc := by
    rw [hsize] at hc ⊢
    rw [(hcells c hc).1, h.mem_iff s c hc]
    refine and_congr_right fun hs => ?_
    rw [(hcells s hs).2.1]
  tail_lt s hs c ht := by
    rw [hsize] at hs ⊢
    rw [(hcells s hs).2.1] at ht
    exact h.tail_lt s hs c ht
  pos_iff c hc := by
    rw [hsize] at hc
    rw [(hcells c hc).1, (hcells c hc).2.2]
    exact h.pos_iff c hc
  pos_ge c hc := by
    rw [hsize] at hc
    rw [(hcells c hc).2.2]
    exact h.pos_ge c hc

/-! ## Counting -/

theorem countUsed_congr (hsize : m'.size = m.size)
    (h : ∀ c < m.size, (m'.cells c).seqId = ∅ ↔ (m.cells c).seqId = ∅) :
    m'.countUsed = m.countUsed := by
  simp only [Memory.countUsed, hsize]
  congr 1
  refine filter_congr fun c hc => ?_
  exact not_congr (h c (mem_range.mp hc))

theorem countUsed_emptied (hsize : m'.size = m.size) (hc : c < m.size)
    (hold : (m.cells c).seqId ≠ ∅) (hnew : (m'.cells c).seqId = ∅)
    (h : ∀ j < m.size, j ≠ c → (m'.cells j).seqId = (m.cells j).seqId) :
    m'.countUsed = m.countUsed - 1 := by
  have herase : (range m'.size).filter (fun j => (m'.cells j).seqId ≠ ∅) =
      ((range m.size).filter fun j => (m.cells j).seqId ≠ ∅).erase c := by
    ext j
    simp only [mem_filter, mem_erase, mem_range, hsize]
    by_cases hj : j = c
    · subst hj
      simp [hnew]
    · constructor
      · rintro ⟨h1, h2⟩
        rw [h j h1 hj] at h2
        exact ⟨hj, h1, h2⟩
      · rintro ⟨-, h1, h2⟩
        rw [h j h1 hj]
        exact ⟨h1, h2⟩
  rw [Memory.countUsed, herase, card_erase_of_mem]
  · rfl
  · exact mem_filter.mpr ⟨mem_range.mpr hc, hold⟩

/-! ## `clear` -/

theorem clear_inv (m : Memory) : Inv m.clear := by
  have hcell : ∀ c < m.size, (m.clear.cells c).seqId = ∅ ∧ (m.clear.cells c).tail = none ∧
      (m.clear.cells c).pos = -1 ∧ (m.clear.cells c).src = none := by
    intro c hc
    simp [Memory.clear, hc]
  refine ⟨⟨fun s c hc => ?_, fun s hs c ht => ?_, fun c hc => ?_, fun c hc => ?_⟩, ?_, ?_, ?_⟩
  · rw [(hcell c hc).1]
    refine ⟨fun h => absurd h (notMem_empty s), fun h => ?_⟩
    rw [(hcell s h.1).2.1] at h
    cases h.2.1
  · rw [(hcell s hs).2.1] at ht
    cases ht
  · exact ⟨fun _ => (hcell c hc).1, fun _ => (hcell c hc).2.2.1⟩
  · rw [(hcell c hc).2.2.1]
  · symm
    refine card_eq_zero.mpr (filter_eq_empty_iff.mpr fun c hc => ?_)
    rw [not_not]
    exact (hcell c (mem_range.mp hc)).1
  · exact Nat.zero_le _
  · exact fun c hc => .inl (hcell c hc).2.2.2

/-! ## The loops over all cells -/

theorem moveHead_cells (st : Memory × Nat) : (Memory.moveHead st).cells = st.1.cells := by
  unfold Memory.moveHead
  split <;> rfl

theorem moveHead_size (st : Memory × Nat) : (Memory.moveHead st).size = st.1.size := by
  unfold Memory.moveHead
  split <;> rfl

theorem moveHead_used (st : Memory × Nat) : (Memory.moveHead st).used = st.1.used := by
  unfold Memory.moveHead
  split <;> rfl

theorem moveHead_head (h : st.1.head ≤ st.1.size) :
    (Memory.moveHead st).head ≤ (Memory.moveHead st).size := by
  rw [moveHead_size]
  unfold Memory.moveHead
  split
  · rename_i hlt
    exact hlt.2.le.trans h
  · exact h

/-- A record of which the loops know whether it is counted. -/
def Cell.Counted (x : Cell) : Prop := -1 ≤ x.pos ∧ (x.pos = -1 ↔ x.seqId = ∅)

theorem Linked.counted (h : Linked F m) (hc : c < m.size) :
    (m.cells c).Counted := ⟨h.pos_ge c hc, h.pos_iff c hc⟩

theorem Cell.Counted.nonneg_iff (h : x.Counted) : 0 ≤ x.pos ↔ x.seqId ≠ ∅ := by
  have := h.1
  rw [ne_eq, ← h.2]
  omega

/-- A turn that rewrites record `i`. The count goes down if the record becomes empty. -/
structure Rewrites (st st' : Memory × Nat) (i : Nat) (y : Cell) : Prop where
  size : st'.1.size = st.1.size
  head : st'.1.head = st.1.head
  cells : st'.1.cells = update st.1.cells i y
  used : (st.1.cells i).Counted → st'.1.used =
    if (st.1.cells i).seqId ≠ ∅ ∧ y.seqId = ∅ then st.1.used - 1 else st.1.used

theorem Rewrites.countUsed {st' : Memory × Nat} {i : Nat} {y : Cell} (h : Rewrites st st' i y)
    (hi : i < st.1.size) (hx : (st.1.cells i).Counted) (hy : (st.1.cells i).seqId = ∅ → y.seqId = ∅)
    (hu : st.1.used = st.1.countUsed) : st'.1.used = st'.1.countUsed := by
  have hself : st'.1.cells i = y := by rw [h.cells, update_self]
  have hother : ∀ j, j ≠ i → st'.1.cells j = st.1.cells j := by
    intro j hj
    rw [h.cells, update_of_ne hj]
  rw [h.used hx, hu]
  split
  next he =>
    refine (countUsed_emptied h.size hi he.1 ?_ fun j _ hj => ?_).symm
    · rw [hself]
      exact he.2
    · rw [hother j hj]
  next he =>
    refine (countUsed_congr h.size fun j _ => ?_).symm
    by_cases hj : j = i
    · subst hj
      rw [hself]
      exact ⟨fun h => by_contra fun hn => he ⟨hn, h⟩, hy⟩
    · rw [hother j hj]

/-- A loop over all records. -/
def Memory.sweep (turn : Memory × Nat → Nat → Memory × Nat) (m : Memory) : Memory :=
  Memory.moveHead ((List.range m.size).foldl turn (m, m.size))

section

variable {turn : Memory × Nat → Nat → Memory × Nat} {g : Nat → Cell → Cell}

section

variable (hturn : ∀ st i, Rewrites st (turn st i) i (g i (st.1.cells i)))
include hturn

/-- A loop rewrites each record on its own. -/
theorem sweep_cells (m : Memory) :
    (m.sweep turn).size = m.size ∧ (m.head ≤ m.size → (m.sweep turn).head ≤ m.size) ∧
      ∀ c < m.size, (m.sweep turn).cells c = g c (m.cells c) := by
  obtain ⟨⟨hsize, hhead⟩, ht⟩ := Loop.foldl_range_table
    (I := fun st : Memory × Nat => st.1.size = m.size ∧ st.1.head = m.head)
    (t := fun st : Memory × Nat => st.1.cells) (p := fun _ _ => True) (g := g) (f := turn)
    (b := (m, m.size)) (n := m.size) ⟨rfl, rfl⟩ (fun _ _ => trivial)
    fun st i _ hst _ => ⟨⟨(hturn st i).size.trans hst.1, (hturn st i).head.trans hst.2⟩,
      (hturn st i).cells⟩
  refine ⟨?_, fun hh => ?_, fun c hc => ?_⟩
  · rw [Memory.sweep, moveHead_size, hsize]
  · have hle : ((List.range m.size).foldl turn (m, m.size)).1.head ≤
        ((List.range m.size).foldl turn (m, m.size)).1.size := by
      rw [hsize, hhead]
      exact hh
    have hmoved := moveHead_head hle
    rwa [moveHead_size, hsize] at hmoved
  · rw [Memory.sweep, moveHead_cells, ht c, if_pos hc]

theorem sweep_used (hg : ∀ i x, x.seqId = ∅ → (g i x).seqId = ∅) (hused : m.used = m.countUsed)
    (hx : ∀ c < m.size, (m.cells c).Counted) : (m.sweep turn).used = (m.sweep turn).countUsed := by
  obtain ⟨⟨-, hu⟩, -⟩ := Loop.foldl_range_table
    (I := fun st : Memory × Nat => st.1.size = m.size ∧ st.1.used = st.1.countUsed)
    (t := fun st : Memory × Nat => st.1.cells) (p := fun _ x => x.Counted) (g := g) (f := turn)
    (b := (m, m.size)) ⟨rfl, hused⟩ hx fun st i hi hst hxi => ⟨⟨(hturn st i).size.trans hst.1,
      (hturn st i).countUsed (by rwa [hst.1]) hxi (hg i _) hst.2⟩, (hturn st i).cells⟩
  rw [Memory.sweep, moveHead_used, hu]
  exact (countUsed_congr (moveHead_size _) fun c _ => by rw [moveHead_cells]).symm

end

end

/-- A record that may have lost its last sequence. -/
def Cell.settle (x : Cell) : Cell := if x.isEmpty then x.emptied else x

@[simp] theorem Cell.settle_seqId (x : Cell) : x.settle.seqId = x.seqId := by
  unfold Cell.settle
  split <;> rfl

@[simp] theorem Cell.settle_tail (x : Cell) : x.settle.tail = x.tail := by
  unfold Cell.settle
  split <;> rfl

theorem Cell.settle_pos (x : Cell) : x.settle.pos = if x.seqId = ∅ then -1 else x.pos := by
  unfold Cell.settle
  by_cases h : x.seqId = ∅
  · rw [if_pos (isEmpty_iff.mpr h), if_pos h]
    rfl
  · rw [if_neg fun hn => h (isEmpty_iff.mp hn), if_neg h]

theorem Cell.settle_src_of_empty (h : x.seqId = ∅) : x.settle.src = none := by
  rw [Cell.settle, if_pos (isEmpty_iff.mpr h)]
  rfl

theorem Cell.settle_src_or (x : Cell) :
    x.settle.src = x.src ∨ x.settle.src = none ∧ x.settle.seqId = ∅ := by
  by_cases h : x.seqId = ∅
  · exact .inr ⟨Cell.settle_src_of_empty h, (Cell.settle_seqId x).trans h⟩
  · left
    rw [Cell.settle, if_neg fun hn => h (isEmpty_iff.mp hn)]

/-! ## Sequences that leave their cells -/

/-- The sequences with the property leave their cells. -/
structure Lost (P : Nat → Prop) (m m' : Memory) : Prop where
  size : m'.size = m.size
  head : m.head ≤ m.size → m'.head ≤ m.size
  gone : ∀ s < m.size, P s → (m'.cells s).tail = none
  kept : ∀ s < m.size, ¬ P s → (m'.cells s).tail = (m.cells s).tail
  seqId : ∀ c < m.size, ∀ s, s ∈ (m'.cells c).seqId ↔ s ∈ (m.cells c).seqId ∧ ¬ P s
  src : ∀ c < m.size, (m'.cells c).src = (m.cells c).src ∨
    (m'.cells c).src = none ∧ (m'.cells c).seqId = ∅
  emptied : ∀ c < m.size, (m'.cells c).seqId = ∅ → (m.cells c).seqId ≠ ∅ → (m'.cells c).src = none

/-- A cell that becomes empty loses its position. -/
def Unplaced (m m' : Memory) : Prop :=
  ∀ c < m.size, (m'.cells c).pos = if (m'.cells c).seqId = ∅ then -1 else (m.cells c).pos

section

variable {m' : Memory} {P : Nat → Prop}

/-- The sets and the tails that are left agree where the old ones did. -/
theorem Lost.mem_iff {Q : Nat → Prop} (hl : Lost P m m') (h : ∀ s c, c < m.size →
      (s ∈ (m.cells c).seqId ↔ s < m.size ∧ (m.cells s).tail = some c ∧ Q s))
    (s c : Nat) (hc : c < m'.size) :
    s ∈ (m'.cells c).seqId ↔ s < m'.size ∧ (m'.cells s).tail = some c ∧ Q s := by
  rw [hl.size] at hc ⊢
  rw [hl.seqId c hc, h s c hc]
  constructor
  · rintro ⟨⟨hs, ht, hQ⟩, hP⟩
    exact ⟨hs, (hl.kept s hs hP).trans ht, hQ⟩
  · rintro ⟨hs, ht, hQ⟩
    have hP : ¬ P s := by
      intro hP
      rw [hl.gone s hs hP] at ht
      cases ht
    exact ⟨⟨hs, (hl.kept s hs hP).symm.trans ht, hQ⟩, hP⟩

theorem Lost.tail_lt (hl : Lost P m m')
    (h : ∀ s < m.size, ∀ c, (m.cells s).tail = some c → c < m.size) :
    ∀ s < m'.size, ∀ c, (m'.cells s).tail = some c → c < m'.size := by
  intro s hs c ht
  rw [hl.size] at hs ⊢
  by_cases hP : P s
  · rw [hl.gone s hs hP] at ht
    cases ht
  · exact h s hs c ((hl.kept s hs hP).symm.trans ht)

theorem Lost.src_self (hl : Lost P m m')
    (h : ∀ c < m.size, (m.cells c).src = none ∨ (m.cells c).src = some c) :
    ∀ c < m'.size, (m'.cells c).src = none ∨ (m'.cells c).src = some c := by
  intro c hc
  rw [hl.size] at hc
  rcases hl.src c hc with he | he
  · rw [he]
    exact h c hc
  · exact .inl he.1

theorem Inv.lost (h : Inv m) (hl : Lost P m m') (hp : Unplaced m m')
    (hused : m'.used = m'.countUsed) : Inv m' where
  mem_iff := hl.mem_iff h.mem_iff
  tail_lt := hl.tail_lt h.tail_lt
  pos_iff c hc := by
    rw [hl.size] at hc
    rw [hp c hc]
    by_cases he : (m'.cells c).seqId = ∅
    · simp [he]
    · have hne : (m.cells c).seqId ≠ ∅ := by
        intro h0
        refine he (eq_empty_of_forall_notMem fun s hs => ?_)
        have := ((hl.seqId c hc s).mp hs).1
        rw [h0] at this
        exact notMem_empty s this
      rw [if_neg he]
      exact iff_of_false (fun hp => hne ((h.pos_iff c hc).mp hp)) he
  pos_ge c hc := by
    rw [hl.size] at hc
    rw [hp c hc]
    split
    · exact le_rfl
    · exact h.pos_ge c hc
  used := hused
  head := by
    rw [hl.size]
    exact hl.head h.head
  src := hl.src_self h.src

end

/-- A sequence stands in the set of its tail only. -/
def Memory.Stands (m : Memory) : Prop :=
  ∀ c < m.size, ∀ s ∈ (m.cells c).seqId, (m.cells s).tail = some c

theorem Linked.stands (h : Linked F m) : m.Stands := fun _ hc _ hs =>
  h.tail_of_mem hc hs

/-! ## `seq_rm` -/

/-- What `seq_rm` leaves of a record. -/
def Cell.rm (id p0 p1 : Int) (x : Cell) : Cell :=
  if p0 ≤ x.pos ∧ x.pos < p1 ∧ (id < 0 ∨ x.hasSeqId id = true) then
    { x with seqId := if id < 0 then ∅ else x.seqId.erase id.toNat : Cell }.settle
  else x

theorem Cell.rm_tail : (x.rm id p0 p1).tail = x.tail := by
  unfold Cell.rm
  split
  · rw [Cell.settle_tail]
  · rfl

theorem Cell.rm_src_or (id p0 p1 : Int) (x : Cell) : (x.rm id p0 p1).src = x.src ∨
    (x.rm id p0 p1).src = none ∧ (x.rm id p0 p1).seqId = ∅ := by
  unfold Cell.rm
  split
  · exact Cell.settle_src_or _
  · exact .inl rfl

theorem Cell.rm_src_of_emptied (he : (x.rm id p0 p1).seqId = ∅) (hne : x.seqId ≠ ∅) :
    (x.rm id p0 p1).src = none := by
  unfold Cell.rm at he ⊢
  split at he
  · next hin =>
    rw [if_pos hin]
    rw [Cell.settle_seqId] at he
    exact Cell.settle_src_of_empty he
  · exact absurd he hne

theorem Cell.Counted.rm_pos (h : x.Counted) (id p0 p1 : Int) :
    (x.rm id p0 p1).pos = if (x.rm id p0 p1).seqId = ∅ then -1 else x.pos := by
  unfold Cell.rm
  split
  · rw [Cell.settle_pos, Cell.settle_seqId]
  · split
    · next he => exact h.2.mpr he
    · rfl

theorem rmTurn_rewrites (id p0 p1 : Int) (st : Memory × Nat) (i : Nat) :
    Rewrites st (rmTurn id p0 p1 st i) i ((st.1.cells i).rm id p0 p1) := by
  unfold rmTurn Cell.rm Cell.settle
  by_cases hc : p0 ≤ (st.1.cells i).pos ∧ (st.1.cells i).pos < p1 ∧
      (id < 0 ∨ (st.1.cells i).hasSeqId id = true)
  · simp only [if_pos hc]
    by_cases he : ({ st.1.cells i with seqId :=
        if id < 0 then ∅ else (st.1.cells i).seqId.erase id.toNat } : Cell).isEmpty = true
    · simp only [if_pos he]
      refine ⟨rfl, rfl, rfl, fun hx => ?_⟩
      by_cases hp : 0 ≤ (st.1.cells i).pos
      · exact (if_pos hp).trans (if_pos ⟨hx.nonneg_iff.mp hp, isEmpty_iff.mp he⟩).symm
      · exact (if_neg hp).trans (if_neg fun hn => hp (hx.nonneg_iff.mpr hn.1)).symm
    · simp only [if_neg he]
      exact ⟨rfl, rfl, rfl, fun _ => (if_neg fun hn => he (isEmpty_iff.mpr hn.2)).symm⟩
  · simp only [if_neg hc]
    exact ⟨rfl, rfl, (update_eq_self _ _).symm, fun _ => (if_neg fun hn => hn.1 hn.2).symm⟩

/-- The loop of `seq_rm` rewrites each record on its own. -/
theorem rmRange_cells (m : Memory) (id p0 p1 : Int) : (m.rmRange id p0 p1).size = m.size ∧
    (m.head ≤ m.size → (m.rmRange id p0 p1).head ≤ m.size) ∧
    ∀ c < m.size, (m.rmRange id p0 p1).cells c = (m.cells c).rm id p0 p1 :=
  sweep_cells (rmTurn_rewrites id p0 p1) m

theorem rmRange_used (id p0 p1 : Int) (hused : m.used = m.countUsed)
    (hx : ∀ c < m.size, (m.cells c).Counted) :
    (m.rmRange id p0 p1).used = (m.rmRange id p0 p1).countUsed := by
  refine sweep_used (g := fun _ x => x.rm id p0 p1) (rmTurn_rewrites id p0 p1) (fun _ x h => ?_)
    hused hx
  unfold Cell.rm
  split
  · rw [Cell.settle_seqId]
    simp [h]
  · exact h

/-- A removal of all sequences that finds one forgets its tail. -/
def Memory.Strands (m : Memory) (id p0 p1 : Int) : Prop :=
  id < 0 ∧ lower p0 = 0 ∧ upper p1 = maxPos ∧
    ∃ c < m.size, (m.cells c).seqId ≠ ∅ ∧ 0 ≤ (m.cells c).pos ∧ (m.cells c).pos < maxPos

/-- The loop of `seq_rm` that finds only empty cells in the range. -/
theorem rmRange_lost_none (hno : ∀ c < m.size, p0 ≤ (m.cells c).pos → (m.cells c).pos < p1 →
      (id < 0 ∨ (m.cells c).hasSeqId id = true) → (m.cells c).seqId = ∅) :
    Lost (fun _ => False) m (m.rmRange id p0 p1) := by
  obtain ⟨hsize, hhead, hcell⟩ := rmRange_cells m id p0 p1
  have hset : ∀ c < m.size, ((m.rmRange id p0 p1).cells c).seqId = (m.cells c).seqId := by
    intro c hc
    rw [hcell c hc, Cell.rm]
    split
    · next hin =>
      rw [Cell.settle_seqId, hno c hc hin.1 hin.2.1 hin.2.2]
      split
      · rfl
      · exact erase_empty _
    · rfl
  refine ⟨hsize, hhead, fun _ _ hf => hf.elim, fun s hs _ => ?_, fun c hc s => ?_, fun c hc => ?_,
    fun c hc he hne => ?_⟩
  · rw [hcell s hs, Cell.rm_tail]
  · rw [hset c hc, not_false_eq_true, and_true]
  · rw [hcell c hc]
    exact Cell.rm_src_or id p0 p1 _
  · rw [hset c hc] at he
    exact absurd he hne

/-- The records after the tail of a sequence is cleared. -/
theorem cleared_cells (m : Memory) (s c : Nat) :
    ((m.modify s fun x => { x with tail := none }).cells c).seqId = (m.cells c).seqId ∧
    ((m.modify s fun x => { x with tail := none }).cells c).pos = (m.cells c).pos ∧
    ((m.modify s fun x => { x with tail := none }).cells c).src = (m.cells c).src ∧
    ((m.modify s fun x => { x with tail := none }).cells c).tail =
      if c = s then none else (m.cells c).tail := by
  rw [Memory.modify_cells]
  by_cases hc : c = s
  · subst hc
    simp
  · simp [hc]

/-- The loop of `seq_rm` that removes a sequence whose tail was cleared. -/
theorem rmRange_lost (h : m.Stands) (hid : 0 ≤ id) (ht : (m.cells id.toNat).tail = some t)
    (hp : p0 ≤ (m.cells t).pos ∧ (m.cells t).pos < p1) :
    Lost (· = id.toNat) m
      ((m.modify id.toNat fun x => { x with tail := none }).rmRange id p0 p1) := by
  have hold := cleared_cells m id.toNat
  obtain ⟨hsize, hhead, hcell⟩ :=
    rmRange_cells (m.modify id.toNat fun x => { x with tail := none }) id p0 p1
  rw [Memory.modify_size] at hsize hhead hcell
  -- the sequence stands in one set only, whose position is in the range
  have hset : ∀ c < m.size, (((m.modify id.toNat fun x => { x with tail := none }).rmRange
      id p0 p1).cells c).seqId = (m.cells c).seqId.erase id.toNat := by
    intro c hc
    rw [hcell c hc, Cell.rm, (hold c).2.1]
    by_cases hmem : id.toNat ∈ (m.cells c).seqId
    · obtain rfl : t = c := Option.some.inj (ht.symm.trans (h c hc _ hmem))
      rw [if_pos, Cell.settle_seqId]
      · dsimp only
        rw [if_neg (by omega), (hold t).1]
      · refine ⟨hp.1, hp.2, .inr (hasSeqId_iff.mpr ⟨hid, ?_⟩)⟩
        rw [(hold t).1]
        exact hmem
    · rw [if_neg, (hold c).1, erase_eq_of_notMem hmem]
      rintro ⟨-, -, hn | hn⟩
      · omega
      · rw [hasSeqId_iff, (hold c).1] at hn
        exact hmem hn.2
  refine ⟨hsize, hhead, ?_, fun s hs hne => ?_, fun c hc s => ?_, fun c hc => ?_,
    fun c hc he hne => ?_⟩
  · rintro s hs rfl
    rw [hcell _ hs, Cell.rm_tail, (hold _).2.2.2, if_pos rfl]
  · rw [hcell s hs, Cell.rm_tail, (hold s).2.2.2, if_neg hne]
  · rw [hset c hc, mem_erase, and_comm]
  · rw [hcell c hc, ← (hold c).2.2.1]
    exact Cell.rm_src_or id p0 p1 _
  · rw [hcell c hc] at he ⊢
    rw [← (hold c).1] at hne
    exact Cell.rm_src_of_emptied he hne

/-- `seq_rm` does nothing, or its loop takes a sequence or none from its cell. -/
theorem seqRm_lost (h : m.Stands) (hs : ¬ m.Strands id p0 p1) :
    (m.seqRm id p0 p1).2 = m ∨
      ∃ m₁ P, (m.seqRm id p0 p1).2 = m₁.rmRange id (lower p0) (upper p1) ∧
        (m₁ = m ∨ m₁ = m.modify id.toNat fun x => { x with tail := none }) ∧
        Lost P m (m₁.rmRange id (lower p0) (upper p1)) := by
  unfold Memory.seqRm
  dsimp only
  split
  · exact .inl rfl
  · split
    · next hid =>
      split
      · next ht =>
        refine .inr ⟨m, _, rfl, .inl rfl, rmRange_lost_none fun c hc _ _ hn => ?_⟩
        rcases hn with hn | hn
        · omega
        · rw [h c hc _ (hasSeqId_iff.mp hn).2] at ht
          cases ht
      · next t ht =>
        split
        · exact .inl rfl
        · split
          · next hp => exact .inr ⟨_, _, rfl, .inr rfl, rmRange_lost h hid ht hp⟩
          · next hp =>
            refine .inr ⟨m, _, rfl, .inl rfl, rmRange_lost_none fun c hc h1 h2 hn => ?_⟩
            rcases hn with hn | hn
            · omega
            · rw [h c hc _ (hasSeqId_iff.mp hn).2, Option.some.injEq] at ht
              subst ht
              exact absurd ⟨h1, h2⟩ hp
    · next hid =>
      split
      · exact .inl rfl
      · next hr =>
        refine .inr ⟨m, _, rfl, .inl rfl, rmRange_lost_none fun c hc h1 h2 _ => ?_⟩
        by_contra hne
        by_cases he : lower p0 = upper p1
        · omega
        · have hall : lower p0 = 0 ∧ upper p1 = maxPos := by
            by_contra hn
            exact hr ⟨he, by tauto⟩
          exact hs ⟨by omega, hall.1, hall.2, c, hc, hne, by omega, by omega⟩

/-- A removal of all sequences that finds one. -/
def Memory.Forgets (m : Memory) (id p0 p1 : Int) : Prop :=
  id < 0 ∧ lower p0 = 0 ∧ upper p1 = maxPos ∧
    ∃ c < m.size, (m.cells c).seqId ≠ ∅ ∧ (m.cells c).pos < maxPos

theorem seqRm_inv (h : Inv m) (hsound : ¬ m.Forgets id p0 p1) : Inv (m.seqRm id p0 p1).2 := by
  have hs : ¬ m.Strands id p0 p1 := by
    rintro ⟨h1, h2, h3, c, hc, hne, -, hlt⟩
    exact hsound ⟨h1, h2, h3, c, hc, hne, hlt⟩
  obtain he | ⟨m₁, P, he, hm₁, hl⟩ := seqRm_lost h.stands hs
  · rw [he]
    exact h
  · have hold : m₁.size = m.size ∧ m₁.used = m.used ∧ ∀ c, (m₁.cells c).seqId =
        (m.cells c).seqId ∧ (m₁.cells c).pos = (m.cells c).pos := by
      rcases hm₁ with rfl | rfl
      · exact ⟨rfl, rfl, fun c => ⟨rfl, rfl⟩⟩
      · exact ⟨rfl, rfl, fun c => ⟨(cleared_cells m _ c).1, (cleared_cells m _ c).2.1⟩⟩
    obtain ⟨hsize, hused, hcell⟩ := hold
    have hx : ∀ c < m₁.size, (m₁.cells c).Counted := by
      intro c hc
      rw [Cell.Counted, (hcell c).1, (hcell c).2]
      exact h.counted (hsize ▸ hc)
    rw [he]
    refine h.lost hl (fun c hc => ?_) (rmRange_used id _ _ ?_ hx)
    · rw [← hsize] at hc
      rw [(rmRange_cells m₁ id _ _).2.2 c hc, (hx c hc).rm_pos, (hcell c).2]
    · rw [hused, h.used]
      exact (countUsed_congr hsize fun c _ => by rw [(hcell c).1]).symm

/-! ## `seq_cp` -/

theorem release_of_none (ht : (m.cells s).tail = none) : m.release s = m := by
  rw [Memory.release, ht]

theorem release_cells (ht : (m.cells s).tail = some t) (c : Nat) :
    (m.release s).cells c = if c = t then
        { m.cells c with
          seqId := (m.cells c).seqId.erase s
          tail := if c = s then none else (m.cells c).tail : Cell }.settle
      else { m.cells c with tail := if c = s then none else (m.cells c).tail } := by
  rw [Memory.release, ht]
  unfold Cell.settle
  by_cases hct : c = t
  · subst hct
    by_cases hcs : c = s
    · subst hcs
      simp only [Memory.modify_cells, if_true]
      split <;> simp [Memory.modify_cells]
    · simp only [Memory.modify_cells, if_true, if_neg hcs]
      split <;> simp [Memory.modify_cells, hcs]
  · by_cases hcs : c = s
    · subst hcs
      have htc : ¬ t = c := fun he => hct he.symm
      simp only [Memory.modify_cells, if_true, if_neg hct, if_neg htc]
      split <;> simp [Memory.modify_cells, hct]
    · by_cases hts : t = s
      · simp only [Memory.modify_cells, hts, if_true, if_neg hcs]
        split <;> simp [Memory.modify_cells, hcs]
      · simp only [Memory.modify_cells, if_true, if_neg hct, if_neg hcs, if_neg hts]
        split <;> simp [Memory.modify_cells, hct, hcs]

theorem release_size : (m.release s).size = m.size := by
  unfold Memory.release
  split
  · rfl
  · dsimp only
    split <;> rfl

theorem release_head : (m.release s).head = m.head := by
  unfold Memory.release
  split
  · rfl
  · dsimp only
    split <;> rfl

theorem release_tail (r : Nat) :
    ((m.release s).cells r).tail = if r = s then none else (m.cells r).tail := by
  cases ht : (m.cells s).tail with
  | none =>
    rw [release_of_none ht]
    split
    · rename_i he
      rw [he, ht]
    · rfl
  | some t =>
    rw [release_cells ht]
    split
    · rw [Cell.settle_tail]
    · rfl

theorem release_lost (h : m.Stands) : Lost (· = s) m (m.release s) := by
  cases ht : (m.cells s).tail with
  | none =>
    rw [release_of_none ht]
    have hnot : ∀ c < m.size, s ∉ (m.cells c).seqId := by
      intro c hc hs
      rw [h c hc s hs] at ht
      cases ht
    refine ⟨rfl, id, ?_, fun _ _ _ => rfl, ?_, fun _ _ => .inl rfl, fun c _ he hne => absurd he hne⟩
    · rintro r - rfl
      exact ht
    · intro c hc r
      refine ⟨fun hr => ⟨hr, ?_⟩, fun hr => hr.1⟩
      rintro rfl
      exact hnot c hc hr
  | some t =>
    have hother : ∀ c < m.size, c ≠ t → (m.cells c).seqId.erase s = (m.cells c).seqId :=
      fun c hc hct => erase_eq_of_notMem fun hs =>
        hct (Option.some.inj ((h c hc s hs).symm.trans ht))
    have hset : ∀ c < m.size, ((m.release s).cells c).seqId = (m.cells c).seqId.erase s := by
      intro c hc
      rw [release_cells ht]
      split
      · rw [Cell.settle_seqId]
      · next hct => exact (hother c hc hct).symm
    refine ⟨release_size, ?_, ?_, ?_, ?_, ?_, ?_⟩
    · rw [release_head]
      exact id
    · rintro r - rfl
      rw [release_tail, if_pos rfl]
    · intro r _ hr
      rw [release_tail, if_neg hr]
    · intro c hc r
      rw [hset c hc, mem_erase, and_comm]
    · intro c hc
      rw [release_cells ht]
      split
      · exact Cell.settle_src_or _
      · exact .inl rfl
    · intro c hc he hne
      rw [hset c hc] at he
      rw [release_cells ht]
      split
      · exact Cell.settle_src_of_empty he
      · next hct =>
        rw [hother c hc hct] at he
        exact absurd he hne

theorem release_used (ht : (m.cells s).tail = some t) :
    (m.release s).used = if ((m.release s).cells t).seqId = ∅ then m.used - 1 else m.used := by
  have hset : ((m.release s).cells t).seqId = (m.cells t).seqId.erase s := by
    rw [release_cells ht, if_pos rfl, Cell.settle_seqId]
  have hcell : (((m.modify t fun x => { x with seqId := x.seqId.erase s }).modify s fun x =>
      { x with tail := none }).cells t).seqId = (m.cells t).seqId.erase s := by
    rw [Memory.modify_cells]
    split
    · rename_i he
      subst he
      simp [Memory.modify_cells]
    · simp [Memory.modify_cells]
  rw [hset]
  rw [Memory.release, ht]
  simp only [isEmpty_iff, hcell]
  split <;> rfl

theorem release_inv (h : Inv m) (hs : s < m.size) : Inv (m.release s) := by
  cases ht : (m.cells s).tail with
  | none =>
    rw [release_of_none ht]
    exact h
  | some t =>
    have htl := h.tail_lt s hs t ht
    have hmem : s ∈ (m.cells t).seqId := (h.mem_iff s t htl).mpr ⟨hs, ht, notMem_empty s⟩
    refine h.lost (release_lost h.stands) (fun c hc => ?_) ?_
    · rw [release_cells ht]
      split
      · rw [Cell.settle_pos, Cell.settle_seqId]
      · dsimp only
        split
        · rename_i he
          exact (h.pos_iff c hc).mpr he
        · rfl
    · have hother : ∀ j, j ≠ t → ((m.release s).cells j).seqId = (m.cells j).seqId := by
        intro j hj
        rw [release_cells ht, if_neg hj]
      rw [release_used ht]
      split
      · rename_i he
        rw [countUsed_emptied release_size htl (ne_empty_of_mem hmem) he fun j _ => hother j,
          h.used]
      · rename_i he
        rw [h.used]
        refine (countUsed_congr release_size fun j _ => ?_).symm
        by_cases hj : j = t
        · subst hj
          exact iff_of_false he (ne_empty_of_mem hmem)
        · rw [hother j hj]

/-- The records after a sequence joined the cell of another. -/
theorem joined_cells (m : Memory) (s t c : Nat) :
    (((m.modify t fun x => { x with seqId := insert s x.seqId }).modify s fun x =>
      { x with tail := some t }).cells c).seqId =
        (if c = t then insert s (m.cells c).seqId else (m.cells c).seqId) ∧
    (((m.modify t fun x => { x with seqId := insert s x.seqId }).modify s fun x =>
      { x with tail := some t }).cells c).tail =
        (if c = s then some t else (m.cells c).tail) ∧
    (((m.modify t fun x => { x with seqId := insert s x.seqId }).modify s fun x =>
      { x with tail := some t }).cells c).src = (m.cells c).src ∧
    (((m.modify t fun x => { x with seqId := insert s x.seqId }).modify s fun x =>
      { x with tail := some t }).cells c).pos = (m.cells c).pos := by
  simp only [Memory.modify_cells]
  by_cases hcs : c = s
  · subst hcs
    by_cases hct : c = t
    · subst hct
      simp
    · simp [hct]
  · by_cases hct : c = t
    · subst hct
      simp [hcs]
    · simp [hcs, hct]

/-- The sets and the tails agree after a sequence joined the cell of another. -/
theorem joined_mem_iff {Q : Nat → Prop} (h : ∀ r c, c < m.size →
      (r ∈ (m.cells c).seqId ↔ r < m.size ∧ (m.cells r).tail = some c ∧ Q r)) (hs : s < m.size)
    (hQ : Q s) (hfree : (m.cells s).tail = none) (r c : Nat) (hc : c < m.size) :
    r ∈ (((m.modify t fun x => { x with seqId := insert s x.seqId }).modify s fun x =>
        { x with tail := some t }).cells c).seqId ↔
      r < m.size ∧ (((m.modify t fun x => { x with seqId := insert s x.seqId }).modify s fun x =>
        { x with tail := some t }).cells r).tail = some c ∧ Q r := by
  rw [(joined_cells m s t c).1, (joined_cells m s t r).2.1]
  by_cases hrs : r = s
  · subst hrs
    rw [if_pos rfl, Option.some.injEq]
    split
    · next hct => simp [hs, hct, hQ]
    · next hct =>
      refine iff_of_false (fun hmem => ?_) fun hn => hct hn.2.1.symm
      have := ((h r c hc).mp hmem).2.1
      rw [hfree] at this
      cases this
  · rw [if_neg hrs, ← h r c hc]
    split
    · rw [mem_insert, or_iff_right hrs]
    · rfl

theorem joined_tail_lt (h : ∀ r < m.size, ∀ c, (m.cells r).tail = some c → c < m.size)
    (ht : t < m.size) : ∀ r < m.size, ∀ c,
      (((m.modify t fun x => { x with seqId := insert s x.seqId }).modify s fun x =>
        { x with tail := some t }).cells r).tail = some c → c < m.size := by
  intro r hr c hrt
  rw [(joined_cells m s t r).2.1] at hrt
  split at hrt
  · cases hrt
    exact ht
  · exact h r hr c hrt

/-- A sequence without a cell joins that of another. -/
theorem Inv.join (h : Inv m) (hs : s < m.size) (ht : t < m.size) (hfree : (m.cells s).tail = none)
    (hne : (m.cells t).seqId ≠ ∅) :
    Inv ((m.modify t fun x => { x with seqId := insert s x.seqId }).modify s fun x =>
      { x with tail := some t }) := by
  have hcell := joined_cells m s t
  have hempty : ∀ c, (((m.modify t fun x => { x with seqId := insert s x.seqId }).modify s fun x =>
      { x with tail := some t }).cells c).seqId = ∅ ↔ (m.cells c).seqId = ∅ := by
    intro c
    rw [(hcell c).1]
    split
    · rename_i he
      subst he
      exact iff_of_false (insert_ne_empty s _) hne
    · rfl
  have hmem := joined_mem_iff (t := t) (Q := fun r => r ∉ (∅ : Finset Nat)) h.mem_iff hs
    (notMem_empty s) hfree
  refine ⟨⟨hmem, joined_tail_lt h.tail_lt ht, fun c hc => ?_, fun c hc => ?_⟩, ?_, h.head,
    fun c hc => ?_⟩
  · rw [(hcell c).2.2.2, hempty]
    exact h.pos_iff c hc
  · rw [(hcell c).2.2.2]
    exact h.pos_ge c hc
  · refine h.used.trans (Eq.symm ?_)
    exact countUsed_congr rfl fun c _ => hempty c
  · rw [(hcell c).2.2.1]
    exact h.src c hc

theorem seqCp_inv {src dst : Int} (h : Inv m) : Inv (m.seqCp src dst) := by
  unfold Memory.seqCp
  split
  · exact h
  · rename_i hne
    split
    · rename_i hlt
      obtain ⟨⟨hd0, hd⟩, hs0, hs⟩ := hlt
      have hrel := release_inv h (s := dst.toNat) (by omega)
      dsimp only
      split
      · exact hrel
      · rename_i t ht
        have hst : src.toNat < (m.release dst.toNat).size := by
          rw [release_size]
          omega
        have htl := hrel.tail_lt _ hst t ht
        refine hrel.join ?_ htl ?_ ?_
        · rw [release_size]
          omega
        · rw [release_tail, if_pos rfl]
        · exact ne_empty_of_mem ((hrel.mem_iff _ t htl).mpr ⟨hst, ht, notMem_empty _⟩)
    · exact h

/-! ## `seq_keep` -/

/-- What `seq_keep` leaves of record `i`. -/
def Cell.keep (id : Int) (i : Nat) (x : Cell) : Cell :=
  let x := if (i : Int) ≠ id then { x with tail := none } else x
  if x.hasSeqId id then
    { x with seqId := {id.toNat} } else { x with pos := -1, src := none, seqId := ∅ }

theorem Cell.keep_fields (id : Int) (i : Nat) (x : Cell) :
    (x.keep id i).tail = (if (i : Int) ≠ id then none else x.tail) ∧
    (x.keep id i).seqId = (if x.hasSeqId id then {id.toNat} else ∅) ∧
    (x.keep id i).src = (if x.hasSeqId id then x.src else none) ∧
    (x.keep id i).pos = (if x.hasSeqId id then x.pos else -1) := by
  have hhas : (if (i : Int) ≠ id then { x with tail := none } else x).hasSeqId id =
      x.hasSeqId id := by
    split <;> rfl
  unfold Cell.keep
  dsimp only
  rw [hhas]
  cases x.hasSeqId id with
  | true => by_cases hi : (i : Int) = id <;> simp [hi]
  | false => by_cases hi : (i : Int) = id <;> simp [hi]

theorem keepTurn_rewrites (id : Int) (st : Memory × Nat) (i : Nat) :
    Rewrites st (keepTurn id st i) i ((st.1.cells i).keep id i) := by
  have hpos : (if (i : Int) ≠ id then { st.1.cells i with tail := none } else st.1.cells i).pos =
      (st.1.cells i).pos := by
    split <;> rfl
  unfold keepTurn Cell.keep
  dsimp only
  by_cases hs : (if (i : Int) ≠ id then { st.1.cells i with tail := none }
      else st.1.cells i).hasSeqId id = true
  · simp only [if_pos hs]
    refine ⟨rfl, rfl, rfl, fun _ => (if_neg ?_).symm⟩
    rintro ⟨-, he⟩
    exact singleton_ne_empty _ he
  · simp only [if_neg hs]
    refine ⟨rfl, rfl, rfl, fun hx => ?_⟩
    rw [hpos]
    by_cases hp : 0 ≤ (st.1.cells i).pos
    · exact (if_pos hp).trans (if_pos ⟨hx.nonneg_iff.mp hp, rfl⟩).symm
    · exact (if_neg hp).trans (if_neg fun hn => hp (hx.nonneg_iff.mpr hn.1)).symm

/-- The loop of `seq_keep` rewrites each record on its own. -/
theorem seqKeep_cells (m : Memory) (id : Int) : (m.seqKeep id).size = m.size ∧
    (m.head ≤ m.size → (m.seqKeep id).head ≤ m.size) ∧
    ∀ c < m.size, (m.seqKeep id).cells c = (m.cells c).keep id c :=
  sweep_cells (keepTurn_rewrites id) m

theorem seqKeep_lost (m : Memory) (id : Int) : Lost (fun s => (s : Int) ≠ id) m (m.seqKeep id) := by
  obtain ⟨hsize, hhead, hcell⟩ := seqKeep_cells m id
  refine ⟨hsize, hhead, fun s hs hne => ?_, fun s hs hne => ?_, fun c hc s => ?_, fun c hc => ?_,
    fun c hc he _ => ?_⟩
  · rw [hcell s hs, (Cell.keep_fields id s _).1, if_pos hne]
  · rw [hcell s hs, (Cell.keep_fields id s _).1, if_neg hne]
  · rw [hcell c hc, (Cell.keep_fields id c _).2.1]
    split
    · next hhas =>
      obtain ⟨hid, hmem⟩ := hasSeqId_iff.mp hhas
      rw [mem_singleton]
      constructor
      · rintro rfl
        exact ⟨hmem, not_not.mpr (by omega)⟩
      · rintro ⟨-, hs⟩
        omega
    · next hhas =>
      refine iff_of_false (notMem_empty s) ?_
      rintro ⟨hmem, hs⟩
      apply hhas
      rw [hasSeqId_iff]
      have hs' : (s : Int) = id := not_not.mp hs
      exact ⟨by omega, by rwa [show id.toNat = s by omega]⟩
  · rw [hcell c hc, (Cell.keep_fields id c _).2.2.1, (Cell.keep_fields id c _).2.1]
    split
    · exact .inl rfl
    · exact .inr ⟨rfl, rfl⟩
  · rw [hcell c hc, (Cell.keep_fields id c _).2.1] at he
    rw [hcell c hc, (Cell.keep_fields id c _).2.2.1]
    split at he
    · exact absurd he (singleton_ne_empty _)
    · next hhas => exact if_neg hhas

theorem seqKeep_inv (h : Inv m) : Inv (m.seqKeep id) := by
  refine h.lost (seqKeep_lost m id) (fun c hc => ?_) ?_
  · rw [(seqKeep_cells m id).2.2 c hc, (Cell.keep_fields id c _).2.2.2,
      (Cell.keep_fields id c _).2.1]
    split
    · rw [if_neg (singleton_ne_empty _)]
    · rw [if_pos rfl]
  · refine sweep_used (g := fun i x => x.keep id i) (keepTurn_rewrites id) (fun i x he => ?_) h.used
      fun c hc => h.counted hc
    rw [(Cell.keep_fields id i x).2.1, if_neg]
    rw [hasSeqId_iff, he]
    exact fun hn => absurd hn.2 (notMem_empty _)

/-! ## `seq_add` and `seq_div` -/

theorem movePos_inv {f : Int → Int} (h : Inv m)
    (hf : ∀ c < m.size, 0 ≤ (m.cells c).pos → 0 ≤ ((m.movePos id p0 p1 f).cells c).pos) :
    Inv (m.movePos id p0 p1 f) := by
  unfold Memory.movePos at hf ⊢
  dsimp only at hf ⊢
  split
  · exact h
  · rename_i hne
    rw [if_neg hne] at hf
    split
    · rename_i hid
      rw [if_pos hid] at hf
      split
      · exact h
      · rename_i t ht
        rw [ht] at hf
        dsimp only at hf
        split
        · rename_i hin
          rw [if_pos hin] at hf
          have htl := h.tail_lt _ (by omega) t ht
          have hmem := (hasSeqId_iff.mp hin.1).2
          have hpos := hf t htl (h.pos_nonneg htl hmem)
          rw [Memory.modify_cells, if_pos rfl] at hpos
          have hcell : ∀ c, ((m.modify t fun x => { x with pos := f x.pos }).cells c).seqId =
              (m.cells c).seqId ∧ ((m.modify t fun x => { x with pos := f x.pos }).cells c).tail =
              (m.cells c).tail ∧ ((m.modify t fun x => { x with pos := f x.pos }).cells c).src =
              (m.cells c).src := by
            intro c
            rw [Memory.modify_cells]
            split
            · rename_i he
              subst he
              exact ⟨rfl, rfl, rfl⟩
            · exact ⟨rfl, rfl, rfl⟩
          refine ⟨⟨fun s c hc => ?_, fun s hs c hst => ?_, fun c hc => ?_, fun c hc => ?_⟩, ?_,
            h.head, fun c hc => ?_⟩
          · rw [(hcell c).1, (hcell s).2.1]
            exact h.mem_iff s c hc
          · rw [(hcell s).2.1] at hst
            exact h.tail_lt s hs c hst
          · rw [(hcell c).1, Memory.modify_cells]
            split
            · rename_i he
              subst he
              exact iff_of_false (by dsimp only at hpos ⊢; omega) (ne_empty_of_mem hmem)
            · exact h.pos_iff c hc
          · rw [Memory.modify_cells]
            split
            · dsimp only at hpos ⊢
              omega
            · exact h.pos_ge c hc
          · have hcount : (m.modify t fun x => { x with pos := f x.pos }).countUsed = m.countUsed :=
              countUsed_congr rfl fun c _ => by rw [(hcell c).1]
            rw [hcount]
            exact h.used
          · rw [(hcell c).2.2]
            exact h.src c hc
        · exact h
    · exact h

end Llama.Recurrent
