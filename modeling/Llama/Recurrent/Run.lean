import Llama.Recurrent.Slot

/-!
# Runs of the recurrent memory

The tails and the sets describe the same map in every state that the operations reach from the
cleared memory, as long as `seq_rm` is not used to remove all sequences at once.
-/

namespace Llama.Recurrent

open Option Finset

variable {E : Type}

/-- An operation of the memory. -/
inductive Op (E : Type) where
  | clear
  | seqRm (id p0 p1 : Int)
  | seqCp (src dst p0 p1 : Int)
  | seqKeep (id : Int)
  | seqAdd (id p0 p1 shift : Int)
  | seqDiv (id p0 p1 d : Int)
  | findSlot (u : Batch.UBatch E)

/-- The memory after an operation; `none` if an assertion fails. -/
def Op.apply (m : Memory) : Op E → Option Memory
  | .clear => some m.clear
  | .seqRm id p0 p1 => some (m.seqRm id p0 p1).2
  | .seqCp src dst _ _ => some (m.seqCp src dst)
  | .seqKeep id => some (m.seqKeep id)
  | .seqAdd id p0 p1 shift => some (m.seqAdd id p0 p1 shift)
  | .seqDiv id p0 p1 d => some (m.seqDiv id p0 p1 d)
  | .findSlot u => (m.findSlot u).map Prod.snd

/-- Valid positions stay valid. -/
def KeepsPos (m m' : Memory) : Prop := ∀ c < m.size, 0 ≤ (m.cells c).pos → 0 ≤ (m'.cells c).pos

/-- What callers promise: shifts keep positions valid and ubatches can be placed. -/
def Op.Allowed (m : Memory) : Op E → Prop
  | .seqAdd id p0 p1 shift => KeepsPos m (m.seqAdd id p0 p1 shift)
  | .seqDiv id p0 p1 d => d ≠ 0 ∧ KeepsPos m (m.seqDiv id p0 p1 d)
  | .findSlot u => UbatchOk m.size u
  | _ => True

/-- The operation does not remove all sequences at once while there are some, and brings no
negative position. -/
def Op.Sound (m : Memory) : Op E → Prop
  | .seqRm id p0 p1 => ¬ m.Forgets id p0 p1
  | .findSlot u => ∀ x ∈ setsOf u, 0 ≤ x.lastPos
  | _ => True

/-- The states that operations with a property reach. -/
inductive Reaches (P : Memory → Op E → Prop) (m : Memory) : Memory → Prop
  | refl : Reaches P m m
  | step {m' m'' : Memory} (op : Op E) :
    Reaches P m m' → P m' op → op.apply m' = some m'' → Reaches P m m''

/-- Tails and sets describe the same map, the used cells are those with a position, and they are
counted. -/
structure Memory.Consistent (m : Memory) : Prop where
  tail_iff : ∀ s < m.size, ∀ c, (m.cells s).tail = some c ↔
    c < m.size ∧ s ∈ (m.cells c).seqId ∧ ∀ d < m.size, s ∈ (m.cells d).seqId → d = c
  pos_iff : ∀ c < m.size, (m.cells c).pos = -1 ↔ (m.cells c).seqId = ∅
  used : m.used = m.countUsed

variable {m : Memory}

theorem Inv.consistent (h : Inv m) : m.Consistent where
  tail_iff s hs c := by
    constructor
    · intro ht
      have hc := h.tail_lt s hs c ht
      refine ⟨hc, (h.mem_iff s c hc).mpr ⟨hs, ht, notMem_empty s⟩, fun d hd hmem => ?_⟩
      have := h.tail_of_mem hd hmem
      rw [ht] at this
      exact (some.inj this).symm
    · rintro ⟨hc, hmem, -⟩
      exact h.tail_of_mem hc hmem
  pos_iff := h.pos_iff
  used := h.used

/-- One operation succeeds and keeps the invariant. -/
theorem apply_spec {op : Op E} (h : Inv m) (ha : op.Allowed m) (hs : op.Sound m) :
    ∃ m', op.apply m = some m' ∧ Inv m' := by
  cases op with
  | clear => exact ⟨_, rfl, clear_inv m⟩
  | seqRm id p0 p1 => exact ⟨_, rfl, seqRm_inv h hs⟩
  | seqCp src dst p0 p1 => exact ⟨_, rfl, seqCp_inv h⟩
  | seqKeep id => exact ⟨_, rfl, seqKeep_inv h⟩
  | seqAdd id p0 p1 shift =>
    refine ⟨_, rfl, ?_⟩
    change KeepsPos m (m.seqAdd id p0 p1 shift) at ha
    unfold Memory.seqAdd at ha ⊢
    split
    · exact h
    · rename_i hne
      rw [if_neg hne] at ha
      exact movePos_inv h ha
  | seqDiv id p0 p1 d =>
    refine ⟨_, rfl, ?_⟩
    replace ha : KeepsPos m (m.seqDiv id p0 p1 d) := ha.2
    unfold Memory.seqDiv at ha ⊢
    split
    · exact h
    · rename_i hne
      rw [if_neg hne] at ha
      exact movePos_inv h ha
  | findSlot u =>
    obtain ⟨m', h1, h2, -⟩ := findSlot_spec h ha hs
    exact ⟨m', by rw [Op.apply, h1, map_some], h2⟩

theorem reaches_inv {m' : Memory}
    (h : Reaches (fun m (op : Op E) => op.Allowed m ∧ op.Sound m) m.clear m') : Inv m' := by
  induction h with
  | refl => exact clear_inv m
  | step _ _ hP happly ih =>
    obtain ⟨m1, h1, hinv⟩ := apply_spec ih hP.1 hP.2
    rw [happly, some.injEq] at h1
    rwa [h1]

/-- In every run from the cleared memory whose steps are allowed and sound, the memory is
consistent and `find_slot` returns. -/
theorem reaches_consistent {m m' : Memory}
    (h : Reaches (fun m (op : Op E) => op.Allowed m ∧ op.Sound m) m.clear m') :
    m'.Consistent ∧ ∀ u : Batch.UBatch E, UbatchOk m'.size u → (∀ x ∈ setsOf u, 0 ≤ x.lastPos) →
      ∃ m'', m'.findSlot u = some (true, m'') := by
  have hinv := reaches_inv h
  refine ⟨hinv.consistent, fun u hu hpos => ?_⟩
  obtain ⟨m'', h1, -⟩ := findSlot_spec hinv hu hpos
  exact ⟨m'', h1⟩

def twoCells : Memory where
  size := 2
  head := 0
  used := 0
  n := 0
  rsZ := none
  cells _ := { pos := -1, src := none, src0 := none, tail := none, seqId := ∅ }

/-- One token of sequence 0. -/
def oneToken : Batch.UBatch Unit where
  equalSeqs := true
  nTokens := 1
  nSeqTokens := 1
  nSeqs := 1
  nPos := 1
  token := some [0]
  embd := none
  pos := [0]
  seqId := [[0]]
  seqIdUnq := [0]
  output := [1]

theorem oneToken_ok : UbatchOk 2 oneToken := by
  refine ⟨rfl, by simp [setsOf, oneToken], ?_, ?_, ?_⟩
  · simp [setsOf, oneToken]
  · simp [setsOf, oneToken]
  · simp [setsOf, oneToken]

theorem oneToken_pos : ∀ x ∈ setsOf oneToken, 0 ≤ x.lastPos := by
  simp [setsOf, oneToken]

def afterToken : Memory := ((twoCells.clear.findSlot oneToken).getD (false, twoCells)).2

theorem afterToken_eq : (Op.findSlot oneToken).apply twoCells.clear = some afterToken := by
  have hsome : (twoCells.clear.findSlot oneToken).isSome = true := by decide
  obtain ⟨r, hr⟩ := isSome_iff_exists.mp hsome
  rw [Op.apply, afterToken, hr]
  rfl

/-- A token, a copy of its sequence and a removal of the first one. -/
theorem reaches_consistent_copy : (((afterToken.seqCp 0 1).seqRm 0 (-1) (-1)).2).Consistent :=
  (reaches_consistent (E := Unit) (m := twoCells)
    (.step (.seqRm 0 (-1) (-1)) (.step (.seqCp 0 1 0 0)
      (.step (.findSlot oneToken) .refl ⟨oneToken_ok, oneToken_pos⟩ afterToken_eq)
      ⟨trivial, trivial⟩ rfl)
      ⟨trivial, fun hn => absurd hn.1 (by decide)⟩ rfl)).1

/-- After a removal of all sequences the tail of sequence 0 is left, and the next token of it
fails an assertion. -/
theorem seqRm_all_not_consistent : ∃ m,
    Reaches (fun m (op : Op Unit) => op.Allowed m) twoCells.clear m ∧ ¬ m.Consistent ∧
      UbatchOk m.size oneToken ∧ m.findSlot oneToken = none := by
  refine ⟨(afterToken.seqRm (-1) (-1) (-1)).2,
    .step (.seqRm (-1) (-1) (-1)) (.step (.findSlot oneToken) .refl oneToken_ok afterToken_eq)
      trivial rfl,
    fun hcon => ?_, oneToken_ok, ?_⟩
  · have htail : (((afterToken.seqRm (-1) (-1) (-1)).2).cells 0).tail = some 0 := by decide
    have hempty : (((afterToken.seqRm (-1) (-1) (-1)).2).cells 0).seqId = ∅ := by decide
    have := ((hcon.tail_iff 0 (by decide) 0).mp htail).2.1
    rw [hempty] at this
    exact notMem_empty 0 this
  · have hnone : (((afterToken.seqRm (-1) (-1) (-1)).2).findSlot oneToken).isNone = true := by
      decide
    exact isNone_iff_eq_none.mp hnone

end Llama.Recurrent
