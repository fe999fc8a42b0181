import Llama.Recurrent.Tied
import Llama.Lib.Run

/-!
# States follow their sequences

A decoder runs the recurrent memory together with the rows that hold the states. One step is
`find_slot` and the row operations of `build_rs`. Every set of a step reads the state that was
last stored for its first sequence or copied to it, and no other sequence loses its state, as long
as `seq_rm` is not used to remove all sequences at once.
-/

namespace Llama.Recurrent

open List

variable {E S : Type} {m m' : Memory} {zero : S} {R last : Nat → S}

/-- The memory with valid positions and the right count. -/
def Memory.canon (m : Memory) : Memory :=
  { m with
    used := m.countUsed
    cells := fun c => { m.cells c with pos := if (m.cells c).seqId = ∅ then -1 else 0 } }

theorem same_canon (m : Memory) : Same m m.canon :=
  ⟨rfl, rfl, rfl, rfl, fun _ => ⟨rfl, rfl, rfl, rfl⟩⟩

theorem Tied.inv_canon (h : Tied m) : Inv m.canon := by
  refine ⟨⟨fun s c hc => ?_, h.tail_lt, fun c _ => ?_, fun c _ => ?_⟩, rfl, h.head, h.src⟩
  · rw [and_iff_left (Finset.notMem_empty s)]
    exact h.mem_iff s c hc
  · simp only [Memory.canon]
    split
    · next he => exact iff_of_true rfl he
    · next he => exact iff_of_false (by decide) he
  · simp only [Memory.canon]
    split <;> decide

theorem Inv.tied_of_same (h : Inv m') (hs : Same m m') : Tied m := by
  refine ⟨fun s c hc => ?_, fun s hlt c hc => ?_, ?_, fun c hc => ?_⟩
  · rw [← (hs.cell c).seqId, ← (hs.cell s).tail, ← hs.size,
      h.mem_iff s c (by rw [hs.size]; exact hc), and_iff_left (Finset.notMem_empty s)]
  · rw [← (hs.cell s).tail] at hc
    rw [← hs.size] at hlt ⊢
    exact h.tail_lt s hlt c hc
  · rw [← hs.head, ← hs.size]
    exact h.head
  · rw [← (hs.cell c).src]
    exact h.src c (by rw [hs.size]; exact hc)

theorem Same.load (h : Same m m') (c : Nat) : m'.load zero R c = m.load zero R c :=
  load_congr (h.cell c).src

theorem Same.free (h : Same m m') (c : Nat) : m'.Free c ↔ m.Free c := by
  unfold Memory.Free
  rw [h.size]
  simp only [(h.cell _).tail]

theorem Track.same {E : Nat → S} (ht : Track zero R E m') (h : Same m m') : Track zero R E m := by
  refine ⟨fun s hs c hc => ?_, fun s hs hn => ?_, fun c hc hf => ?_⟩
  · rw [← h.load]
    exact ht.tail s (h.size.symm ▸ hs) c ((h.cell s).tail.trans hc)
  · exact ht.none s (h.size.symm ▸ hs) ((h.cell s).tail.trans hn)
  · rw [← h.load]
    exact ht.free c (h.size.symm ▸ hc) ((h.free c).mpr hf)

theorem Same.symm (h : Same m m') : Same m' m :=
  ⟨h.size.symm, h.head.symm, h.n.symm, h.rsZ.symm, fun c =>
    ⟨(h.cell c).src.symm, (h.cell c).src0.symm, (h.cell c).tail.symm, (h.cell c).seqId.symm⟩⟩

theorem Same.readStates (h : Same m m') (i : Nat) :
    m'.readStates zero R i = m.readStates zero R i := by
  simp only [Memory.readStates, Memory.zeroed, Memory.sCopy, h.rsZ, h.head, (h.cell _).src0]

theorem Same.storeStates (h : Same m m') (k : Nat) (stored : Nat → S) :
    m'.storeStates zero R k stored = m.storeStates zero R k stored := by
  funext c
  simp only [Memory.storeStates, h.readStates, h.head, h.n, Memory.zeroed, h.rsZ]

theorem Track.congr {E E' : Nat → S} (h : Track zero R E m) (he : ∀ s < m.size, E s = E' s) :
    Track zero R E' m :=
  ⟨fun s hs c hc => (h.tail s hs c hc).trans (he s hs),
    fun s hs hn => (he s hs).symm.trans (h.none s hs hn), h.free⟩

theorem SetsOk.unplaced {n : Nat} {xs : List SetInfo} (h : SetsOk n xs) :
    SetsOk n (xs.map SetInfo.unplaced) := by
  refine ⟨?_, ?_, ?_, ?_⟩
  · intro hn
    exact h.ne_nil (map_eq_nil_iff.mp hn)
  · intro x hx
    obtain ⟨y, hy, rfl⟩ := mem_map.mp hx
    exact h.ids_ne y hy
  · intro x hx
    obtain ⟨y, hy, rfl⟩ := mem_map.mp hx
    exact h.range y hy
  · rw [pairwise_map]
    exact h.disjoint

theorem placedStates_unplaced (xs : List SetInfo) (stored E : Nat → S) :
    placedStates (xs.map SetInfo.unplaced) stored E = placedStates xs stored E := by
  funext s
  rw [placedStates, placedStates, findIdx?_map]
  rfl

/-- Placing sets, whatever the positions are. -/
theorem Kept.placeSets {xs : List SetInfo} (h : Kept zero R last m) (hxs : SetsOk m.size xs)
    (hrest : ∀ x ∈ xs, ∀ id ∈ x.ids.tail, (m.cells id.toNat).tail = none) :
    ∃ m', m.placeSets xs = some (true, m') ∧ m'.size = m.size ∧
      (∀ i (h : i < xs.length), m'.readStates zero R i = m.expected zero last xs[i].first) ∧
      (∀ s < m.size, (∀ x ∈ xs, s ∉ x.seqs) →
        ((m'.cells s).tail = none ↔ (m.cells s).tail = none)) ∧
      ∀ stored, Kept zero (m'.storeStates zero R xs.length stored)
        (placedStates xs stored last) m' := by
  obtain ⟨c, hc, hinv, hsize, hread, htail, htrack⟩ := placeSets_states h.tied.inv_canon
    hxs.unplaced
    (fun x hx => by
      obtain ⟨y, -, rfl⟩ := mem_map.mp hx
      exact Int.le_refl 0)
    (fun x hx => by
      obtain ⟨y, hy, rfl⟩ := mem_map.mp hx
      exact hrest y hy)
    (h.track.same (same_canon m).symm)
  have hrel := (same_canon m).placeSets xs
  rw [hc] at hrel
  cases hm : m.placeSets xs with
  | none =>
    rw [hm] at hrel
    cases hrel
  | some r =>
    rw [hm] at hrel
    obtain ⟨b, m'⟩ := r
    cases hrel with
    | some hrel =>
      obtain ⟨hb, hsame⟩ := hrel
      obtain rfl : true = b := hb
      have hsize' : m'.size = m.size := hsame.size.symm.trans hsize
      have htail' : ∀ s < m.size, (∀ x ∈ xs, s ∉ x.seqs) →
          ((m'.cells s).tail = none ↔ (m.cells s).tail = none) := by
        intro s hs hno
        rw [← (hsame.cell s).tail]
        apply htail s hs
        intro x hx
        obtain ⟨y, hy, rfl⟩ := mem_map.mp hx
        exact hno y hy
      refine ⟨m', rfl, hsize', fun i hi => ?_, htail', fun stored => ⟨hinv.tied_of_same hsame, ?_⟩⟩
      · rw [← hsame.readStates]
        have := hread i (by rw [length_map]; exact hi)
        rwa [getElem_map] at this
      · have ht := (htrack stored).same hsame
        rw [length_map, hsame.storeStates, placedStates_unplaced] at ht
        apply ht.congr
        intro s hs
        rw [hsize'] at hs
        -- a sequence of the sets has a cell now, any other one has one if it had one
        rw [Memory.expected]
        split
        · next hn => exact ht.none s (hsize'.symm ▸ hs) hn
        · next hn =>
          by_cases hin : ∃ x ∈ xs, s ∈ x.seqs
          · obtain ⟨x, hx, hsx⟩ := hin
            obtain ⟨i, hi, rfl⟩ := getElem_of_mem hx
            rw [placedStates_of_mem hxs.disjoint_seqs hi hsx,
              placedStates_of_mem hxs.disjoint_seqs hi hsx]
          · push Not at hin
            rw [placedStates_of_notMem hin, placedStates_of_notMem hin, Memory.expected,
              if_neg fun hm => hn ((htail' s hs hin).mpr hm)]

/-- A ubatch of a step; no set lists a sequence twice. -/
structure StepOk (n : Nat) (u : Batch.UBatch E) : Prop extends UbatchOk n u where
  /-- The sequences of a set are distinct. -/
  nodup : ∀ x ∈ setsOf u, x.ids.Nodup

/-- The first sequence of a set is not released. -/
theorem StepOk.first_notMem {n : Nat} {u : Batch.UBatch E} (hu : StepOk n u) {x : SetInfo}
    (hx : x ∈ setsOf u) : ∀ y ∈ setsOf u, x.first ∉ y.ids.tail.map Int.toNat := by
  intro y hy hmem
  obtain ⟨id, hid, hfirst⟩ := mem_map.mp hmem
  have hids := hu.sets.ids_ne x hx
  by_cases hxy : y = x
  · subst hxy
    obtain ⟨id0, ids, he⟩ := exists_cons_of_ne_nil hids
    have h0 := hu.sets.range y hx id0 (by rw [he]; exact mem_cons_self)
    have h1 := hu.sets.range y hx id (mem_of_mem_tail hid)
    rw [SetInfo.first, he, headD_cons] at hfirst
    have hnd := hu.nodup y hx
    rw [he] at hnd hid
    obtain rfl : id = id0 := by omega
    exact (nodup_cons.mp hnd).1 hid
  · have hsymm : Std.Symm fun x y : SetInfo => Disjoint x.seqs y.seqs := ⟨fun _ _ hd => hd.symm⟩
    have hdisj := List.Pairwise.forall hu.sets.disjoint_seqs hy hx hxy
    apply Finset.disjoint_left.mp hdisj _ (first_mem_seqs hids)
    exact mem_seqs.mpr ⟨id, mem_of_mem_tail hid, hfirst⟩

theorem Kept.rewind (h : Kept zero R last m) : Kept zero R last { m with head := 0 } :=
  ⟨⟨h.tied.mem_iff, h.tied.tail_lt, Nat.zero_le _, h.tied.src⟩,
    ⟨h.track.tail, h.track.none, h.track.free⟩⟩

/-- `find_slot` reads the right states and keeps the others, whatever the positions are. -/
theorem Kept.findSlot {u : Batch.UBatch E} (h : Kept zero R last m) (hu : StepOk m.size u) :
    ∃ m', m.findSlot u = some (true, m') ∧ m'.size = m.size ∧
      (∀ i (h : i < (setsOf u).length),
        m'.readStates zero R i = m.expected zero last (setsOf u)[i].first) ∧
      (∀ s < m.size, (∀ x ∈ setsOf u, s ∉ x.seqs) →
        ((m'.cells s).tail = none ↔ (m.cells s).tail = none)) ∧
      ∀ stored, Kept zero (m'.storeStates zero R u.nSeqs stored)
        (placedStates (setsOf u) stored last) m' := by
  obtain ⟨m0, hm0, h0, hsize0, htail0⟩ : ∃ m0,
      (if m.used + 2 * u.nSeqs < m.head then { m with head := 0 } else m) = m0 ∧
        Kept zero R last m0 ∧ m0.size = m.size ∧ ∀ s, (m0.cells s).tail = (m.cells s).tail := by
    refine ⟨_, rfl, ?_, ?_, fun s => ?_⟩
    · split
      · exact h.rewind
      · exact h
    · split <;> rfl
    · split <;> rfl
  obtain ⟨m1, h1, hkept1, hsize1, hlater, hnone1, hsame1⟩ :=
    releaseSets_keeps (fun m s hm _ => hm.release s) (setsOf u) m0 h0 (by
      rw [hsize0]
      exact hu.sets.range)
  have hlen : (setsOf u).length = u.nSeqs := by simp [setsOf]
  obtain ⟨m2, h2, hsize2, hread, htail2, hkept2⟩ := hkept1.placeSets
    (by rw [hsize1, hsize0]; exact hu.sets) hlater
  refine ⟨m2, ?_, (hsize2.trans hsize1).trans hsize0, fun i hi => ?_, fun s hs hno => ?_,
    fun stored => ?_⟩
  · rw [Memory.findSlot]
    simp only [hm0, hu.equal, if_true, h1, h2]
  · rw [hread i hi, Memory.expected, Memory.expected,
      hsame1 _ (hu.first_notMem (getElem_mem hi)), htail0]
  · rw [htail2 s (by rw [hsize1, hsize0]; exact hs) hno, hsame1, htail0]
    intro x hx hmem
    obtain ⟨id, hid, rfl⟩ := mem_map.mp hmem
    exact hno x hx (mem_seqs.mpr ⟨id, mem_of_mem_tail hid, rfl⟩)
  · rw [← hlen]
    exact hkept2 stored

/-- The memory, the rows of the states and, for the specification only, the state that was last
stored for each sequence or copied to it. -/
structure Decoder (S : Type) where
  memory : Memory
  rows : Nat → S
  last : Nat → S

/-- An operation on sequences, or a step that stores a new state for each set. -/
inductive Act (E S : Type) where
  | seqRm (id p0 p1 : Int)
  | seqCp (src dst p0 p1 : Int)
  | seqKeep (id : Int)
  | seqAdd (id p0 p1 shift : Int)
  | seqDiv (id p0 p1 d : Int)
  | decode (u : Batch.UBatch E) (stored : Nat → S)

/-- One action; `none` if `find_slot` fails. -/
def Decoder.step (zero : S) (d : Decoder S) : Act E S → Option (Decoder S)
  | .seqRm id p0 p1 => some { d with memory := (d.memory.seqRm id p0 p1).2 }
  | .seqCp src dst _ _ => some { d with
      memory := d.memory.seqCp src dst
      last := inherit d.memory.size d.last src dst }
  | .seqKeep id => some { d with memory := d.memory.seqKeep id }
  | .seqAdd id p0 p1 shift => some { d with memory := d.memory.seqAdd id p0 p1 shift }
  | .seqDiv id p0 p1 k => some { d with memory := d.memory.seqDiv id p0 p1 k }
  | .decode u stored =>
    match d.memory.findSlot u with
    | some (true, m) => some {
        memory := m
        rows := m.storeStates zero d.rows u.nSeqs stored
        last := placedStates (setsOf u) stored d.last }
    | _ => none

/-- Ubatches have equal, disjoint sets with small numbers. -/
def Act.Allowed (d : Decoder S) : Act E S → Prop
  | .decode u _ => StepOk d.memory.size u
  | _ => True

/-- The action does not remove all sequences at once while there are some. -/
def Act.Sound (d : Decoder S) : Act E S → Prop
  | .seqRm id p0 p1 => ¬ d.memory.Strands id p0 p1
  | _ => True

/-- The state of a sequence, if it has a cell. -/
def Decoder.stateOf (zero : S) (d : Decoder S) (s : Nat) : Option S :=
  ((d.memory.cells s).tail).map (d.memory.load zero d.rows)

/-- A step with the ubatch reads the right states and leaves the states of the other sequences. -/
def Decoder.Follows (zero : S) (d : Decoder S) (u : Batch.UBatch E) (stored : Nat → S) : Prop :=
  ∃ d' : Decoder S, d.step zero (.decode u stored) = some d' ∧
    (∀ i (h : i < (setsOf u).length), d'.memory.readStates zero d.rows i =
      d.memory.expected zero d.last (setsOf u)[i].first) ∧
    ∀ s < d.memory.size, (∀ x ∈ setsOf u, s ∉ x.seqs) → d'.stateOf zero s = d.stateOf zero s

/-- The invariant of a decoder. -/
def Decoder.Kept (zero : S) (d : Decoder S) : Prop := Recurrent.Kept zero d.rows d.last d.memory

theorem kept_clear (zero : S) (m : Memory) (R last : Nat → S) :
    Decoder.Kept zero { memory := m.clear, rows := R, last := last } := by
  have hcell : ∀ c < m.size, (m.clear.cells c).tail = none ∧ (m.clear.cells c).src = none := by
    intro c hc
    simp [Memory.clear, hc]
  refine ⟨(clear_inv m).tied_of_same ⟨rfl, rfl, rfl, rfl, fun _ => ⟨rfl, rfl, rfl, rfl⟩⟩,
    ?_, ?_, ?_⟩
  · intro s hs c hc
    rw [(hcell s hs).1] at hc
    cases hc
  · exact fun s _ hn => if_pos hn
  · exact fun c hc _ => load_of_none (hcell c hc).2

/-- Every allowed and sound action keeps the invariant. -/
theorem kept_step {d d' : Decoder S} {a : Act E S} (h : d.Kept zero) (ha : a.Allowed d)
    (hs : a.Sound d) (hstep : d.step zero a = some d') : d'.Kept zero := by
  cases a with
  | seqRm id p0 p1 =>
    cases hstep
    exact h.seqRm hs
  | seqCp src dst p0 p1 =>
    cases hstep
    exact h.seqCp src dst
  | seqKeep id =>
    cases hstep
    exact h.seqKeep id
  | seqAdd id p0 p1 shift =>
    cases hstep
    exact h.seqAdd id p0 p1 shift
  | seqDiv id p0 p1 k =>
    cases hstep
    exact h.seqDiv id p0 p1 k
  | decode u stored =>
    obtain ⟨m', hm', -, -, -, hkept⟩ := Recurrent.Kept.findSlot h ha
    rw [Decoder.step, hm'] at hstep
    cases hstep
    exact hkept stored

theorem Decoder.Kept.stateOf {d : Decoder S} (h : d.Kept zero) {s : Nat} (hs : s < d.memory.size) :
    d.stateOf zero s = if (d.memory.cells s).tail = none then none else some (d.last s) := by
  rw [Decoder.stateOf]
  cases ht : (d.memory.cells s).tail with
  | none => rfl
  | some c =>
    rw [Option.map_some, h.track.tail s hs c ht, Memory.expected, ht,
      if_neg (Option.some_ne_none c), if_neg (Option.some_ne_none c)]

theorem Decoder.Kept.follows {d : Decoder S} {u : Batch.UBatch E} (h : d.Kept zero)
    (hu : StepOk d.memory.size u) (stored : Nat → S) : d.Follows zero u stored := by
  obtain ⟨m', hm', hsize, hread, htail, hkept⟩ := Recurrent.Kept.findSlot h hu
  refine ⟨⟨m', m'.storeStates zero d.rows u.nSeqs stored, placedStates (setsOf u) stored d.last⟩,
    ?_, hread, fun s hs hno => ?_⟩
  · rw [Decoder.step, hm']
  · have hk : Decoder.Kept zero ⟨m', m'.storeStates zero d.rows u.nSeqs stored,
        placedStates (setsOf u) stored d.last⟩ := hkept stored
    rw [hk.stateOf (by rw [hsize]; exact hs), h.stateOf hs]
    simp only [htail s hs hno, placedStates_of_notMem hno]

/-- In every state that a run from the cleared memory reaches with allowed and sound actions,
every step reads the right states and leaves the others. -/
theorem run_follows_sequences (zero : S) (m : Memory) (R last : Nat → S) (as : List (Act E S))
    {d : Decoder S}
    (hok : Run.Meets (Decoder.step zero) (fun d (a : Act E S) => a.Allowed d ∧ a.Sound d)
      { memory := m.clear, rows := R, last := last } as)
    (hrun : Run.exec (Decoder.step zero) { memory := m.clear, rows := R, last := last } as = some d)
    {u : Batch.UBatch E} (hu : StepOk d.memory.size u) (stored : Nat → S) :
    d.Follows zero u stored := by
  have hkept : d.Kept zero := Run.exec_invariant
    (fun d a d' h hP hstep => kept_step h hP.1 hP.2 hstep) (kept_clear zero m R last) hok hrun
  exact hkept.follows hu stored

def tokenOf (s : Nat) : Batch.UBatch Unit :=
  { oneToken with seqId := [[(s : Int)]], seqIdUnq := [s] }

theorem tokenOf_ok {n s : Nat} (h : s < n) : StepOk n (tokenOf s) := by
  refine ⟨⟨rfl, ?_, ?_, ?_, ?_⟩, ?_⟩
  · simp [setsOf, tokenOf, oneToken]
  · simp [setsOf, tokenOf, oneToken]
  · simp [setsOf, tokenOf, oneToken, h]
  · simp [setsOf, tokenOf, oneToken]
  · simp [setsOf, tokenOf, oneToken]

/-- The decoder after an action that succeeds. -/
def Decoder.after (d : Decoder Nat) (a : Act Unit Nat) : Decoder Nat := (d.step 0 a).getD d

theorem Decoder.step_after {d : Decoder Nat} {a : Act Unit Nat} (h : (d.step 0 a).isSome = true) :
    d.step 0 a = some (d.after a) := by
  obtain ⟨d', hd⟩ := Option.isSome_iff_exists.mp h
  rw [Decoder.after, hd]
  rfl

/-- A cleared memory of three cells; the zero state is 0. -/
def threeRows : Decoder Nat where
  memory := { twoCells with size := 3 : Memory }.clear
  rows _ := 4
  last _ := 4

theorem threeRows_decode : threeRows.step 0 (.decode (tokenOf 0) fun _ => 5) =
    some (threeRows.after (.decode (tokenOf 0) fun _ => 5)) :=
  Decoder.step_after (by decide)

/-- A token of sequence 0, and a copy of the sequence. -/
def copyingActs : List (Act Unit Nat) := [.decode (tokenOf 0) fun _ => 5, .seqCp 0 1 0 0]

theorem copyingActs_allowed : Run.Meets (Decoder.step 0)
    (fun d (a : Act Unit Nat) => a.Allowed d ∧ a.Sound d) threeRows copyingActs := by
  refine ⟨⟨tokenOf_ok (by decide), trivial⟩, ?_⟩
  rw [threeRows_decode]
  exact ⟨⟨trivial, trivial⟩, trivial⟩

theorem copyingActs_exec : Run.exec (Decoder.step 0) threeRows copyingActs =
    some ((threeRows.after (.decode (tokenOf 0) fun _ => 5)).after (.seqCp 0 1 0 0)) := by
  rw [copyingActs, Run.exec_cons, threeRows_decode]
  rfl

/-- After a token of sequence 0, a copy of it still reads its state. -/
theorem run_follows_sequences_copy : Decoder.Follows 0
    ((threeRows.after (.decode (tokenOf 0) fun _ => 5)).after (.seqCp 0 1 0 0)) (tokenOf 1)
      fun _ => 6 :=
  run_follows_sequences 0 { twoCells with size := 3 } (fun _ => 4) (fun _ => 4) copyingActs
    copyingActs_allowed copyingActs_exec (tokenOf_ok (by decide)) _

/-- A token of sequence 0, a removal of all sequences, a token of sequence 1, and a copy of
sequence 0 to sequence 2. -/
def strandingActs : List (Act Unit Nat) :=
  [.decode (tokenOf 0) fun _ => 5, .seqRm (-1) (-1) (-1), .decode (tokenOf 1) fun _ => 7,
    .seqCp 0 2 0 0]

/-- The decoder after these actions. -/
def stranded : Decoder Nat := strandingActs.foldl Decoder.after threeRows

/-- The decoder after the removal. -/
def emptied : Decoder Nat :=
  (threeRows.after (.decode (tokenOf 0) fun _ => 5)).after (.seqRm (-1) (-1) (-1))

theorem emptied_decode : emptied.step 0 (.decode (tokenOf 1) fun _ => 7) =
    some (emptied.after (.decode (tokenOf 1) fun _ => 7)) :=
  Decoder.step_after (by decide)

theorem strandingActs_exec : Run.exec (Decoder.step 0) threeRows strandingActs = some stranded := by
  rw [strandingActs, Run.exec_cons, threeRows_decode, Option.bind_some, Run.exec_cons]
  change Run.exec _ emptied _ = _
  rw [Run.exec_cons, emptied_decode]
  rfl

theorem strandingActs_allowed : Run.Meets (Decoder.step 0)
    (fun d (a : Act Unit Nat) => a.Allowed d) threeRows strandingActs := by
  refine ⟨tokenOf_ok (by decide), ?_⟩
  rw [threeRows_decode]
  refine ⟨trivial, ?_⟩
  change Run.Meets _ _ emptied _
  refine ⟨tokenOf_ok (by decide), ?_⟩
  rw [emptied_decode]
  exact ⟨trivial, trivial⟩

/-- After a removal of all sequences the tail of sequence 0 is left, sequence 1 takes its cell, and
a copy of sequence 0 reads the state of sequence 1. -/
theorem stranded_tail_reads_other : ¬ ∀ (m : Memory) (R last : Nat → Nat)
    (as : List (Act Unit Nat)) (d : Decoder Nat) (u : Batch.UBatch Unit) (stored : Nat → Nat),
    Run.Meets (Decoder.step 0) (fun d (a : Act Unit Nat) => a.Allowed d)
      { memory := m.clear, rows := R, last := last } as →
    Run.exec (Decoder.step 0) { memory := m.clear, rows := R, last := last } as = some d →
    StepOk d.memory.size u → d.Follows 0 u stored := by
  intro h
  have hok : StepOk stranded.memory.size (tokenOf 2) := tokenOf_ok (by decide)
  obtain ⟨d', hd', hread, -⟩ := h { twoCells with size := 3 } (fun _ => 4) (fun _ => 4)
    strandingActs stranded (tokenOf 2) (fun _ => 8) strandingActs_allowed strandingActs_exec hok
  have hafter := stranded.step_after (a := .decode (tokenOf 2) fun _ => 8) (by decide)
  rw [hafter, Option.some.injEq] at hd'
  have h0 := hread 0 (by decide)
  rw [← hd'] at h0
  have hseven : (stranded.after (.decode (tokenOf 2) fun _ => 8)).memory.readStates 0
      stranded.rows 0 = 7 := by decide
  have hfive : stranded.memory.expected 0 stranded.last 2 = 5 := by decide
  have heq : (7 : Nat) = 5 := hseven.symm.trans (h0.trans hfive)
  exact absurd heq (by decide)

end Llama.Recurrent
