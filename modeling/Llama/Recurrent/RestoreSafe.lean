import Llama.Recurrent.Inv
import Llama.Recurrent.Restore

/-!
# When restoring is safe

Every stream ends in one way as a sequence of cells and states, and `state_read` follows it: it
returns where everything is there, clears and throws where a check fails, and is left as it
stands where the stream ends or a sequence number is beyond the cells.
-/

namespace Llama.Recurrent

open Bytes Wp List

variable {st : Store} {s s' : List UInt8} {x x' : Seen} {tail : Tail} {size i c n w : Nat}
  {taken taken' : Finset Nat}

attribute [local irreducible] wp

section
variable {α : Type} {Q : α → Store × List UInt8 → Prop} {E : Exit → Store × List UInt8 → Prop}

theorem wp_read {Q : List UInt8 → Store × List UInt8 → Prop} {bs : List UInt8}
    (hbs : bs.length = n) (h : Q bs (st, s)) : wp (read n) Q E (st, bs ++ s) := by
  have hrun : read n (st, bs ++ s) = .ok bs (st, s) := by
    subst hbs
    simp [read]
  exact wp_of_ok hrun h

theorem wp_read_short {Q : List UInt8 → Store × List UInt8 → Prop} (hs : s.length < n)
    (h : E .thrown (st, s)) : wp (read n) Q E (st, s) := by
  have hrun : read n (st, s) = .error .thrown (st, s) := by
    rw [read, if_neg (by omega)]
  exact wp_of_error hrun h

theorem wp_readUint {Q : Nat → Store × List UInt8 → Prop} (hn : n < 256 ^ w) (h : Q n (st, s)) :
    wp (readUint w) Q E (st, leBytes w n ++ s) :=
  wp_bind (wp_read (leBytes_length w n) (wp_pure (by rwa [leNat_leBytes_of_lt hn])))

theorem wp_readUint_short {Q : Nat → Store × List UInt8 → Prop} (hs : s.length < w)
    (h : E .thrown (st, s)) : wp (readUint w) Q E (st, s) := wp_bind (wp_read_short hs h)

theorem wp_readInt {Q : Int → Store × List UInt8 → Prop} {z : Int} (hz : FitsInt w z)
    (h : Q z (st, s)) : wp (readInt w) Q E (st, intBytes w z ++ s) :=
  wp_bind (wp_read (intBytes_length w z) (wp_pure (by rwa [signed_leNat_intBytes hz])))

theorem wp_readInt_short {Q : Int → Store × List UInt8 → Prop} (hs : s.length < w)
    (h : E .thrown (st, s)) : wp (readInt w) Q E (st, s) := wp_bind (wp_read_short hs h)

theorem wp_change {Q : Unit → Store × List UInt8 → Prop} {f : Store → Store}
    (h : Q () (f st, s)) : wp (change f) Q E (st, s) := wp_modify h

theorem wp_cellAt {Q : Cell → Store × List UInt8 → Prop} (hc : c < st.memory.size)
    (h : Q (st.memory.cells c) (st, s)) : wp (cellAt c) Q E (st, s) := by
  have hrun : cellAt c (st, s) = .ok (st.memory.cells c) (st, s) := by
    change (if c < st.memory.size then pure (st.memory.cells c) else throw .outOfRange : Io Cell)
      (st, s) = _
    rw [if_pos hc]
    rfl
  exact wp_of_ok hrun h

theorem wp_cellAt_beyond {Q : Cell → Store × List UInt8 → Prop} (hc : st.memory.size ≤ c)
    (h : E .outOfRange (st, s)) : wp (cellAt c) Q E (st, s) := by
  have hrun : cellAt c (st, s) = .error .outOfRange (st, s) := by
    change (if c < st.memory.size then pure (st.memory.cells c) else throw .outOfRange : Io Cell)
      (st, s) = _
    rw [if_neg (by omega)]
    rfl
  exact wp_of_error hrun h

theorem wp_changeCell {Q : Unit → Store × List UInt8 → Prop} {f : Cell → Cell}
    (hc : c < st.memory.size) (h : Q () ({ st with memory := st.memory.modify c f }, s)) :
    wp (changeCell c f) Q E (st, s) := wp_bind (wp_cellAt hc (wp_change h))

end

theorem exists_leBytes (h : w ≤ s.length) : ∃ n s', n < 256 ^ w ∧ s = leBytes w n ++ s' := by
  have hlen : (s.take w).length = w := by rw [length_take]; omega
  have hlt := leNat_lt (s.take w)
  rw [hlen] at hlt
  refine ⟨leNat (s.take w), s.drop w, hlt, ?_⟩
  conv_lhs => rw [← take_append_drop w s, ← leBytes_leNat (s.take w), hlen]

theorem exists_intBytes (h : w ≤ s.length) : ∃ z s', FitsInt w z ∧ s = intBytes w z ++ s' := by
  obtain ⟨n, s', hn, rfl⟩ := exists_leBytes h
  exact ⟨signed w n, s', fitsInt_signed hn, by rw [intBytes_signed hn]⟩

theorem exists_ids (size n : Nat) (taken : Finset Nat) (s : List UInt8) :
    ∃ taken' tail, Ids size taken n s taken' tail := by
  induction n generalizing taken s with
  | zero => exact ⟨_, _, .done taken s⟩
  | succ n ih =>
    by_cases hs : s.length < 4
    · exact ⟨_, _, .short taken n s hs⟩
    · obtain ⟨z, s, hz, rfl⟩ := exists_intBytes (w := 4) (Nat.le_of_not_lt hs)
      by_cases hbad : z < 0 ∨ z.toNat ∈ taken
      · exact ⟨_, _, .refused taken n s z hz hbad⟩
      · rw [not_or] at hbad
        by_cases hlt : z < size
        · obtain ⟨taken', tail, h⟩ := ih (insert z.toNat taken) s
          exact ⟨_, _, .next taken n s z hz (by omega) hlt hbad.2 h⟩
        · exact ⟨_, _, .beyond taken n s z hz (by omega)⟩

theorem exists_cells (size n : Nat) (x : Seen) (s : List UInt8) :
    ∃ x' tail, Cells size x n s x' tail := by
  induction n generalizing x s with
  | zero => exact ⟨_, _, .done x s⟩
  | succ n ih =>
    by_cases hs : s.length < 8
    · exact ⟨_, _, .short x n s hs⟩
    · obtain ⟨pos, s, hpos, rfl⟩ := exists_intBytes (w := 4) (s := s) (by omega)
      rw [length_append, intBytes_length] at hs
      obtain ⟨k, s, hk, rfl⟩ := exists_leBytes (w := 4) (s := s) (by omega)
      obtain ⟨taken', tail, hids⟩ := exists_ids size k x.taken s
      cases tail with
      | read s' =>
        obtain ⟨x', tail, h⟩ := ih ⟨taken', x.blank ∧ pos = -1⟩ s'
        exact ⟨_, _, .next x n s pos k hpos hk hids h⟩
      | refused => exact ⟨_, _, .last x n s pos k hpos hk hids nofun⟩
      | beyond => exact ⟨_, _, .last x n s pos k hpos hk hids nofun⟩
      | short => exact ⟨_, _, .last x n s pos k hpos hk hids nofun⟩

theorem exists_tensors (cellCount : Nat) (ps : List (Nat × Nat)) (s : List UInt8) :
    ∃ tail, Tensors cellCount ps s tail := by
  induction ps generalizing s with
  | nil => exact ⟨_, .done s⟩
  | cons p ps ih =>
    by_cases hs : s.length < 4
    · exact ⟨_, .shortType p ps s hs⟩
    obtain ⟨z, s, hz, rfl⟩ := exists_intBytes (w := 4) (Nat.le_of_not_lt hs)
    by_cases htype : z = p.1
    · subst htype
      by_cases hs : s.length < 8
      · exact ⟨_, .shortSizeRow p ps s hz hs⟩
      obtain ⟨n, s, hn, rfl⟩ := exists_leBytes (w := 8) (Nat.le_of_not_lt hs)
      by_cases hrow : n = p.2
      · subst hrow
        by_cases hs : s.length < cellCount * p.2
        · exact ⟨_, .shortRows p ps s hz hn hs⟩
        · obtain ⟨tail, h⟩ := ih (s.drop (cellCount * p.2))
          have hnext := Tensors.next p ps (s.take (cellCount * p.2)) _ hz hn
            (by rw [length_take]; omega) h
          rw [take_append_drop] at hnext
          exact ⟨_, hnext⟩
      · exact ⟨_, .sizeRow p ps s hz n hn hrow⟩
    · exact ⟨_, .type p ps s z hz htype⟩

theorem exists_data (st : Store) (cellCount : Nat) (s : List UInt8) :
    ∃ tail, Data st cellCount s tail := by
  by_cases hs : s.length < 8
  · exact ⟨_, .short s hs⟩
  · obtain ⟨sTrans, s, hsT, rfl⟩ := exists_leBytes (w := 4) (s := s) (by omega)
    rw [length_append, leBytes_length] at hs
    obtain ⟨nLayer, s, hn, rfl⟩ := exists_leBytes (w := 4) (s := s) (by omega)
    by_cases hbad : nLayer ≠ st.layers.length ∨ sTrans ≠ 0
    · exact ⟨_, .refused s sTrans nLayer hsT hn hbad⟩
    · rw [not_or, not_not, not_not] at hbad
      obtain ⟨rfl, rfl⟩ := hbad
      obtain ⟨tail, h⟩ := exists_tensors cellCount st.tensors s
      exact ⟨_, .tensors s hn h⟩

/-- The program ends as the stream does; where the stream goes on the memory is as in `I`, and
where it is too short as in `J`. -/
def Ends (tail : Tail) (I J : Store → Prop) (prog : Io Bool) (σ : Store × List UInt8) : Prop :=
  wp prog
    (fun res σ' => match tail with
      | .read s' => res = true ∧ σ'.2 = s' ∧ I σ'.1
      | .refused => res = false
      | _ => False)
    (fun e σ' => match tail with
      | .beyond => e = .outOfRange
      | .short => e = .thrown ∧ J σ'.1
      | _ => False) σ

/-- The memory holds what was seen of the stream, and nothing from cell `i` on. -/
structure Filled (ls : List (Option StateLayer)) (size i : Nat) (x : Seen) (st : Store) :
    Prop where
  layers : st.layers = ls
  sized : st.memory.size = size
  head : st.memory.head = 0
  used : st.memory.used = 0
  r : st.r = fun _ _ => 0
  s : st.s = fun _ _ => 0
  src : ∀ c < size, (st.memory.cells c).src = none
  tail : ∀ c < size, ((st.memory.cells c).tail = none ↔ c ∉ x.taken)
  taken : ∀ c ∈ x.taken, c < size
  seqId : x.taken = ∅ → ∀ c < size, (st.memory.cells c).seqId = ∅
  pos : (∀ c < size, (st.memory.cells c).pos = -1) ↔ x.blank
  fresh : ∀ c, i ≤ c → c < size → (st.memory.cells c).pos = -1

variable {ls : List (Option StateLayer)}

/-- The memory is clear exactly when nothing was seen. -/
theorem Filled.cleared_iff (h : Filled ls size i x st) : st.Cleared ↔ x.Nothing := by
  constructor
  · intro hc
    refine ⟨Finset.eq_empty_of_forall_notMem fun c hmem => ?_, h.pos.mp fun c hlt => ?_⟩
    · have hlt := h.taken c hmem
      exact (h.tail c hlt).mp (hc.cells c (by rw [h.sized]; exact hlt)).2.2.1 hmem
    · exact (hc.cells c (by rw [h.sized]; exact hlt)).1
  · rintro ⟨htaken, hblank⟩
    refine ⟨h.head, h.used, fun c hlt => ?_, h.r, h.s⟩
    rw [h.sized] at hlt
    refine ⟨h.pos.mpr hblank c hlt, h.src c hlt, (h.tail c hlt).mpr ?_, h.seqId htaken c hlt⟩
    rw [htaken]
    exact Finset.notMem_empty c

theorem clear_filled (st : Store) : Filled st.layers st.memory.size 0 ⟨∅, True⟩ st.clear := by
  have hcell : ∀ c < st.memory.size, st.clear.memory.cells c =
      { st.memory.cells c with pos := -1, src := none, tail := none, seqId := ∅ } :=
    fun c hc => if_pos hc
  refine ⟨rfl, rfl, rfl, rfl, rfl, rfl, ?_, ?_, by simp, ?_, ?_, ?_⟩
  · intro c hc
    rw [hcell c hc]
  · intro c hc
    rw [hcell c hc]
    simp
  · intro _ c hc
    rw [hcell c hc]
  · refine iff_of_true (fun c hc => ?_) trivial
    rw [hcell c hc]
  · intro c _ hc
    rw [hcell c hc]

theorem clear_cleared (st : Store) : st.clear.Cleared :=
  (clear_filled st).cleared_iff.mpr ⟨rfl, trivial⟩

/-- What a change leaves alone in one cell it leaves alone in all. -/
theorem modify_same {α : Type} (g : Cell → α) {f : Cell → Cell} (hf : ∀ y, g (f y) = g y)
    (m : Memory) (c j : Nat) : g ((m.modify c f).cells j) = g (m.cells j) := by
  rw [Memory.modify_cells]
  split
  · rename_i hj
    rw [hf, hj]
  · rfl

variable {b : Prop} {j cellCount : Nat} {Q : Unit → Store × List UInt8 → Prop}
  {E : Exit → Store × List UInt8 → Prop}

theorem Filled.take {k : Nat} (h : Filled ls size j ⟨taken, b⟩ st) (hk : k < size) :
    Filled ls size j ⟨insert k taken, b⟩ { st with
      memory := (st.memory.modify i fun x => { x with seqId := insert k x.seqId }).modify k
        fun x => { x with tail := some i } } := by
  obtain ⟨m, hm⟩ : ∃ m, m =
    (st.memory.modify i fun x => { x with seqId := insert k x.seqId }).modify
    k fun x => { x with tail := some i } := ⟨_, rfl⟩
  have hpos : ∀ c, (m.cells c).pos = (st.memory.cells c).pos := fun c => by
    rw [hm]
    exact (modify_same Cell.pos (by intro; rfl) ..).trans (modify_same Cell.pos (by intro; rfl) ..)
  have hsrc : ∀ c, (m.cells c).src = (st.memory.cells c).src := fun c => by
    rw [hm]
    exact (modify_same Cell.src (by intro; rfl) ..).trans (modify_same Cell.src (by intro; rfl) ..)
  have htail : ∀ c, (m.cells c).tail = if c = k then some i else (st.memory.cells c).tail :=
    fun c => by
      rw [hm, Memory.modify_cells]
      split
      · rfl
      · exact modify_same Cell.tail (by intro; rfl) ..
  rw [← hm]
  refine ⟨h.layers, by rw [hm]; exact h.sized, by rw [hm]; exact h.head, by rw [hm]; exact h.used,
    h.r, h.s, ?_, ?_, ?_, ?_, ?_, ?_⟩
  · intro c hc
    rw [hsrc, h.src c hc]
  · intro c hc
    rw [htail, Finset.mem_insert]
    split
    · rename_i hck
      simp [hck]
    · rename_i hck
      rw [h.tail c hc]
      simp [hck]
  · intro c hc
    rcases Finset.mem_insert.mp hc with rfl | hc
    · exact hk
    · exact h.taken c hc
  · intro he
    exact absurd he (Finset.insert_ne_empty k taken)
  · simp only [hpos]
    exact h.pos
  · intro c hj hc
    rw [hpos, h.fresh c hj hc]

theorem ids_ends (h : Ids size taken n s taken' tail) (hi : i < size)
    (hst : Filled ls size j ⟨taken, b⟩ st) :
    Ends tail (Filled ls size j ⟨taken', b⟩) (Filled ls size j ⟨taken', b⟩) (readIds i n)
      (st, s) := by
  induction h generalizing st with
  | done taken s => exact wp_pure ⟨rfl, rfl, hst⟩
  | short taken n s h => exact wp_bind (wp_readInt_short h ⟨rfl, hst⟩)
  | refused taken n s z hz h =>
    refine wp_bind (wp_readInt hz (wp_ite (fun _ => wp_pure rfl) fun hneg => ?_))
    have hmem : z.toNat ∈ taken := h.resolve_left hneg
    have hz' := hst.taken _ hmem
    refine wp_bind (wp_changeCell (by rw [hst.sized]; exact hi) ?_)
    refine wp_bind (wp_cellAt (by change _ < st.memory.size; rw [hst.sized]; exact hz') ?_)
    have hsame : ((st.memory.modify i fun y => { y with seqId := insert z.toNat y.seqId }).cells
        z.toNat).tail = (st.memory.cells z.toNat).tail := modify_same Cell.tail (by intro; rfl) ..
    refine wp_ite (fun _ => wp_pure rfl) fun htail => absurd (not_not.mp htail) fun he => ?_
    exact (hst.tail _ hz').mp (hsame.symm.trans he) hmem
  | beyond taken n s z hz h =>
    refine wp_bind (wp_readInt hz (wp_ite (fun _ => by omega) fun hneg => ?_))
    refine wp_bind (wp_changeCell (by rw [hst.sized]; exact hi) ?_)
    refine wp_bind (wp_cellAt_beyond ?_ rfl)
    change st.memory.size ≤ _
    rw [hst.sized]
    omega
  | next taken n s z hz h0 hlt hnew h ih =>
    refine wp_bind (wp_readInt hz (wp_ite (fun _ => by omega) fun hneg => ?_))
    have hz' : z.toNat < size := by omega
    refine wp_bind (wp_changeCell (by rw [hst.sized]; exact hi) ?_)
    refine wp_bind (wp_cellAt (by change _ < st.memory.size; rw [hst.sized]; exact hz') ?_)
    have hsame : ((st.memory.modify i fun y => { y with seqId := insert z.toNat y.seqId }).cells
        z.toNat).tail = (st.memory.cells z.toNat).tail := modify_same Cell.tail (by intro; rfl) ..
    refine wp_ite (fun htail => absurd ?_ htail) fun _ => ?_
    · exact hsame.trans ((hst.tail _ hz').mpr hnew)
    · refine wp_bind (wp_changeCell (by change _ < st.memory.size; rw [hst.sized]; exact hz') ?_)
      exact ih (hst.take hz')

/-- The position of the next cell is entered. -/
theorem Filled.setPos (h : Filled ls size i x st) (hi : i < size) (pos : Int) :
    Filled ls size (i + 1) ⟨x.taken, x.blank ∧ pos = -1⟩
      { st with memory := st.memory.modify i fun y => { y with pos := pos } } := by
  obtain ⟨m, hm⟩ : ∃ m, m = st.memory.modify i fun y => { y with pos := pos } := ⟨_, rfl⟩
  have hpos : ∀ c, (m.cells c).pos = if c = i then pos else (st.memory.cells c).pos := fun c => by
    rw [hm, Memory.modify_cells]
    split <;> rfl
  have hsame : ∀ c, (m.cells c).src = (st.memory.cells c).src ∧
      (m.cells c).tail = (st.memory.cells c).tail ∧
      (m.cells c).seqId = (st.memory.cells c).seqId := fun c => by
    rw [hm]
    exact ⟨modify_same Cell.src (by intro; rfl) .., modify_same Cell.tail (by intro; rfl) ..,
      modify_same Cell.seqId (by intro; rfl) ..⟩
  rw [← hm]
  refine ⟨h.layers, by rw [hm]; exact h.sized, by rw [hm]; exact h.head, by rw [hm]; exact h.used,
    h.r, h.s, ?_, ?_, h.taken, ?_, ?_, ?_⟩
  · intro c hc
    rw [(hsame c).1, h.src c hc]
  · intro c hc
    rw [(hsame c).2.1, h.tail c hc]
  · intro ht c hc
    rw [(hsame c).2.2, h.seqId ht c hc]
  · simp only [hpos]
    constructor
    · intro hall
      refine ⟨h.pos.mp fun c hc => ?_, by simpa using hall i hi⟩
      by_cases hci : c = i
      · exact h.fresh c (le_of_eq hci.symm) hc
      · simpa [hci] using hall c hc
    · rintro ⟨hblank, hp⟩ c hc
      split
      · exact hp
      · exact h.pos.mpr hblank c hc
  · intro c hic hc
    rw [hpos, if_neg (by omega)]
    exact h.fresh c (by omega) hc

theorem Filled.mono (h : Filled ls size i x st) (hij : i ≤ j) : Filled ls size j x st :=
  { h with fresh := fun c hc => h.fresh c (hij.trans hc) }

theorem cells_ends (h : Cells size x n s x' tail) (hi : i + n ≤ size)
    (hst : Filled ls size i x st) :
    Ends tail (Filled ls size size x') (Filled ls size size x') (readCells n i) (st, s) := by
  induction h generalizing st i with
  | done x s => exact wp_pure ⟨rfl, rfl, hst.mono hi⟩
  | short x n s h =>
    refine wp_bind (wp_cellAt (by rw [hst.sized]; omega) ?_)
    by_cases hs : s.length < 4
    · exact wp_bind (wp_readInt_short hs ⟨rfl, hst.mono (by omega)⟩)
    · obtain ⟨pos, s, hpos, rfl⟩ := exists_intBytes (w := 4) (Nat.le_of_not_lt hs)
      rw [length_append, intBytes_length] at h
      refine wp_bind (wp_readInt hpos (wp_bind (wp_readUint_short (by omega) ⟨rfl, ?_⟩)))
      exact hst.mono (by omega)
  | next x n s pos k hpos hk hids h ih =>
    refine wp_bind (wp_cellAt (by rw [hst.sized]; omega) ?_)
    refine wp_bind (wp_readInt hpos (wp_bind (wp_readUint hk ?_)))
    refine wp_bind (wp_changeCell (by rw [hst.sized]; omega) ?_)
    have hids := ids_ends (i := i) hids (by omega) (hst.setPos (by omega) pos)
    refine wp_bind (wp_mono hids ?_ fun _ _ h => h.elim)
    rintro _ ⟨st', s'⟩ ⟨rfl, rfl, hst'⟩
    exact ih (by omega) hst'
  | @last x n s pos k hpos hk taken' tail hids htail =>
    refine wp_bind (wp_cellAt (by rw [hst.sized]; omega) ?_)
    refine wp_bind (wp_readInt hpos (wp_bind (wp_readUint hk ?_)))
    refine wp_bind (wp_changeCell (by rw [hst.sized]; omega) ?_)
    have hids := ids_ends (i := i) hids (by omega) (hst.setPos (by omega) pos)
    cases tail with
    | read s' => exact absurd rfl (htail s')
    | refused =>
      refine wp_bind (wp_mono hids ?_ fun _ _ h => h.elim)
      rintro _ _ rfl
      exact wp_pure rfl
    | beyond => exact wp_bind (wp_mono hids (fun _ _ h => h.elim) fun _ _ h => h)
    | short =>
      refine wp_bind (wp_mono hids (fun _ _ h => h.elim) fun e σ h => ⟨h.1, ?_⟩)
      exact h.2.mono (by omega)

/-- What holds of the memory while the states are read: with cells it is not clear, and without
any it is. -/
structure Loading (ls : List (Option StateLayer)) (size cellCount : Nat) (st : Store) : Prop where
  layers : st.layers = ls
  sized : st.memory.size = size
  used : st.memory.used = cellCount
  clear : cellCount = 0 → st.Cleared

theorem keepStates_wp {is : List Nat} (his : ∀ j ∈ is, j < size) (hst : st.memory.size = size)
    (hhead : st.memory.head = 0)
    (hQ : ∀ m : Memory, m.size = size → m.used = st.memory.used → (is = [] → m = st.memory) →
      Q () ({ st with memory := m }, s)) : wp (keepStates is) Q E (st, s) := by
  induction is generalizing st with
  | nil => exact wp_pure (hQ st.memory hst rfl fun _ => rfl)
  | cons j is ih =>
    obtain ⟨hj, his⟩ := forall_mem_cons.mp his
    refine wp_bind (wp_get (wp_bind (wp_changeCell ?_ (ih his ?_ ?_ ?_))))
    · rw [hhead, hst]
      omega
    · exact hst
    · exact hhead
    · intro m hm hused _
      exact hQ m hm hused nofun

section
variable {cellCount : Nat} {I : Store → Prop}

/-- One tensor: a check fails, the stream is too short, or the rest of it follows. Writing to the
tensor keeps what holds of the memory, and is not done without cells. -/
theorem readTensor_wp {set : Nat → List UInt8 → Store → Store} {p : Nat × Nat}
    {ps : List (Nat × Nat)} (h : Tensors cellCount (p :: ps) s tail) (hst : I st)
    (hset : cellCount ≠ 0 → ∀ bs st, I st → I (set p.2 bs st)) :
    wp (readTensor set cellCount p.1 p.2)
      (fun res σ' => (res = false ∧ tail = .refused) ∨
        (res = true ∧ I σ'.1 ∧ Tensors cellCount ps σ'.2 tail))
      (fun e σ' => e = .thrown ∧ tail = .short ∧ I σ'.1) (st, s) := by
  cases h with
  | shortType _ _ s h => exact wp_bind (wp_readInt_short h ⟨rfl, rfl, hst⟩)
  | type _ _ s z hz h =>
    refine wp_bind (wp_readInt hz ?_)
    rw [if_pos h]
    exact wp_pure (.inl ⟨rfl, rfl⟩)
  | shortSizeRow _ _ s hp h =>
    refine wp_bind (wp_readInt hp ?_)
    rw [if_neg (not_not.mpr rfl)]
    exact wp_bind (wp_readUint_short h ⟨rfl, rfl, hst⟩)
  | sizeRow _ _ s hp n hn h =>
    refine wp_bind (wp_readInt hp ?_)
    rw [if_neg (not_not.mpr rfl)]
    refine wp_bind (wp_readUint hn ?_)
    rw [if_pos h]
    exact wp_pure (.inl ⟨rfl, rfl⟩)
  | shortRows _ _ s hp hn h =>
    refine wp_bind (wp_readInt hp ?_)
    rw [if_neg (not_not.mpr rfl)]
    refine wp_bind (wp_readUint hn ?_)
    rw [if_neg (not_not.mpr rfl)]
    refine wp_ite (fun _ => wp_bind (wp_read_short h ⟨rfl, rfl, hst⟩)) fun h0 => ?_
    rw [not_not.mp h0, Nat.zero_mul] at h
    omega
  | next _ _ bs s hp hn hbs h =>
    refine wp_bind (wp_readInt hp ?_)
    rw [if_neg (not_not.mpr rfl)]
    refine wp_bind (wp_readUint hn ?_)
    rw [if_neg (not_not.mpr rfl)]
    refine wp_ite (fun h0 => ?_) fun h0 => ?_
    · exact wp_bind (wp_read hbs (wp_bind (wp_change (wp_pure (.inr ⟨rfl, hset h0 bs st hst, h⟩)))))
    · rw [not_not.mp h0, Nat.zero_mul, length_eq_zero_iff] at hbs
      subst hbs
      exact wp_pure (.inr ⟨rfl, hst, h⟩)

variable {set : Nat → Nat → List UInt8 → Store → Store}

/-- The tensors of all layers, and what is read behind them. -/
theorem readLayers_wp (part : StateLayer → Nat × Nat) {qs : List (Nat × Nat)}
    (hset : cellCount ≠ 0 → ∀ il sizeRow bs st, I st → I (set il sizeRow bs st))
    (ls : List (Option StateLayer)) (il : Nat) (hst : I st)
    (h : Tensors cellCount (ls.filterMap (Option.map part) ++ qs) s tail) :
    wp (readLayers set part cellCount ls il)
      (fun res σ' => (res = false ∧ tail = .refused) ∨
        (res = true ∧ I σ'.1 ∧ Tensors cellCount qs σ'.2 tail))
      (fun e σ' => e = .thrown ∧ tail = .short ∧ I σ'.1) (st, s) := by
  induction ls generalizing il st s with
  | nil => exact wp_pure (.inr ⟨rfl, hst, h⟩)
  | cons l ls ih =>
    cases l with
    | none => exact ih (il + 1) hst h
    | some l =>
      refine wp_then (readTensor_wp h hst fun h0 => hset h0 il (part l).2) ?_
      rintro _ ⟨st', s'⟩ (⟨rfl, htail⟩ | ⟨rfl, hst', h'⟩)
      · exact wp_pure (.inl ⟨rfl, htail⟩)
      · exact ih (il + 1) hst' h'

/-- Rows that are written are none of the things that are said of a memory with cells. -/
theorem Loading.written (hset : set = Store.setR ∨ set = Store.setS) (h0 : cellCount ≠ 0)
    (il sizeRow : Nat) (bs : List UInt8) (st : Store) (hst : Loading ls size cellCount st) :
    Loading ls size cellCount (set il sizeRow bs st) := by
  rcases hset with rfl | rfl
  · exact ⟨hst.layers, hst.sized, hst.used, fun h => absurd h h0⟩
  · exact ⟨hst.layers, hst.sized, hst.used, fun h => absurd h h0⟩

theorem data_ends {st' : Store} (hst : Loading st.layers size cellCount st')
    (hcount : cellCount ≤ size) (h : Data st cellCount s tail) :
    Ends tail (Loading st.layers size cellCount) (Loading st.layers size cellCount)
      (stateReadData cellCount) (st', s) := by
  rw [stateReadData]
  cases h with
  | short s h =>
    by_cases hs : s.length < 4
    · exact wp_bind (wp_readUint_short hs ⟨rfl, hst⟩)
    · obtain ⟨sTrans, s, hsT, rfl⟩ := exists_leBytes (w := 4) (Nat.le_of_not_lt hs)
      rw [length_append, leBytes_length] at h
      exact wp_bind (wp_readUint hsT (wp_bind (wp_readUint_short (by omega) ⟨rfl, hst⟩)))
  | refused s sTrans nLayer hs hn h =>
    refine wp_bind (wp_readUint hs (wp_bind (wp_readUint hn (wp_bind (wp_get ?_)))))
    refine wp_ite (fun _ => wp_pure rfl) fun hlayers => ?_
    refine wp_ite (fun _ => wp_pure rfl) fun _ => ?_
    refine wp_ite (fun _ => wp_pure rfl) fun hT => absurd (h.resolve_left ?_) hT
    rw [← hst.layers]
    exact hlayers
  | tensors s hn h =>
    refine wp_bind (wp_readUint (by decide) (wp_bind (wp_readUint hn (wp_bind (wp_get ?_)))))
    refine wp_ite (fun he => absurd (congrArg List.length hst.layers.symm) he) fun _ => ?_
    refine wp_ite (fun hlt => absurd hlt (by rw [hst.sized]; omega)) fun _ => ?_
    refine wp_ite (fun he => absurd rfl he) fun _ => ?_
    simp only [hst.layers]
    have hr := readLayers_wp (fun l => (l.rType, l.rSizeRow))
      (Loading.written (.inl rfl)) st.layers 0 hst h
    refine wp_bind (wp_mono hr ?_ ?_)
    · rintro _ ⟨st', s'⟩ (⟨rfl, rfl⟩ | ⟨rfl, hst', h'⟩)
      · exact wp_pure rfl
      · rw [← append_nil (List.filterMap _ _)] at h'
        have hs := readLayers_wp (fun l => (l.sType, l.sSizeRow))
          (Loading.written (.inr rfl)) st.layers 0 hst' h'
        refine wp_mono hs ?_ ?_
        · rintro _ ⟨st'', s''⟩ (⟨rfl, rfl⟩ | ⟨rfl, hst'', h''⟩)
          · rfl
          · cases h''
            exact ⟨rfl, rfl, hst''⟩
        · rintro _ _ ⟨rfl, rfl, hst''⟩
          exact ⟨rfl, hst''⟩
    · rintro _ _ ⟨rfl, rfl, hst'⟩
      exact ⟨rfl, hst'⟩

end

theorem Tensors.ne_beyond {ps : List (Nat × Nat)} (h : Tensors cellCount ps s tail) :
    tail ≠ .beyond := by
  induction h with
  | next _ _ _ _ _ _ _ _ ih => exact ih
  | _ => exact nofun

theorem Data.ne_beyond {cellCount : Nat} (h : Data st cellCount s tail) : tail ≠ .beyond := by
  cases h with
  | tensors _ _ h => exact h.ne_beyond
  | _ => exact nofun

/-- The cells of a stream, from a cleared memory. -/
theorem meta_ends (hle : cellCount ≤ st.memory.size)
    (h : Cells st.memory.size ⟨∅, True⟩ cellCount s x tail) :
    Ends tail (Loading st.layers st.memory.size cellCount) (fun st' => st'.Cleared ↔ x.Nothing)
      (stateReadMeta cellCount) (st, s) := by
  rw [stateReadMeta]
  refine wp_bind (wp_get (wp_ite (fun hlt => ?_) fun _ => wp_bind (wp_change ?_)))
  · exact absurd hlt (Nat.not_lt.mpr hle)
  refine wp_bind (wp_mono (cells_ends (i := 0) h (by omega) (clear_filled st)) ?_ ?_)
  · rintro res ⟨st', s'⟩ hres
    cases tail with
    | read rest =>
      obtain ⟨rfl, rfl, hst'⟩ := hres
      refine wp_ite (fun _ => wp_bind (wp_change (wp_bind ?_))) fun he => absurd rfl he
      have hlt : ∀ j ∈ range cellCount, j < st.memory.size := fun j hj =>
        (mem_range.mp hj).trans_le hle
      refine keepStates_wp hlt ?_ ?_ ?_
      · exact hst'.sized
      · rfl
      · intro m hm hused hnil
        refine wp_pure ⟨rfl, rfl, hst'.layers, hm, hused, fun h0 => ?_⟩
        subst h0
        rw [hnil range_zero]
        cases h
        have hc := hst'.cleared_iff.mpr ⟨rfl, trivial⟩
        exact ⟨rfl, rfl, hc.cells, hc.r, hc.s⟩
    | refused =>
      obtain rfl := hres
      exact wp_ite nofun fun _ => wp_pure rfl
    | beyond => exact hres.elim
    | short => exact hres.elim
  · rintro e ⟨st', s'⟩ he
    cases tail with
    | read rest => exact he.elim
    | refused => exact he.elim
    | beyond => exact he
    | short => exact ⟨he.1, he.2.cleared_iff⟩

theorem wp_clear_throw (h : E .thrown (st.clear, s)) :
    wp (do
      change Store.clear
      throw .thrown) Q E (st, s) := wp_bind (wp_change (wp_of_error rfl h))

section
variable {cellCount : Nat} {data : List UInt8} {Q : Unit → Store × List UInt8 → Prop}
  {E : Exit → Store × List UInt8 → Prop}

section

variable (hcount : cellCount < 256 ^ 4) (hle : cellCount ≤ st.memory.size)
include hcount hle

/-- A stream whose cells are not all there. -/
theorem stateRead_of_cells (h : Cells st.memory.size ⟨∅, True⟩ cellCount s x tail)
    (htail : ∀ s', tail ≠ .read s')
    (hrefused : tail = .refused → ∀ σ : Store × List UInt8, E .thrown (σ.1.clear, σ.2))
    (hbeyond : tail = .beyond → ∀ σ, E .outOfRange σ)
    (hshort : tail = .short → ∀ σ : Store × List UInt8, (σ.1.Cleared ↔ x.Nothing) → E .thrown σ) :
    wp stateRead Q E (st, leBytes 4 cellCount ++ s) := by
  refine wp_bind (wp_readUint hcount (wp_bind (wp_mono (meta_ends hle h) ?_ ?_)))
  · rintro res ⟨st', s'⟩ hres
    cases tail with
    | read rest => exact absurd rfl (htail rest)
    | refused =>
      obtain rfl := hres
      exact wp_bind (wp_pure (wp_ite nofun fun _ => wp_clear_throw (hrefused rfl (st', s'))))
    | beyond => exact hres.elim
    | short => exact hres.elim
  · rintro e ⟨st', s'⟩ he
    cases tail with
    | read rest => exact he.elim
    | refused => exact he.elim
    | beyond =>
      obtain rfl := he
      exact hbeyond rfl _
    | short =>
      obtain ⟨rfl, he⟩ := he
      exact hshort rfl _ he

theorem stateRead_of_data (h : Cells st.memory.size ⟨∅, True⟩ cellCount s x (.read data))
    (hdata : Data st cellCount data tail) (hread : (∃ s', tail = .read s') → ∀ σ, Q () σ)
    (hrefused : tail = .refused → ∀ σ : Store × List UInt8, E .thrown (σ.1.clear, σ.2))
    (hshort : tail = .short → ∀ σ : Store × List UInt8,
      Loading st.layers st.memory.size cellCount σ.1 → E .thrown σ) :
    wp stateRead Q E (st, leBytes 4 cellCount ++ s) := by
  refine wp_bind (wp_readUint hcount (wp_bind (wp_mono (meta_ends hle h) ?_ fun _ _ h => h.elim)))
  rintro _ ⟨st', _⟩ ⟨rfl, rfl, hst'⟩
  refine wp_bind (wp_mono (data_ends hst' hle hdata) ?_ ?_)
  · rintro res ⟨st'', s''⟩ hres
    cases tail with
    | read rest =>
      obtain ⟨rfl, rfl, -⟩ := hres
      exact wp_pure (hread ⟨_, rfl⟩ _)
    | refused =>
      obtain rfl := hres
      exact wp_clear_throw (hrefused rfl (st'', s''))
    | beyond => exact hres.elim
    | short => exact hres.elim
  · rintro e ⟨st'', s''⟩ he
    cases tail with
    | read rest => exact he.elim
    | refused => exact he.elim
    | beyond => exact absurd rfl hdata.ne_beyond
    | short =>
      obtain ⟨rfl, he⟩ := he
      exact hshort rfl _ he

end

end

/-- The memory is restored, or it is clear when `state_read` throws; no index is beyond the
cells. -/
def RestoredSafely (st : Store) (s : List UInt8) : Prop :=
  match stateRead (st, s) with
  | .ok _ _ => True
  | .error .thrown σ => σ.1.Cleared
  | .error .outOfRange _ => False

theorem restoredSafely_of_wp (h : wp stateRead (fun _ _ => True)
    (fun e σ => e = .thrown ∧ σ.1.Cleared) (st, s)) : RestoredSafely st s := by
  unfold RestoredSafely
  cases hrun : stateRead (st, s) with
  | ok a σ => trivial
  | error e σ =>
    obtain ⟨rfl, hσ⟩ := h.error hrun
    exact hσ

theorem not_restoredSafely_of_wp (h : wp stateRead (fun _ _ => False)
    (fun e σ => e = .outOfRange ∨ ¬ σ.1.Cleared) (st, s)) : ¬ RestoredSafely st s := by
  intro hsafe
  unfold RestoredSafely at hsafe
  cases hrun : stateRead (st, s) with
  | ok a σ => exact h.ok hrun
  | error e σ =>
    rw [hrun] at hsafe
    cases e with
    | thrown => exact (h.error hrun).elim nofun fun hσ => hσ hsafe
    | outOfRange => exact hsafe

/-- Restoring is safe exactly where the stream is no hazard. -/
theorem stateRead_safe_iff (st : Store) (s : List UInt8) : RestoredSafely st s ↔ ¬ Hazard st s := by
  constructor
  · intro hsafe hhaz
    refine not_restoredSafely_of_wp ?_ hsafe
    cases hhaz with
    | noCount h hst => exact wp_bind (wp_readUint_short h (.inr hst))
    | beyond cellCount rest hs hcount hle x h =>
      rw [hs]
      exact stateRead_of_cells hcount hle h nofun nofun (fun _ _ => .inl rfl) nofun
    | shortCells cellCount rest hs hcount hle x h hx =>
      rw [hs]
      exact stateRead_of_cells hcount hle h nofun nofun nofun fun _ _ hσ =>
        .inr fun hc => hx (hσ.mp hc)
    | shortData cellCount rest data hs hcount hle hpos x h hdata =>
      rw [hs]
      refine stateRead_of_data hcount hle h hdata nofun nofun fun _ σ hσ => .inr fun hc => ?_
      have := hc.used
      rw [hσ.used] at this
      omega
  · intro hno
    refine restoredSafely_of_wp ?_
    by_cases hs : s.length < 4
    · refine wp_bind (wp_readUint_short hs ⟨rfl, ?_⟩)
      by_contra hst
      exact hno (.noCount hs hst)
    obtain ⟨cellCount, rest, hcount, rfl⟩ := exists_leBytes (w := 4) (Nat.le_of_not_lt hs)
    by_cases hle : cellCount ≤ st.memory.size
    · obtain ⟨x, tail, h⟩ := exists_cells st.memory.size cellCount ⟨∅, True⟩ rest
      by_cases htail : ∃ data, tail = .read data
      · obtain ⟨data, rfl⟩ := htail
        obtain ⟨tail, hdata⟩ := exists_data st cellCount data
        refine stateRead_of_data hcount hle h hdata (fun _ _ => trivial)
          (fun _ σ => ⟨rfl, clear_cleared σ.1⟩) fun hshort σ hσ => ⟨rfl, hσ.clear ?_⟩
        subst hshort
        by_contra hpos
        exact hno (.shortData cellCount rest data rfl hcount hle (by omega) x h hdata)
      · refine stateRead_of_cells hcount hle h (fun s' he => htail ⟨s', he⟩)
          (fun _ σ => ⟨rfl, clear_cleared σ.1⟩) (fun hbeyond => ?_) fun hshort σ hσ => ⟨rfl, ?_⟩
        · subst hbeyond
          exact absurd (.beyond cellCount rest rfl hcount hle x h) hno
        · subst hshort
          rw [hσ]
          by_contra hx
          exact hno (.shortCells cellCount rest rfl hcount hle x h hx)
    · have hlt : st.memory.size < cellCount := Nat.lt_of_not_le hle
      refine wp_bind (wp_readUint hcount (wp_bind ?_))
      rw [stateReadMeta]
      refine wp_bind (wp_get (wp_ite (fun _ => wp_pure ?_) fun hn => absurd hlt hn))
      exact wp_bind (wp_pure (wp_clear_throw ⟨rfl, clear_cleared st⟩))

/-- A memory of one cell that was just made, without layers. -/
def oneCell : Store where
  memory :=
    { size := 1, head := 0, used := 0, n := 0, rsZ := none
      cells := fun _ => { pos := -1, src := none, src0 := none, tail := none, seqId := ∅ } }
  layers := []
  r := fun _ _ => 0
  s := fun _ _ => 0

/-- A cell of sequence 5 is entered in the tail of cell 5, and a stream that ends behind a cell
leaves it in the memory. -/
theorem oneCell_not_safe :
    ¬ RestoredSafely oneCell (leBytes 4 1 ++ (intBytes 4 7 ++ (leBytes 4 1 ++ intBytes 4 5))) ∧
    ¬ RestoredSafely oneCell (leBytes 4 1 ++ (intBytes 4 7 ++ (leBytes 4 1 ++ intBytes 4 0))) := by
  refine ⟨fun h => h, fun h => ?_⟩
  exact absurd h.used (by decide)

end Llama.Recurrent
