import Llama.Kv.StateTrip
import Llama.Kv.Seat

/-!
# Transfer of one sequence through its saved state

`state_write` of a sequence saves the cells that contain it. `state_read` into a sequence
removes what the destination had, places the saved positions in free cells as an ubatch of
its own and stores the saved rows there. The reader returns before the removal when nothing
was saved.
-/

namespace Llama.Kv

open List

namespace Store

open Llama.Bytes

variable {s : Store} {q : SeqId}

/-- The cells of stream `t` that contain sequence `q`. -/
def held (s : Store) (q : SeqId) (t : Nat) : List Nat :=
  (range (s.cache.cells t).size).filter (selected (s.cache.cells t) (some q))

def Entry.row (e : Entry) : Int × List (List UInt8) × List (List UInt8) := (e.pos, e.kRow, e.vRow)

/-- Positions and rows over the cells that contain sequence `q`. -/
def seqRows (s : Store) (q : SeqId) : Multiset (Int × List (List UInt8) × List (List UInt8)) :=
  ((range s.cache.cfg.nStream).flatMap fun t =>
    (s.held q t).map fun i => (s.entry t i).row : List _)

variable {i t : Nat} {f : Config} {x : Cells} {a b : Store} {qa qb : SeqId}

theorem mem_held (h : s.cache.Inv) (ht : t < s.cache.cfg.nStream) :
    i ∈ s.held q t ↔ i < s.cache.cfg.kvSize ∧ q ∈ ((s.cache.cells t).cell i).seq := by
  have hg := h.cells t ht
  simp only [held, mem_filter, mem_range, hg.size, selected, Cells.isEmpty,
    Cells.seqHas, Bool.and_eq_true, Bool.not_eq_true', beq_eq_false_iff_ne, decide_eq_true_eq]
  constructor
  · rintro ⟨hi, -, hq⟩
    exact ⟨hi, hq⟩
  · rintro ⟨hi, hq⟩
    have := hg.pos_of_mem hi hq
    exact ⟨hi, by omega, hq⟩

theorem held_nodup (s : Store) (q : SeqId) (t : Nat) : (s.held q t).Nodup := nodup_range.filter _

theorem held_length_le (s : Store) (q : SeqId) (t : Nat) :
    (s.held q t).length ≤ (s.cache.cells t).size := by
  have := length_filter_le (selected (s.cache.cells t) (some q)) (range (s.cache.cells t).size)
  rwa [length_range] at this

/-- A sequence has no cell in the stream of another one. -/
theorem held_of_ne (h : s.cache.Inv) (ht : t < s.cache.cfg.nStream)
    (hne : t ≠ s.cache.cfg.seqToStream q) : s.held q t = [] := by
  rw [eq_nil_iff_forall_not_mem]
  intro i hi
  obtain ⟨hlt, hm⟩ := (mem_held h ht).mp hi
  exact hne ((h.cells t ht).home i hlt q hm).2.symm

/-- A sum with a single non-empty part. -/
private theorem flatMap_range_single {α : Type} {f : Nat → List α} {n : Nat} (ht : t < n)
    (h : ∀ k < n, k ≠ t → f k = []) : (range n).flatMap f = f t := by
  induction n with
  | zero => omega
  | succ n ih =>
    rw [range_succ, flatMap_append, flatMap_singleton]
    by_cases he : t = n
    · subst he
      have : (range t).flatMap f = [] := by
        rw [flatMap_eq_nil_iff]
        intro k hk
        have hk := mem_range.mp hk
        exact h k (by omega) (by omega)
      rw [this, nil_append]
    · rw [ih (by omega) fun k hk => h k (by omega), h n (by omega) (Ne.symm he), append_nil]

theorem seqRows_eq (h : s.cache.Inv) (hq : s.cache.cfg.ValidSeq q) : s.seqRows q =
    ((s.held q (s.cache.cfg.seqToStream q)).map fun i =>
      (s.entry (s.cache.cfg.seqToStream q) i).row : List _) := by
  rw [seqRows, flatMap_range_single (h.cfg.seqToStream_lt hq)]
  intro t ht hne
  rw [held_of_ne h ht hne, map_nil]

/-- A sequence has a position exactly when it has a cell in its stream. -/
theorem holds_iff_held (h : s.cache.Inv) (hq : s.cache.cfg.ValidSeq q) :
    (∃ p, s.cache.Holds q p) ↔ s.held q (s.cache.cfg.seqToStream q) ≠ [] := by
  have ht := h.cfg.seqToStream_lt hq
  constructor
  · rintro ⟨p, hp⟩
    obtain ⟨i, hi, hm, -⟩ := (h.holds_iff hq p).mp hp
    rw [(h.cells _ ht).size] at hi
    exact ne_nil_of_mem ((mem_held h ht).mpr ⟨hi, hm⟩)
  · intro hne
    obtain ⟨i, hi⟩ := exists_mem_of_ne_nil _ hne
    obtain ⟨hlt, hm⟩ := (mem_held h ht).mp hi
    exact ⟨_, (h.holds_iff hq _).mpr ⟨i, (h.cells _ ht).lt_size hlt, hm, rfl⟩⟩

theorem reads_any_int (z : Int) (w : Nat) :
    ∃ z', ∀ s, Reads (Reader.int w) (intBytes w z ++ s) z' s :=
  ⟨_, fun s => Reads.bind (Reads.bind (reads_bytes (intBytes_length w z) s) (Reads.pure _ _))
    (Reads.pure _ _)⟩

/-- The sequence written for a cell that contains it. -/
theorem seqIds_one (hq : q ∈ (x.cell i).seq) :
    seqIds f x (some q) i = if q.val < f.nSeqMax then [q] else [] := by
  have hfilter : (finRange maxSeq).filter (fun cur => decide (cur = q)) = [q] := by
    rw [filter_eq]
    simp [count_eq_one_of_mem (nodup_finRange _) (mem_finRange q)]
  split
  · rename_i hlt
    rw [← hfilter]
    apply filter_congr
    intro cur _
    by_cases he : cur = q
    · subst he
      simp [hlt, Cells.seqHas, hq]
    · have hne : ¬ q = cur := fun h' => he h'.symm
      simp [he, hne]
  · rename_i hge
    rw [seqIds, filter_eq_nil_iff]
    intro cur _
    by_cases he : cur = q
    · subst he
      simp [hge]
    · have hne : ¬ q = cur := fun h' => he h'.symm
      simp [hne]

theorem reads_seqCell (hq : q ∈ (x.cell i).seq) (hlt : q.val < f.nSeqMax)
    (hp : FitsInt 4 (x.cell i).pos) (st : List Int × List CellExt) (k : Nat) :
    ∃ e, ∀ rest, Reads (readSeqCell f st k) (writeCell f x (some q) i ++ rest)
      (st.1 ++ [(x.cell i).pos], st.2 ++ [e]) rest := by
  obtain ⟨z, hz⟩ := reads_any_int q.val 4
  obtain ⟨ex, hex⟩ := reads_any_int (x.cell i).ext.x 4
  obtain ⟨ey, hey⟩ := reads_any_int (x.cell i).ext.y 4
  by_cases hn : 1 < f.nPosPerEmbd
  · refine ⟨{ x := ex, y := ey }, fun rest => ?_⟩
    simp only [writeCell, seqIds_one hq, if_pos hlt, if_pos hn, length_singleton,
      flatMap_singleton, append_assoc, readSeqCell]
    apply Reads.bind (reads_int hp _)
    apply Reads.bind (reads_uint (by decide) _)
    apply Reads.bind (reads_check (by decide) _)
    apply Reads.bind (hex _)
    apply Reads.bind (hey _)
    exact Reads.bind (hz _) (Reads.pure _ _)
  · refine ⟨{}, fun rest => ?_⟩
    simp only [writeCell, seqIds_one hq, if_pos hlt, if_neg hn, length_singleton,
      flatMap_singleton, append_assoc, nil_append, readSeqCell]
    apply Reads.bind (reads_int hp _)
    apply Reads.bind (reads_uint (by decide) _)
    apply Reads.bind (reads_check (by decide) _)
    exact Reads.bind (hz _) (Reads.pure _ _)

/-- The positions of the saved cells come back in order. -/
theorem reads_seqCells {l : List Nat} (hq : ∀ i ∈ l, q ∈ (x.cell i).seq) (hlt : q.val < f.nSeqMax)
    (hp : ∀ i ∈ l, FitsInt 4 (x.cell i).pos) : ∃ ext, ∀ rest,
      Reads ((range l.length).foldlM (readSeqCell f) ([], []))
        (l.flatMap (writeCell f x (some q)) ++ rest) (l.map fun i => (x.cell i).pos, ext) rest := by
  obtain ⟨st, hst, hr⟩ := reads_range (f := readSeqCell f) (b := (([], []) : _ × _))
    (e := fun k => writeCell f x (some q) (l.getD k 0))
    (P := fun k st => st.1 = (l.take k).map fun i => (x.cell i).pos) l.length rfl (by
      intro k hk st hst
      have hget : l.getD k 0 = l[k] := getD_eq_getElem _ _ hk
      have hm : l[k] ∈ l := getElem_mem hk
      obtain ⟨e, he⟩ := reads_seqCell (hq _ hm) hlt (hp _ hm) st k
      refine ⟨_, ?_, fun rest => by rw [hget]; exact he rest⟩
      rw [hst, take_add_one, getElem?_eq_getElem hk, map_append]
      rfl)
  rw [take_length] at hst
  refine ⟨st.2, fun rest => ?_⟩
  have hmap : (range l.length).flatMap (fun k => writeCell f x (some q) (l.getD k 0)) =
      l.flatMap (writeCell f x (some q)) := by
    conv_rhs => rw [← map_getD_range l 0]
    rw [flatMap_map]
  rw [← hmap, ← hst]
  exact hr rest

section Transfer

variable {a b : Store} {qa qb : SeqId}

abbrev home (s : Store) (q : SeqId) : Nat := s.cache.cfg.seqToStream q

/-- The cells of a sequence in its stream. -/
abbrev own (s : Store) (q : SeqId) : List Nat := s.held q (s.home q)

/-- The position of one of its cells. -/
abbrev posAt (s : Store) (q : SeqId) (k : Nat) : Int :=
  ((s.cache.cells (s.home q)).cell ((s.own q).getD k 0)).pos

/-- The destination with the rows of the source in the cells of the slot. -/
abbrev stored (a b : Store) (qa qb : SeqId) (c' : Cache) (idxs : List Nat) : Store :=
  storeData a { b with cache := c' } (a.home qa) (a.home qb) (a.own qa) idxs

/-- The ubatch built from the saved positions. -/
theorem seqUbatch_oneSeq (qb : SeqId) {l : List Int} (ext : List CellExt) (hne : l ≠ [])
    (hp : ∀ p ∈ l, 0 ≤ p) : Cache.OneSeq (seqUbatch f qb l.length l ext) qb where
  tokens := length_pos_of_ne_nil hne
  unq := rfl
  seqId _ := rfl
  pos i hi := by
    have hi : i < l.length := hi
    simp only [seqUbatch, if_pos hi, getD_eq_getElem _ _ hi]
    exact hp _ (getElem_mem hi)

/-- What the reader needs of the two caches. -/
structure Ready (a b : Store) (qa qb : SeqId) : Prop where
  typed : a.Typed
  source : a.cache.Inv
  dest : b.cache.Inv
  same : a.SameConfig b
  swa : a.cache.cfg.swaType = .none
  validA : a.cache.cfg.ValidSeq qa
  validB : a.cache.cfg.ValidSeq qb
  room : (a.held qa (a.cache.cfg.seqToStream qa)).length ≤ (b.cache.freeFor qb).length

/-- The store between the metadata and the tensors of a sequence. -/
theorem Ready.sameConfig (h : Ready a b qa qb) {pos : Nat → Int} {idxs : List Nat} {c' : Cache}
    (hseat : Cache.Seated b.cache qb pos idxs c') : a.SameConfig { b with cache := c' } := by
  have hcfg := hseat.cfg.trans h.same.cfg
  refine ⟨hcfg, h.same.vTrans, h.same.layers, fun t ht => ?_⟩
  rw [(h.source.cells t ht).size, (hseat.inv.cells t (by rwa [hcfg])).size, hcfg]

theorem Ready.homeA_lt (h : Ready a b qa qb) : a.home qa < a.cache.cfg.nStream :=
  h.source.cfg.seqToStream_lt h.validA

theorem Ready.homeB_lt (h : Ready a b qa qb) : a.home qb < a.cache.cfg.nStream :=
  h.source.cfg.seqToStream_lt h.validB

variable (h : Ready a b qa qb) (hne : a.own qa ≠ []) (hlt : qa.val < a.cache.cfg.nSeqMax)
include h hne hlt

/-- The metadata of the sequence: its positions are placed in free cells. -/
theorem Ready.reads_meta : ∃ idxs c', Cache.Seated b.cache qb (a.posAt qa) idxs c' ∧
    idxs.length = (a.own qa).length ∧ ∀ rest,
      Reads (readMetaSeq b qb (b.cache.cfg.seqToStream qb) (a.own qa).length)
        ((a.own qa).flatMap
          (writeCell a.cache.cfg (a.cache.cells (a.home qa)) (some qa)) ++ rest)
        ({ b with cache := c' }, idxs) rest := by
  have ht := h.homeA_lt
  have hroom : (a.own qa).length ≤ (b.cache.freeFor qb).length := h.room
  have hg := h.source.cells _ ht
  have hmem := fun i (hi : i ∈ a.own qa) => (mem_held h.source ht).mp hi
  have hpos : ∀ i ∈ a.own qa, 0 ≤ ((a.cache.cells (a.home qa)).cell i).pos :=
    fun i hi => hg.pos_of_mem (hmem i hi).1 (hmem i hi).2
  have hfit : ∀ i ∈ a.own qa, FitsInt 4 ((a.cache.cells (a.home qa)).cell i).pos := by
    intro i hi
    have := hpos i hi
    exact h.typed.pos _ ht i (mem_occupied.mpr ⟨hg.lt_size (hmem i hi).1, by omega⟩)
  unfold posAt
  generalize a.own qa = l at *
  generalize a.cache.cells (a.home qa) = x at *
  obtain ⟨ext, hcells⟩ := reads_seqCells (fun i hi => (hmem i hi).2) hlt hfit
  -- the slot
  have hone := seqUbatch_oneSeq (f := a.cache.cfg) qb
    (l := l.map fun i => (x.cell i).pos) ext (by simpa using hne) (by
      intro p hp
      obtain ⟨i, hi, rfl⟩ := mem_map.mp hp
      exact hpos i hi)
  rw [length_map] at hone
  have hvalid : b.cache.cfg.ValidSeq qb := by
    rw [h.same.cfg]
    exact h.validB
  obtain ⟨si, idxs, hslot, hstrm, hsidx, hlen, hseat⟩ :=
    h.dest.seat hvalid (by rw [h.same.cfg]; exact h.swa) hone hroom
  have hlen : idxs.length = l.length := hlen
  have hix : si.idxsAt 0 = idxs := by rw [SlotInfo.idxsAt, hsidx]; rfl
  have hget : ∀ k < l.length, (seqUbatch a.cache.cfg qb l.length
      (l.map fun i => (x.cell i).pos) ext).pos k = (x.cell (l.getD k 0)).pos := by
    intro k hk
    simp only [seqUbatch, if_pos hk]
    rw [getD_eq_getElem _ _ (by rwa [length_map]), getElem_map, getD_eq_getElem _ _ hk]
  refine ⟨idxs, _, { hseat with inside := fun k hk => ?_ }, hlen, fun rest => ?_⟩
  · obtain ⟨h1, h2⟩ := hseat.inside k hk
    exact ⟨h1, by rw [h2, hget k (by omega)]⟩
  · have hcfg : (b.cache.seqRm (some qb) (-1) (-1)).cfg = a.cache.cfg :=
      (h.dest.seqRm_some hvalid (-1) (-1)).2.1.trans h.same.cfg
    simp only [readMetaSeq, hcfg]
    apply Reads.bind (hcells rest)
    simp only [hslot, Cache.assert_eq, hix, hstrm]
    -- the debug check
    have hall : (range l.length).all (fun i =>
        ((((b.cache.seqRm (some qb) (-1) (-1)).applyUbatch si (seqUbatch a.cache.cfg qb l.length
          (l.map fun i => (x.cell i).pos) ext)).cells (b.cache.cfg.seqToStream qb)).cell
            (idxs.getD i 0)).pos ==
          (seqUbatch a.cache.cfg qb l.length (l.map fun i => (x.cell i).pos) ext).pos i &&
        (((b.cache.seqRm (some qb) (-1) (-1)).applyUbatch si (seqUbatch a.cache.cfg qb l.length
          (l.map fun i => (x.cell i).pos) ext)).cells (b.cache.cfg.seqToStream qb)).seqHas
            (idxs.getD i 0) qb) = true := by
      rw [all_eq_true]
      intro k hk
      have hk : k < idxs.length := by
        rw [hlen]
        exact mem_range.mp hk
      obtain ⟨h1, h2⟩ := hseat.inside k hk
      rw [getD_eq_getElem _ _ hk, h2, Cells.seqHas, decide_eq_true h1, beq_self_eq_true]
      rfl
    rw [hall, hlen]
    simp only [length_singleton, beq_self_eq_true, Bool.and_self, Cache.assert_eq]
    exact Reads.pure _ _

/-- The stream of the sequence: positions and rows go to the cells of the slot. -/
theorem Ready.reads_stream : ∃ idxs c', Cache.Seated b.cache qb (a.posAt qa) idxs c' ∧
    idxs.length = (a.own qa).length ∧ ∀ rest,
      Reads (readStream (some qb) b (a.home qa)) (writeStream a (some qa) (a.home qa) ++ rest)
        (a.stored b qa qb c' idxs) rest := by
  have ht := h.homeA_lt
  have ht' := h.homeB_lt
  have hg := h.source.cells _ ht
  obtain ⟨idxs, c', hseat, hlen, hmeta⟩ := h.reads_meta hne hlt
  refine ⟨idxs, c', hseat, hlen, fun rest => ?_⟩
  have hidx := cellRanges_idxs (a.cache.cells (a.home qa)).size
    (selected (a.cache.cells (a.home qa)) (some qa))
  have hpos : (a.own qa).length ≠ 0 := fun h' => hne (length_eq_zero_iff.mp h')
  have hle := a.held_length_le qa (a.home qa)
  have hcount : cellCount (a.cache.cells (a.home qa)).size
      (selected (a.cache.cells (a.home qa)) (some qa)) = (a.own qa).length := rfl
  have hcells : writeMeta a.cache.cfg (a.cache.cells (a.home qa)) (some qa)
      (cellRanges (a.cache.cells (a.home qa)).size
        (selected (a.cache.cells (a.home qa)) (some qa))) =
      (a.own qa).flatMap
        (writeCell a.cache.cfg (a.cache.cells (a.home qa)) (some qa)) := by
    rw [writeMeta, ← flatMap_assoc, hidx]
    rfl
  simp only [writeStream, hcount, if_neg hpos, hcells, append_assoc]
  have hbound := lt_of_le_of_lt (hg.size ▸ hle) h.typed.kvSize
  apply Reads.bind (reads_uint hbound _)
  simp only [if_neg hpos]
  apply Reads.bind (hmeta _)
  have hsame := h.sameConfig hseat
  simp only [h.same.cfg]
  have hsize := (hsame.size _ ht').trans ((h.source.cells _ ht').size.trans hg.size.symm)
  refine reads_storeData h.typed hsame ht hsize hidx hlen.symm
    (fun i hi => mem_range.mp (mem_filter.mp hi).1) (fun i hi => ?_) hle rest
  rw [hg.size, ← h.same.cfg]
  exact (hseat.free i hi).1

end Transfer

section

variable (h : Ready a b qa qb)
include h

/-- The writer's streams other than that of the sequence. -/
theorem Ready.reads_other {k : Nat} (ht : t < a.cache.cfg.nStream)
    (hno : t = a.home qa → a.own qa = []) (s : Store) (rest : List UInt8) :
    Reads (readStream (some qb) s k) (writeStream a (some qa) t ++ rest) s rest := by
  apply reads_skipped
  by_cases he : t = a.home qa
  · subst he
    exact hno rfl
  · exact held_of_ne h.source ht he

theorem Ready.reads_header {b' : Store}
    (hr : ∀ rest, Reads ((range a.cache.cfg.nStream).foldlM (readStream (some qb)) b)
      ((range a.cache.cfg.nStream).flatMap (writeStream a (some qa)) ++ rest) b' rest)
    (rest : List UInt8) :
    Reads (b.stateRead (some qb)) (a.stateWrite (some qa) ++ rest) b' rest := by
  have hvalid : b.cache.cfg.ValidSeq qb := by
    rw [h.same.cfg]
    exact h.validB
  simp only [stateRead, Cache.assert_eq (decide_eq_true hvalid)]
  simp only [stateWrite, append_assoc, h.same.cfg]
  apply Reads.bind (reads_uint h.typed.nStream _)
  apply Reads.bind (reads_check (by simp) _)
  exact hr rest

/-- Nothing was saved: the destination is not touched. -/
theorem Ready.reads_nothing (hnil : a.own qa = []) (rest : List UInt8) :
    Reads (b.stateRead (some qb)) (a.stateWrite (some qa) ++ rest) b rest := by
  apply h.reads_header
  obtain ⟨b', rfl, hr⟩ := reads_range (f := readStream (some qb)) (e := writeStream a (some qa))
    (P := fun _ s => s = b) (b := b) a.cache.cfg.nStream rfl (by
      rintro k hk s rfl
      exact ⟨s, rfl, h.reads_other hk (fun _ => hnil) s⟩)
  exact hr

/-- The whole state of the sequence is read into the slot. -/
theorem Ready.reads_sequence (hne : a.own qa ≠ []) (hlt : qa.val < a.cache.cfg.nSeqMax) :
    ∃ idxs c', Cache.Seated b.cache qb (a.posAt qa) idxs c' ∧
      idxs.length = (a.own qa).length ∧ ∀ rest,
        Reads (b.stateRead (some qb)) (a.stateWrite (some qa) ++ rest)
          (a.stored b qa qb c' idxs) rest := by
  have ht := h.homeA_lt
  obtain ⟨idxs, c', hseat, hlen, hr⟩ := h.reads_stream hne hlt
  refine ⟨idxs, c', hseat, hlen, h.reads_header ?_⟩
  generalize a.stored b qa qb c' idxs = d at hr ⊢
  obtain ⟨b', hb', hall⟩ := reads_range (f := readStream (some qb)) (e := writeStream a (some qa))
    (P := fun k s => s = if k ≤ a.home qa then b else d) (b := b)
    a.cache.cfg.nStream (if_pos (Nat.zero_le _)).symm (by
      intro k hk s hs
      rcases Nat.lt_trichotomy k (a.home qa) with hkt | hkt | hkt
      · rw [if_pos (by omega)] at hs
        rw [if_pos (by omega)]
        subst hs
        exact ⟨s, rfl, h.reads_other hk (fun he => by omega) s⟩
      · rw [if_pos (by omega)] at hs
        rw [if_neg (by omega), hkt, hs]
        exact ⟨d, rfl, hr⟩
      · rw [if_neg (by omega)] at hs
        rw [if_neg (by omega)]
        subst hs
        exact ⟨s, rfl, h.reads_other hk (fun he => by omega) s⟩)
  rw [if_neg (by omega)] at hb'
  rwa [hb'] at hall

/-- A sequence that the writer does not name is rejected. -/
theorem Ready.read_fails (hne : a.own qa ≠ []) (hge : a.cache.cfg.nSeqMax ≤ qa.val)
    (rest : List UInt8) : b.stateRead (some qb) (a.stateWrite (some qa) ++ rest) = none := by
  have ht := h.homeA_lt
  have hg := h.source.cells _ ht
  have hcount : cellCount (a.cache.cells (a.home qa)).size
      (selected (a.cache.cells (a.home qa)) (some qa)) = (a.own qa).length := rfl
  have hpos : (a.own qa).length ≠ 0 := fun h' => hne (length_eq_zero_iff.mp h')
  -- the first saved cell
  have hcell : ∀ rest, readSeqCell a.cache.cfg ([], []) 0
      (writeMeta a.cache.cfg (a.cache.cells (a.home qa)) (some qa)
        (cellRanges (a.cache.cells (a.home qa)).size
          (selected (a.cache.cells (a.home qa)) (some qa))) ++ rest) = none := by
    intro rest
    rw [writeMeta, ← flatMap_assoc, cellRanges_idxs]
    change readSeqCell a.cache.cfg ([], []) 0 ((a.own qa).flatMap _ ++ rest) = none
    obtain ⟨i, l, hl⟩ := exists_cons_of_ne_nil hne
    have hi := (mem_held (i := i) h.source ht).mp (hl ▸ mem_cons_self)
    have hnn := hg.pos_of_mem hi.1 hi.2
    have hfit := h.typed.pos _ ht i (mem_occupied.mpr ⟨hg.lt_size hi.1, by omega⟩)
    rw [hl, flatMap_cons]
    simp only [writeCell, seqIds_one hi.2, if_neg (Nat.not_lt.mpr hge), length_nil, append_assoc]
    apply (reads_int hfit _).bind_fails
    apply (reads_uint (by decide) _).bind_fails
    exact bind_fails rfl
  -- the stream of the sequence
  have hstream : ∀ rest, readStream (some qb) b (a.home qa)
      (writeStream a (some qa) (a.home qa) ++ rest) = none := by
    intro rest
    have hle := a.held_length_le qa (a.home qa)
    rw [hg.size] at hle
    have hlt := lt_of_le_of_lt hle h.typed.kvSize
    obtain ⟨n, hn⟩ := Nat.exists_eq_succ_of_ne_zero hpos
    have hcfg : (b.cache.seqRm (some qb) (-1) (-1)).cfg = a.cache.cfg := by
      refine (h.dest.seqRm_some ?_ (-1) (-1)).2.1.trans h.same.cfg
      rw [h.same.cfg]
      exact h.validB
    simp only [writeStream, hcount, if_neg hpos, append_assoc]
    apply (reads_uint hlt _).bind_fails
    simp only [if_neg hpos]
    apply bind_fails
    simp only [readMetaSeq, hcfg, hn, range_succ_eq_map, foldlM_cons]
    apply bind_fails
    exact bind_fails (hcell _)
  -- the streams before it are skipped
  have hvalid : b.cache.cfg.ValidSeq qb := by
    rw [h.same.cfg]
    exact h.validB
  obtain ⟨m, hm⟩ : ∃ m, a.cache.cfg.nStream = a.home qa + (m + 1) :=
    ⟨a.cache.cfg.nStream - a.home qa - 1, by omega⟩
  obtain ⟨b', rfl, hr⟩ := reads_range (f := readStream (some qb)) (e := writeStream a (some qa))
    (P := fun _ s => s = b) (b := b) (a.home qa) rfl (by
      rintro k hk s rfl
      exact ⟨s, rfl, h.reads_other (by omega) (fun he => by omega) s⟩)
  simp only [stateRead, Cache.assert_eq (decide_eq_true hvalid)]
  simp only [stateWrite, append_assoc, h.same.cfg]
  apply (reads_uint h.typed.nStream _).bind_fails
  apply (reads_check (by simp) _).bind_fails
  rw [hm, range_add, foldlM_append, flatMap_append, append_assoc]
  apply (hr _).bind_fails
  rw [range_succ_eq_map, map_cons, foldlM_cons, flatMap_cons, append_assoc, Nat.add_zero]
  exact bind_fails (hstream _)

end

/-- `b'` is `b` with the content of `qa` in `a` as its sequence `qb`. -/
structure Moved (a b : Store) (qa qb : SeqId) (b' : Store) : Prop where
  clean : b'.cache.Clean
  rows : b'.seqRows qb = a.seqRows qa
  /-- A cell of another sequence keeps its position, its rows and its other sequences. -/
  other : ∀ t < b.cache.cfg.nStream, ∀ i < (b.cache.cells t).size, ∀ q ≠ qb,
    q ∈ ((b.cache.cells t).cell i).seq → (b'.entry t i).row = (b.entry t i).row ∧
      ∀ r ≠ qb, r ∈ ((b'.cache.cells t).cell i).seq ↔ r ∈ ((b.cache.cells t).cell i).seq

/-- `state_write` of `qa` in `a` and `state_read` into `qb` of `b` move the sequence. -/
def Transfers (a b : Store) (qa qb : SeqId) : Prop :=
  ∃ b', (∀ rest, Reads (b.stateRead (some qb)) (a.stateWrite (some qa) ++ rest) b' rest) ∧
    Moved a b qa qb b'

/-- When the saved state is enough: there is something to save, under an id that the writer
names, and the removal reaches every cell of the destination; or nothing on both sides. -/
def Transferable (a b : Store) (qa qb : SeqId) : Prop :=
  ((∃ p, a.cache.Holds qa p) ∧ qa.val < a.cache.cfg.nSeqMax ∧
      ∀ p, b.cache.Holds qb p → p < posMax) ∨
    (∀ p, ¬ a.cache.Holds qa p) ∧ ∀ p, ¬ b.cache.Holds qb p

section Result

variable {a b : Store} {qa qb : SeqId} {idxs : List Nat} {c' : Cache}
  (h : Ready a b qa qb)
  (hseat : Cache.Seated b.cache qb (a.posAt qa) idxs c')
include h hseat

variable {i : Nat}

/-- The destination has the cells of the slot, and no other when the removal was complete. -/
theorem Ready.mem_seq_after (hi : i < b.cache.cfg.kvSize) :
    qb ∈ ((c'.cells (a.home qb)).cell i).seq ↔
      i ∈ idxs ∨ (qb ∈ ((b.cache.cells (a.home qb)).cell i).seq ∧
        posMax ≤ ((b.cache.cells (a.home qb)).cell i).pos) := by
  have ht' := h.homeB_lt
  by_cases hm : i ∈ idxs
  · obtain ⟨k, hk, rfl⟩ := getElem_of_mem hm
    have hin := (hseat.inside k hk).1
    rw [h.same.cfg] at hin
    exact ⟨fun _ => .inl hm, fun _ => hin⟩
  · have hout := (hseat.outside (a.home qb) (by rwa [h.same.cfg]) i hi (fun _ => hm) qb).1
    rw [hout]
    constructor
    · rintro ⟨hq, hp⟩
      refine .inr ⟨hq, ?_⟩
      by_contra hlt
      exact hp ⟨rfl, by omega⟩
    · rintro (hm' | ⟨hq, hp⟩)
      · exact absurd hm' hm
      · refine ⟨hq, ?_⟩
        rintro ⟨-, hle⟩
        omega

/-- The rows of the destination afterwards, in its own stream. -/
theorem Ready.seqRows_after : (a.stored b qa qb c' idxs).seqRows qb =
    (((a.stored b qa qb c' idxs).held qb (a.home qb)).map fun i => ((a.stored b qa qb c' idxs).entry
            (a.home qb) i).row : List _) := by
  have hcfg : (a.stored b qa qb c' idxs).cache.cfg = a.cache.cfg := hseat.cfg.trans h.same.cfg
  have hrows := seqRows_eq (s := a.stored b qa qb c' idxs) (q := qb)
    hseat.inv (by rw [hcfg]; exact h.validB)
  rwa [hcfg] at hrows

theorem Ready.mem_held_after : i ∈ (a.stored b qa qb c' idxs).held qb (a.home qb) ↔
      i ∈ idxs ∨ (i < b.cache.cfg.kvSize ∧
        qb ∈ ((b.cache.cells (a.home qb)).cell i).seq ∧
        posMax ≤ ((b.cache.cells (a.home qb)).cell i).pos) := by
  have ht' := h.homeB_lt
  have hcfg := hseat.cfg
  have hheld := mem_held (s := a.stored b qa qb c' idxs) (i := i) (q := qb)
    (t := a.home qb) hseat.inv (by
      change a.home qb < c'.cfg.nStream
      rwa [hcfg, h.same.cfg])
  rw [hheld]
  change i < c'.cfg.kvSize ∧ qb ∈ ((c'.cells (a.home qb)).cell i).seq ↔ _
  rw [hcfg]
  constructor
  · rintro ⟨hi, hq⟩
    rcases (h.mem_seq_after hseat hi).mp hq with hm | hrest
    · exact .inl hm
    · exact .inr ⟨hi, hrest⟩
  · rintro (hm | ⟨hi, hrest⟩)
    · have hi := (hseat.free i hm).1
      exact ⟨hi, (h.mem_seq_after hseat hi).mpr (.inl hm)⟩
    · exact ⟨hi, (h.mem_seq_after hseat hi).mpr (.inr hrest)⟩

/-- The cells of the destination afterwards are those of the slot. -/
theorem Ready.held_perm (hp : ∀ p, b.cache.Holds qb p → p < posMax) :
    ((a.stored b qa qb c' idxs).held qb (a.home qb)).Perm idxs := by
  have ht' := h.homeB_lt
  rw [perm_ext_iff_of_nodup (held_nodup _ _ _) hseat.nodup]
  intro i
  rw [h.mem_held_after hseat]
  apply or_iff_left
  rintro ⟨hi, hq, hge⟩
  have ht : a.home qb < b.cache.cfg.nStream := by rwa [h.same.cfg]
  have := hp _ ⟨_, ht, i, (h.dest.cells _ ht).lt_size hi, hq, rfl⟩
  omega

/-- A cell that the removal does not reach is one too many. -/
theorem Ready.held_length_lt (hi : i < b.cache.cfg.kvSize)
    (hq : qb ∈ ((b.cache.cells (a.home qb)).cell i).seq)
    (hp : posMax ≤ ((b.cache.cells (a.home qb)).cell i).pos) :
    idxs.length < ((a.stored b qa qb c' idxs).held qb (a.home qb)).length := by
  have hno : i ∉ idxs := by
    intro hm
    have hfree := (hseat.free i hm).2
    rw [h.same.cfg] at hfree
    rcases hfree with hp' | ⟨-, hp'⟩
    · rw [hp'] at hp
      contradiction
    · exact absurd hp' (Int.not_lt.mpr hp)
  have hsub : i :: idxs ⊆ (a.stored b qa qb c' idxs).held qb (a.home qb) := by
    intro j hj
    rw [h.mem_held_after hseat]
    rcases mem_cons.mp hj with rfl | hj
    · exact .inr ⟨hi, hq, hp⟩
    · exact .inl hj
  have hnd : (i :: idxs).Nodup := nodup_cons.mpr ⟨hno, hseat.nodup⟩
  exact (subperm_of_subset hnd hsub).length_le

variable (hlen : idxs.length = (a.own qa).length)
include hlen

/-- The cells of the slot have the rows of the source, in order. -/
theorem Ready.rows_inside :
    (idxs.map fun i => ((a.stored b qa qb c' idxs).entry (a.home qb) i).row) =
    (a.own qa).map fun i => (a.entry (a.home qa) i).row := by
  have ht := h.homeA_lt
  have ht' := h.homeB_lt
  have hsame := h.sameConfig hseat
  have hg := h.source.cells _ ht
  have hsize := (hsame.size _ ht').trans ((h.source.cells _ ht').size.trans hg.size.symm)
  apply ext_getElem
  · rw [length_map, length_map, hlen]
  · intro k hk hk'
    rw [length_map] at hk hk'
    rw [getElem_map, getElem_map]
    have hrows := storeData_rows hsame hsize hseat.nodup hlen.symm (by
      intro i hi
      have := (hseat.free i hi).1
      rw [h.same.cfg] at this
      rwa [hg.size]) hk' hk
    have hpos := (hseat.inside k hk).2
    rw [h.same.cfg, posAt, getD_eq_getElem _ _ hk'] at hpos
    rw [Entry.row, Entry.row, hrows.1, hrows.2]
    exact Prod.ext hpos rfl

/-- A cell of another sequence is not in the slot. -/
theorem Ready.other_kept (ht : t < b.cache.cfg.nStream) (hi : i < (b.cache.cells t).size)
    (hne : q ≠ qb) (hq : q ∈ ((b.cache.cells t).cell i).seq) :
    ((a.stored b qa qb c' idxs).entry t i).row = (b.entry t i).row ∧
      ∀ r ≠ qb, r ∈ ((c'.cells t).cell i).seq ↔ r ∈ ((b.cache.cells t).cell i).seq := by
  have hta := h.homeA_lt
  have htb := h.homeB_lt
  have hsame := h.sameConfig hseat
  have hg := h.source.cells _ hta
  have hgt := h.dest.cells t ht
  rw [hgt.size] at hi
  have hno : t = b.cache.cfg.seqToStream qb → i ∉ idxs := by
    rintro rfl hm
    rcases (hseat.free i hm).2 with hp | ⟨hs, -⟩
    · have := hgt.pos_of_mem hi hq
      omega
    · rw [hs, Finset.mem_singleton] at hq
      exact hne hq
  have hout := hseat.outside t ht i hi hno
  have hsize := (hsame.size _ htb).trans ((h.source.cells _ htb).size.trans hg.size.symm)
  have hkeep := storeData_rows_of_notMem hsame hsize hseat.nodup hlen.symm (by
    intro i hi
    have := (hseat.free i hi).1
    rw [h.same.cfg] at this
    rwa [hg.size]) (u := t) (i := i) (by
      rw [(hseat.inv.cells t (by rwa [hseat.cfg])).size, hseat.cfg]
      exact hi) (by rwa [h.same.cfg] at hno)
  have hseq : ∀ r ≠ qb, r ∈ ((c'.cells t).cell i).seq ↔ r ∈ ((b.cache.cells t).cell i).seq := by
    intro r hr
    rw [(hout r).1]
    exact and_iff_left fun he => hr he.1
  refine ⟨?_, hseq⟩
  have hpos := (hout q).2 ((hseq q hne).mpr hq)
  have hv : (Store.entry { b with cache := c' } t i).vRow = (b.entry t i).vRow := by
    simp only [entry, hgt.size, (hseat.inv.cells t (by rwa [hseat.cfg])).size, hseat.cfg]
  rw [Entry.row, Entry.row, hkeep.1, hkeep.2, hv]
  exact Prod.ext hpos rfl

end Result

section Iff

variable {a b : Store} {qa qb : SeqId} (h : Ready a b qa qb)
include h

theorem Ready.validDest : b.cache.cfg.ValidSeq qb := by
  rw [h.same.cfg]
  exact h.validB

/-- A sequence without position has no rows. -/
theorem Ready.seqRows_source : a.seqRows qa = 0 ↔ a.own qa = [] := by
  rw [seqRows_eq h.source h.validA, Multiset.coe_eq_zero, map_eq_nil_iff]

theorem Ready.seqRows_dest : b.seqRows qb = 0 ↔ b.held qb (b.cache.cfg.seqToStream qb) = [] := by
  rw [seqRows_eq h.dest h.validDest, Multiset.coe_eq_zero, map_eq_nil_iff]

theorem Ready.transfers_of_transferable (ht : Transferable a b qa qb) : Transfers a b qa qb := by
  rcases ht with ⟨hsome, hlt, hp⟩ | ⟨hnone, hnone'⟩
  · rw [holds_iff_held h.source h.validA] at hsome
    obtain ⟨idxs, c', hseat, hlen, hr⟩ := h.reads_sequence hsome hlt
    refine ⟨_, hr, hseat.inv.clean, ?_, fun t ht i hi q hne hq => ?_⟩
    · have hperm := h.held_perm hseat hp
      have hrows := h.rows_inside hseat hlen
      rw [seqRows_eq h.source h.validA, ← hrows, h.seqRows_after hseat]
      exact Multiset.coe_eq_coe.mpr (hperm.map _)
    · exact h.other_kept hseat hlen ht hi hne hq
  · have hnil : a.own qa = [] := by
      by_contra hne
      obtain ⟨p, hp⟩ := (holds_iff_held h.source h.validA).mpr hne
      exact hnone p hp
    have hnil' : b.held qb (b.cache.cfg.seqToStream qb) = [] := by
      by_contra hne
      obtain ⟨p, hp⟩ := (holds_iff_held h.dest h.validDest).mpr hne
      exact hnone' p hp
    refine ⟨b, h.reads_nothing hnil, h.dest.clean, ?_, fun t _ i _ q _ _ =>
      ⟨rfl, fun r _ => Iff.rfl⟩⟩
    rw [h.seqRows_source.mpr hnil, h.seqRows_dest.mpr hnil']

theorem Ready.transferable_of_transfers (ht : Transfers a b qa qb) : Transferable a b qa qb := by
  obtain ⟨b', hr, hmoved⟩ := ht
  by_cases hnil : a.own qa = []
  · right
    obtain rfl := (Reads.unique (hr []) (h.reads_nothing hnil [])).1
    have hrows := hmoved.rows
    rw [h.seqRows_source.mpr hnil, h.seqRows_dest] at hrows
    constructor
    · intro p hp
      exact (holds_iff_held h.source h.validA).mp ⟨p, hp⟩ hnil
    · intro p hp
      exact (holds_iff_held h.dest h.validDest).mp ⟨p, hp⟩ hrows
  · left
    have hlt : qa.val < a.cache.cfg.nSeqMax := by
      by_contra hge
      have hfail := h.read_fails hnil (Nat.le_of_not_lt hge) []
      have hread : b.stateRead (some qb) (a.stateWrite (some qa) ++ []) = some (b', []) := hr []
      rw [hfail] at hread
      contradiction
    refine ⟨(holds_iff_held h.source h.validA).mpr hnil, hlt, fun p hp => ?_⟩
    by_contra hge
    obtain ⟨idxs, c', hseat, hlen, hr'⟩ := h.reads_sequence hnil hlt
    obtain ⟨i, hi, hq, rfl⟩ := (h.dest.holds_iff h.validDest p).mp hp
    rw [h.same.cfg] at hi hq hge
    rw [(h.dest.cells _ (h.dest.cfg.seqToStream_lt h.validDest |> (h.same.cfg ▸ ·))).size] at hi
    have hmore := h.held_length_lt hseat hi hq (Int.not_lt.mp hge)
    have hrows := hmoved.rows
    rw [(Reads.unique (hr []) (hr' [])).1, h.seqRows_after hseat,
      seqRows_eq h.source h.validA] at hrows
    have hcard := congrArg Multiset.card hrows
    simp only [Multiset.coe_card, length_map] at hcard
    exact hmore.ne (hlen.trans hcard.symm)

end Iff

/-- The state of a sequence moves to the destination exactly when there is something to save
under a saved id and the removal of the destination is complete, or nothing on either side.
On contiguous cells, the copy in one piece stores what the copies of single rows store, also
in a transposed tensor. -/
theorem seq_transfer_iff (a b : Store) (qa qb : SeqId) (h : Ready a b qa qb) :
    (Transfers a b qa qb ↔ Transferable a b qa qb) ∧
      (∀ (w base : Nat) (idxs : List Nat) (src : List UInt8) (m : Nat → UInt8),
        isContiguous idxs = true → src.length = idxs.length * w →
        idxs.zipIdx.foldl (fun m p => blit m ((p.1 + base) * w) ((src.drop (p.2 * w)).take w)) m =
          blit m ((idxs.headD 0 + base) * w) src) ∧
      (a.vTrans = true → ∀ ly ∈ a.layers, ∀ v ∈ ly.v, ∀ j < v.nEmbd, ∀ (idxs : List Nat)
        (src : List UInt8) (m : Nat → UInt8), (∀ i ∈ idxs, i < a.cache.cfg.kvSize) →
        isContiguous idxs = true → src.length = idxs.length * v.sizeEl →
        idxs.zipIdx.foldl (fun m p => blit m (word32 (p.1 + j * a.cache.cfg.kvSize) * v.sizeEl)
            ((src.drop (p.2 * v.sizeEl)).take v.sizeEl)) m =
          blit m (word32 (idxs.headD 0 + j * a.cache.cfg.kvSize) * v.sizeEl) src) := by
  refine ⟨⟨h.transferable_of_transfers, h.transfers_of_transferable⟩,
    fun _ _ _ _ m hc hlen => (blit_eq_scatter hc hlen m).symm, ?_⟩
  intro hvt ly hly v hv j hj idxs src m hidxs hc hlen
  have hword : ∀ i ∈ idxs, word32 (i + j * a.cache.cfg.kvSize) = i + j * a.cache.cfg.kvSize :=
    fun i hi => word32_element (hidxs i hi) hj (h.typed.vOffset hvt ly hly v hv).1
  rw [scatter_word32 hword, blit_word32 hword hc hlen]

/-- One token of sequence `q` at position `p` in the unified cache. -/
def oneToken (q : SeqId) (p : Int) : Store := ofCache ((Op.place (.single q p)).run (.init unified))

theorem oneToken_inv {p : Int} (hp : 0 ≤ p) (hq : unified.ValidSeq q) :
    (oneToken q p).cache.Inv := by
  have hinit : (Cache.init unified).Inv := Cache.init_inv ⟨.inl rfl, by decide, by decide⟩
  exact Op.run_inv hinit (.place (.single q p)) (Ubatch.single_shape hq p) (Ubatch.single_sound hp)

set_option maxRecDepth 10000 in
/-- Sequence 0 of one cache moves to sequence 1 of another, which had a token of its own. -/
private theorem oneToken_ready : Ready (oneToken 0 5) (oneToken 1 3) 0 1 where
  typed := by
    refine ⟨?_, ?_, ?_, ?_, ?_, ?_, ?_, ?_⟩
    all_goals decide
  source := oneToken_inv (by decide) (by decide)
  dest := oneToken_inv (by decide) (by decide)
  same := ofCache_sameConfig (by decide) (by decide)
  swa := by decide
  validA := by decide
  validB := by decide
  room := by decide

set_option maxRecDepth 10000 in
theorem seq_transfer_iff_oneToken : Ready (oneToken 0 5) (oneToken 1 3) 0 1 ∧
    Transfers (oneToken 0 5) (oneToken 1 3) 0 1 := by
  refine ⟨oneToken_ready, (seq_transfer_iff _ _ 0 1 oneToken_ready).1.mpr (.inl ⟨?_, ?_, ?_⟩)⟩
  · apply (holds_iff_held (q := 0) oneToken_ready.source oneToken_ready.validA).mpr
    decide
  · decide
  · rintro p ⟨t, ht, i, hi, -, rfl⟩
    have hall : ∀ t < (oneToken 1 3).cache.cfg.nStream, ∀ i < ((oneToken 1 3).cache.cells t).size,
        (((oneToken 1 3).cache.cells t).cell i).pos < posMax := by decide
    exact hall t ht i hi

set_option maxRecDepth 10000 in
/-- Nothing to save: the destination keeps the token it had. -/
private theorem nothing_ready : Ready (oneToken 1 3) (oneToken 1 3) 0 1 where
  typed := by
    refine ⟨?_, ?_, ?_, ?_, ?_, ?_, ?_, ?_⟩
    all_goals decide
  source := oneToken_inv (by decide) (by decide)
  dest := oneToken_inv (by decide) (by decide)
  same := ofCache_sameConfig rfl fun _ _ => rfl
  swa := by decide
  validA := by decide
  validB := by decide
  room := by decide

set_option maxRecDepth 10000 in
/-- The state of a sequence without cells does not replace the destination. -/
theorem nothing_not_transferred : Ready (oneToken 1 3) (oneToken 1 3) 0 1 ∧
    ¬ Transfers (oneToken 1 3) (oneToken 1 3) 0 1 := by
  refine ⟨nothing_ready, fun h => ?_⟩
  rcases nothing_ready.transferable_of_transfers h with ⟨hsome, -⟩ | ⟨-, hnone⟩
  · rw [holds_iff_held nothing_ready.source nothing_ready.validA] at hsome
    revert hsome
    decide
  · obtain ⟨p, hp⟩ := (holds_iff_held (q := 1) nothing_ready.dest nothing_ready.validDest).mpr
      (by decide)
    exact hnone p hp

end Store

end Llama.Kv
