import Llama.Kv.StateRows

/-!
# Round trip of the whole cache through its saved state

The reader of the whole cache clears every stream before each non-empty one, does not read
the spatial positions that the writer writes, and gets only sequence ids below
`n_seq_max`. So it reproduces a cache exactly when at most one stream has content and
that content needs neither.
-/

namespace Llama.Kv.Store

open Llama.Bytes List Function

/-- Saving `a` and loading into `b` reproduces the contents and consumes what was written. -/
def RoundTrip (a b : Store) : Prop :=
  ∃ b', (∀ rest, Reads (b.stateRead none) (a.stateWrite none ++ rest) b' rest) ∧
    ∀ t < a.cache.cfg.nStream, b'.contents t = a.contents t

/-- The caches for which the saved state says everything. -/
def Restores (a b : Store) : Prop :=
  (∀ t < a.cache.cfg.nStream, a.Empty t ∧ b.Empty t) ∨
    a.cache.cfg.nPosPerEmbd ≤ 1 ∧ ∃ t < a.cache.cfg.nStream, ¬ a.Empty t ∧
      (∀ t' < a.cache.cfg.nStream, t' ≠ t → a.Empty t') ∧
      ∀ i ∈ a.occupied t, ((a.cache.cells t).cell i).ext = {} ∧
        ∀ q ∈ ((a.cache.cells t).cell i).seq, q.val < a.cache.cfg.nSeqMax

/-- What the reader gets of an entry. -/
def Entry.saved (nSeqMax : Nat) (e : Entry) : Entry :=
  { e with ext := {}, seq := e.seq.filter fun q => q.val < nSeqMax }

theorem isContiguous_range (n : Nat) : isContiguous (range n) = true := by
  cases n with
  | zero => rfl
  | succ n =>
    have : (range (n + 1)).headD 0 = 0 := by simp [range_succ_eq_map]
    rw [isContiguous, this, length_range, ← range_eq_range']
    exact beq_self_eq_true _

theorem headD_range (n : Nat) : (range n).headD 0 = 0 := by
  cases n with
  | zero => rfl
  | succ n => simp [range_succ_eq_map]

variable {i n t k : Nat} {x y : Cells} {f : Config} {l : List Nat} {a s b : Store}

theorem reads_seqId {nSeqMax : Nat} {q : SeqId} (hq : q.val < nSeqMax) (j : Nat) (s : List UInt8) :
    Reads (readSeqId nSeqMax i x j) (intBytes 4 q.val ++ s) (x.seqAdd i q) s := by
  have hlt : q.val < 256 := q.isLt
  refine Reads.bind (reads_int ⟨by norm_num; omega, by norm_num; omega⟩ s) ?_
  refine Reads.bind (reads_check ?_ s) ?_
  · simp [hq]
  · simp only [Int.toNat_natCast, q.isLt, dite_true]
    exact Reads.pure _ _

/-- Cells after the sequences of one saved cell were added. -/
theorem seqAdd_cells (i : Nat) : ∀ (l : List SeqId) (x : Cells),
    (l.foldl (fun x q => x.seqAdd i q) x).cell =
        update x.cell i { x.cell i with seq := (x.cell i).seq ∪ l.toFinset } ∧
      (l.foldl (fun x q => x.seqAdd i q) x).size = x.size
  | [], x => by simp
  | q :: l, x => by
    obtain ⟨h1, h2⟩ := seqAdd_cells i l (x.seqAdd i q)
    have hc : (x.seqAdd i q).cell =
        update x.cell i { x.cell i with seq := insert q (x.cell i).seq } := rfl
    rw [foldl_cons]
    refine ⟨?_, h2⟩
    have hu : insert q (x.cell i).seq ∪ l.toFinset = (x.cell i).seq ∪ (q :: l).toFinset := by
      rw [toFinset_cons, Finset.insert_union, Finset.union_insert]
    rw [h1, hc, update_idem, update_self]
    simp only [hu]

/-- The cell that is read back at index `i` for the saved cell `e`. -/
def loadCell (f : Config) (y : Cells) (x : Cells) (i j : Nat) : Cells :=
  (seqIds f y none j).foldl (fun x q => x.seqAdd i q) (x.posSet i (y.cell j).pos)

theorem reads_cell {j : Nat} (hf : f.nPosPerEmbd ≤ 1) (hp : FitsInt 4 (y.cell j).pos)
    (s : List UInt8) :
    Reads (readCell f.nSeqMax x i) (writeCell f y none j ++ s) (loadCell f y x i j) s := by
  have hlen : (seqIds f y none j).length < 256 ^ 4 := by
    have := length_filter_le (fun cur : SeqId => decide (cur.val < f.nSeqMax) &&
      (none == some cur || (none : Option SeqId) == none) && y.seqHas j cur) (finRange maxSeq)
    rw [length_finRange] at this
    exact lt_of_le_of_lt this (by decide)
  have hnp : ¬ 1 < f.nPosPerEmbd := by omega
  simp only [writeCell, if_neg hnp, append_nil, append_assoc]
  refine Reads.bind (reads_int hp _) (Reads.bind (reads_uint hlen _) ?_)
  have hmap := map_getD_range (seqIds f y none j) 0
  have key := reads_foldlM (f := readSeqId f.nSeqMax i)
    (e := fun k => intBytes 4 (((seqIds f y none j).getD k 0).val : Int))
    (g := fun x k => x.seqAdd i ((seqIds f y none j).getD k 0))
    (range (seqIds f y none j).length) (x.posSet i (y.cell j).pos) s (by
      intro x k hk s
      rw [mem_range] at hk
      refine reads_seqId ?_ k s
      have hm : (seqIds f y none j).getD k 0 ∈ seqIds f y none j := by
        rw [getD_eq_getElem?_getD, getElem?_eq_getElem hk]
        exact getElem_mem hk
      have := (mem_filter.mp hm).2
      simp only [Bool.and_eq_true, decide_eq_true_eq] at this
      exact this.1.1)
  have h1 : (range (seqIds f y none j).length).flatMap
      (fun k => intBytes 4 (((seqIds f y none j).getD k 0).val : Int)) =
      (seqIds f y none j).flatMap fun r => intBytes 4 (r.val : Int) := by
    conv_rhs => rw [← hmap]
    rw [flatMap_map]
  have h2 : (range (seqIds f y none j).length).foldl
      (fun x k => x.seqAdd i ((seqIds f y none j).getD k 0)) (x.posSet i (y.cell j).pos) =
      loadCell f y x i j := by
    rw [loadCell]
    conv_rhs => rw [← hmap]
    rw [foldl_map]
  rwa [h1, h2] at key

theorem seqIds_toFinset (f : Config) (y : Cells) (j : Nat) :
    (seqIds f y none j).toFinset = (y.cell j).seq.filter fun q => q.val < f.nSeqMax := by
  ext q
  simp [seqIds, Cells.seqHas, and_comm]

theorem loadCell_cell (j : Nat) (hx : x.cell i = {}) :
    (loadCell f y x i j).cell = update x.cell i
        { pos := (y.cell j).pos, seq := (y.cell j).seq.filter fun q => q.val < f.nSeqMax } ∧
      (loadCell f y x i j).size = x.size := by
  obtain ⟨h1, h2⟩ := seqAdd_cells i (seqIds f y none j) (x.posSet i (y.cell j).pos)
  have hc : (x.posSet i (y.cell j).pos).cell =
      update x.cell i { x.cell i with pos := (y.cell j).pos } := rfl
  refine ⟨?_, h2⟩
  rw [loadCell, h1, hc, update_idem, update_self, seqIds_toFinset, hx]
  simp

/-- Cells of a stream after `k` of the listed cells of `y` were loaded. -/
structure LoadedCells (f : Config) (y : Cells) (l : List Nat) (n k : Nat) (x : Cells) : Prop where
  size : x.size = n
  done : ∀ i < k, x.cell i = { pos := (y.cell (l.getD i 0)).pos
                               seq := (y.cell (l.getD i 0)).seq.filter fun q => q.val < f.nSeqMax }
  rest : ∀ i, k ≤ i → x.cell i = {}

theorem reads_cells (hf : f.nPosPerEmbd ≤ 1) (hp : ∀ i ∈ l, FitsInt 4 (y.cell i).pos)
    (hx : LoadedCells f y l n 0 x) :
    ∃ x', LoadedCells f y l n l.length x' ∧ ∀ s,
      Reads ((range l.length).foldlM (readCell f.nSeqMax) x)
        (l.flatMap (writeCell f y none) ++ s) x' s := by
  have key := reads_range (f := readCell f.nSeqMax) (e := fun i => writeCell f y none (l.getD i 0))
    (P := LoadedCells f y l n) (b := x) l.length hx ?_
  · obtain ⟨x', h1, h2⟩ := key
    refine ⟨x', h1, fun s => ?_⟩
    have hmap : (range l.length).flatMap (fun i => writeCell f y none (l.getD i 0)) =
        l.flatMap (writeCell f y none) := by
      conv_rhs => rw [← map_getD_range l 0]
      rw [flatMap_map]
    rw [← hmap]
    exact h2 s
  · intro k hk x hx
    have hm : l.getD k 0 ∈ l := by
      rw [getD_eq_getElem?_getD, getElem?_eq_getElem hk]
      exact getElem_mem hk
    obtain ⟨hc, hs⟩ := loadCell_cell (f := f) (y := y) (l.getD k 0) (hx.rest k (le_refl k))
    refine ⟨loadCell f y x k (l.getD k 0), ⟨hs.trans hx.size, fun i hi => ?_, fun i hi => ?_⟩,
      fun s => reads_cell hf (hp _ hm) s⟩
    · rw [hc]
      by_cases he : i = k
      · subst he
        rw [update_self]
      · rw [update_of_ne he]
        exact hx.done i (by omega)
    · rw [hc, update_of_ne (by omega)]
      exact hx.rest i (by omega)

/-- The memory of a K tensor after the rows of `l` were loaded into the first cells. -/
def loadK (a : Nat → UInt8) (l : List Nat) (ly : Layer) (m : Nat → UInt8) : Nat → UInt8 :=
  blit m (0 * ly.kSizeRow) (l.flatMap fun i => kSlice ly a i)

/-- The memory of a V tensor after the rows of `l` were loaded into the first cells. -/
def loadV (vTrans : Bool) (kvSize : Nat) (a : Nat → UInt8) (l : List Nat) (ly : Layer)
    (m : Nat → UInt8) : Nat → UInt8 :=
  match ly.v with
  | none => m
  | some v =>
    if vTrans then (range v.nEmbd).foldl (fun m j => blit m ((0 + j * kvSize) * v.sizeEl)
      (l.flatMap fun i => slice a ((i + j * kvSize) * v.sizeEl) v.sizeEl)) m
    else blit m (0 * v.sizeRow) (l.flatMap fun i => slice a ((i + 0) * v.sizeRow) v.sizeRow)

/-- The store after the tensors of the cells `l` of stream `t` of `a` were loaded. -/
def loadData (a s : Store) (t : Nat) (l : List Nat) : Store :=
  { s with
    k := s.layers.zipIdx.foldl
      (fun k p => putTensor k t p.2 (loadK (a.k t p.2) l p.1 (k t p.2))) s.k
    v := s.layers.zipIdx.foldl (fun v p => putTensor v t p.2
      (loadV a.vTrans (a.cache.cells t).size (a.v t p.2) l p.1 (v t p.2))) s.v }

theorem blit_first {w : Nat} (base : Nat) {enc : Nat → List UInt8}
    (hw : ∀ i ∈ l, (enc i).length = w) (m : Nat → UInt8) :
    blit m ((0 + base) * w) (l.flatMap enc) =
      scatter w base (l.flatMap enc) (range l.length) m := by
  have hlen : (l.flatMap enc).length = (range l.length).length * w := by
    rw [length_flatMap_block l hw, length_range]
  rw [← blit_eq_scatter (isContiguous_range l.length) hlen m, headD_range]

theorem loadK_eq (a : Nat → UInt8) (l : List Nat) (ly : Layer) (m : Nat → UInt8) :
    loadK a l ly m = storeK a l (range l.length) ly m :=
  blit_first 0 (by simp [kSlice]) m

theorem loadV_eq (vTrans : Bool) (kvSize : Nat) (a : Nat → UInt8) (l : List Nat) (ly : Layer)
    (m : Nat → UInt8) :
    loadV vTrans kvSize a l ly m = storeV vTrans kvSize a l (range l.length) ly m := by
  unfold loadV storeV
  cases ly.v with
  | none => rfl
  | some v =>
    cases vTrans with
    | true =>
      simp only [if_true]
      congr 1
      funext m j
      exact blit_first _ (by simp) m
    | false => exact blit_first 0 (by simp) m

/-- Loading a stream is storing its rows at the first cells. -/
theorem loadData_eq (a s : Store) (t : Nat) (l : List Nat) :
    loadData a s t l = storeData a s t t l (range l.length) := by
  simp only [loadData, storeData, loadK_eq, loadV_eq]

theorem reads_data (ha : a.Typed) (hsame : a.SameConfig s) (ht : t < a.cache.cfg.nStream)
    {cr : List (Nat × Nat)} (hl : cr.flatMap rangeIdxs = l)
    (hsrc : ∀ i ∈ l, i < (a.cache.cells t).size)
    (hlen : l.length ≤ (a.cache.cells t).size) (rest : List UInt8) :
    Reads (readData s t l.length (range l.length)) (writeData a t cr ++ rest)
      (loadData a s t l) rest := by
  rw [loadData_eq]
  exact reads_storeData ha hsame ht (hsame.size t ht) hl (length_range).symm hsrc
    (fun i hi => lt_of_lt_of_le (mem_range.mp hi) hlen) hlen rest

/-- The store after one non-empty stream was loaded. -/
structure LoadedStream (a : Store) (t : Nat) (s : Store) : Prop where
  same : a.SameConfig s
  contents : s.contents t = (a.contents t).map (Entry.saved a.cache.cfg.nSeqMax)
  other : ∀ t' < a.cache.cfg.nStream, t' ≠ t → s.Empty t'

theorem SameConfig.clear {a s : Store} (h : a.SameConfig s) : a.SameConfig s.clear where
  cfg := h.cfg
  vTrans := h.vTrans
  layers := h.layers
  size t ht := by
    have hc : t < s.cache.cfg.nStream := by rwa [h.cfg]
    simpa [Store.clear, Cache.clear, hc, Cells.reset, Cells.resize] using h.size t ht

/-- The store between the metadata and the tensors of a stream. -/
theorem SameConfig.loaded (h : a.SameConfig s)
    (hx : LoadedCells a.cache.cfg (a.cache.cells t) l (a.cache.cells t).size k x) :
    a.SameConfig { s.clear with cache := (s.clear.cache.setCells t x).setHead t 0 } := by
  refine ⟨h.clear.cfg, h.clear.vTrans, h.clear.layers, fun t' ht' => ?_⟩
  by_cases he : t' = t
  · subst he
    simpa [Cache.setHead, Cache.setCells] using hx.size
  · simpa [Cache.setHead, Cache.setCells, update_of_ne he] using h.clear.size t' ht'

theorem loadData_entries (hsame : a.SameConfig s) (ht : t < a.cache.cfg.nStream)
    (hx : LoadedCells a.cache.cfg (a.cache.cells t) (a.occupied t) (a.cache.cells t).size
      (a.occupied t).length x) :
    LoadedStream a t (loadData a { s.clear with
      cache := (s.clear.cache.setCells t x).setHead t 0 } t (a.occupied t)) := by
  have hclear := hsame.clear
  have hlen : (a.occupied t).length ≤ (a.cache.cells t).size := by
    have := length_filter_le (selected (a.cache.cells t) none) (range (a.cache.cells t).size)
    rwa [length_range] at this
  generalize hs' : loadData a { s.clear with
    cache := (s.clear.cache.setCells t x).setHead t 0 } t (a.occupied t) = s'
  have hcells : s'.cache.cells t = x := by
    rw [← hs']
    simp [loadData, Cache.setHead, Cache.setCells]
  have hdata := hsame.loaded hx
  have hsame' : a.SameConfig s' := by
    rw [← hs']
    exact ⟨hdata.cfg, hdata.vTrans, hdata.layers, hdata.size⟩
  refine ⟨hsame', ?_, fun t' ht' hne => ?_⟩
  · -- the first cells are occupied, the others are not
    have hocc : s'.occupied t = range (a.occupied t).length := by
      have hsel : ∀ i < (a.cache.cells t).size,
          selected x none i = decide (i < (a.occupied t).length) := by
        intro i hi
        by_cases hlt : i < (a.occupied t).length
        · have hm : (a.occupied t).getD i 0 ∈ a.occupied t := by
            rw [getD_eq_getElem?_getD, getElem?_eq_getElem hlt]
            exact getElem_mem hlt
          have hp := (mem_occupied.mp hm).2
          simp only [selected, Cells.isEmpty, hx.done i hlt, decide_eq_true hlt]
          simpa using hp
        · simp [selected, Cells.isEmpty, hx.rest i (by omega), hlt]
      rw [occupied, hcells, hx.size]
      have hsplit : range (a.cache.cells t).size = range (a.occupied t).length ++
          range' (a.occupied t).length
            ((a.cache.cells t).size - (a.occupied t).length) := by
        have := range'_append_1 (s := 0) (m := (a.occupied t).length)
          (n := (a.cache.cells t).size - (a.occupied t).length)
        rw [Nat.zero_add, Nat.add_sub_cancel' hlen] at this
        rw [range_eq_range', range_eq_range', this]
      rw [hsplit, filter_append, filter_eq_self.mpr, filter_eq_nil_iff.mpr, append_nil]
      · intro i hi
        rw [mem_range'_1] at hi
        rw [hsel i (by omega)]
        simp
        omega
      · intro i hi
        rw [mem_range] at hi
        rw [hsel i (by omega)]
        simpa using hi
    have hentry : ∀ i < (a.occupied t).length, s'.entry t i =
        (a.entry t ((a.occupied t).getD i 0)).saved a.cache.cfg.nSeqMax := by
      intro i hi
      have hget : (a.occupied t).getD i 0 = (a.occupied t)[i] := by
        rw [getD_eq_getElem?_getD, getElem?_eq_getElem hi]
        rfl
      have hfirst : ∀ j ∈ range (a.occupied t).length, j < (a.cache.cells t).size :=
        fun j hj => lt_of_lt_of_le (mem_range.mp hj) hlen
      have hrows := storeData_rows (s := { s.clear with
          cache := (s.clear.cache.setCells t x).setHead t 0 }) hdata (hdata.size t ht)
        nodup_range (length_range).symm hfirst hi (by rwa [length_range])
      rw [← loadData_eq, hs', getElem_range] at hrows
      have hmeta := congrArg (fun y : Cells => y.cell i) hcells
      simp only [hx.done i hi] at hmeta
      rw [hget] at hmeta ⊢
      apply Entry.eq_of_fields
      · simp only [entry, Entry.saved, hmeta]
      · simp only [entry, Entry.saved, hmeta]
      · simp only [entry, Entry.saved, hmeta]
      · exact hrows.1
      · exact hrows.2
    have hmap : (range (a.occupied t).length).map (s'.entry t) =
        ((a.occupied t).map (a.entry t)).map (Entry.saved a.cache.cfg.nSeqMax) := by
      conv_rhs => rw [← map_getD_range (a.occupied t) 0]
      rw [map_map, map_map]
      apply map_congr_left
      intro i hi
      exact hentry i (mem_range.mp hi)
    rw [contents, hocc, hmap, contents, Multiset.map_coe]
  · have hc : t' < s.cache.cfg.nStream := by rwa [hsame.cfg]
    rw [Empty, occupied, filter_eq_nil_iff]
    intro i _
    rw [← hs']
    simp [loadData, Cache.setHead, Cache.setCells, update_of_ne hne, Store.clear,
      Cache.clear, hc, selected, Cells.isEmpty, Cells.reset, Cells.resize]

/-- One stream of the reader, on what the writer wrote for it. -/
theorem reads_stream (ha : a.Typed) (hsame : a.SameConfig s) (hnp : a.cache.cfg.nPosPerEmbd ≤ 1)
    (ht : t < a.cache.cfg.nStream) (hne : ¬ a.Empty t) :
    ∃ s', LoadedStream a t s' ∧
      ∀ rest, Reads (readStream none s t) (writeStream a none t ++ rest) s' rest := by
  have hsize := hsame.size t ht
  have hkv := ha.size t ht
  have hcount : cellCount (a.cache.cells t).size (selected (a.cache.cells t) none) =
      (a.occupied t).length := rfl
  have hpos : (a.occupied t).length ≠ 0 := fun h => hne (length_eq_zero_iff.mp h)
  have hlen : (a.occupied t).length ≤ (a.cache.cells t).size := by
    have := length_filter_le (selected (a.cache.cells t) none) (range (a.cache.cells t).size)
    rwa [length_range] at this
  have hidx := cellRanges_idxs (a.cache.cells t).size (selected (a.cache.cells t) none)
  have hclear := hsame.clear
  have hempty : LoadedCells a.cache.cfg (a.cache.cells t) (a.occupied t) (a.cache.cells t).size 0
      (s.clear.cache.cells t) := by
    have hc : t < s.cache.cfg.nStream := by rwa [hsame.cfg]
    refine ⟨hclear.size t ht, fun i hi => absurd hi (by omega), fun i _ => ?_⟩
    simp [Store.clear, Cache.clear, hc, Cells.reset, Cells.resize]
  obtain ⟨x, hx, hread⟩ := reads_cells hnp (ha.pos t ht) hempty
  refine ⟨_, loadData_entries hsame ht hx, fun rest => ?_⟩
  have hmeta : writeMeta a.cache.cfg (a.cache.cells t) none
      (cellRanges (a.cache.cells t).size (selected (a.cache.cells t) none)) =
      (a.occupied t).flatMap (writeCell a.cache.cfg (a.cache.cells t) none) := by
    rw [writeMeta, ← flatMap_assoc, hidx]
    rfl
  simp only [writeStream, hcount, if_neg hpos, hmeta, append_assoc]
  refine Reads.bind (reads_uint (lt_of_le_of_lt (hkv ▸ hlen) ha.kvSize) _) ?_
  simp only [if_neg hpos]
  have hmetaRead : ∀ rest, Reads (readMetaAll s t (a.occupied t).length)
      ((a.occupied t).flatMap (writeCell a.cache.cfg (a.cache.cells t) none) ++ rest)
      ({ s.clear with cache := (s.clear.cache.setCells t x).setHead t 0 },
        range (a.occupied t).length) rest := by
    intro rest
    refine Reads.bind (reads_check (by simpa [hsize] using hlen) _) ?_
    simp only [hclear.cfg]
    exact Reads.bind (hread _) (Reads.pure _ _)
  have hdata := hsame.loaded hx
  exact Reads.bind (hmetaRead _)
    (reads_data ha hdata ht hidx (fun i hi => (mem_occupied.mp hi).1) hlen _)

/-- A stream without a selected cell is skipped. -/
theorem reads_skipped {q q' : Option SeqId}
    (h : (range (a.cache.cells t).size).filter (selected (a.cache.cells t) q) = [])
    (rest : List UInt8) : Reads (readStream q' s k) (writeStream a q t ++ rest) s rest := by
  have hcount : cellCount (a.cache.cells t).size (selected (a.cache.cells t) q) = 0 :=
    length_eq_zero_iff.mpr h
  simp only [writeStream, hcount, if_true, append_nil]
  exact Reads.bind (reads_uint (by decide) rest) (Reads.pure _ _)

theorem reads_empty_stream (he : a.Empty t) (rest : List UInt8) :
    Reads (readStream none s t) (writeStream a none t ++ rest) s rest :=
  reads_skipped he rest

/-- The reader after the first `k` streams: untouched, or with the last non-empty stream. -/
def After (a b : Store) (k : Nat) (s : Store) : Prop :=
  ((∀ t < k, a.Empty t) ∧ s = b) ∨
    ∃ t < k, ¬ a.Empty t ∧ (∀ t' < k, t < t' → a.Empty t') ∧ LoadedStream a t s

/-- The loop over the streams; spatial positions are only written for several positions per
embedding, so there only empty streams are read back. -/
theorem reads_all (ha : a.Typed) (hsame : a.SameConfig b)
    (hnp : a.cache.cfg.nPosPerEmbd ≤ 1 ∨ ∀ t < a.cache.cfg.nStream, a.Empty t) :
    ∃ b', After a b a.cache.cfg.nStream b' ∧
      ∀ rest, Reads (b.stateRead none) (a.stateWrite none ++ rest) b' rest := by
  have hassert : { b with cache := b.cache.assert true } = b := by
    simp [Cache.assert]
  have key := reads_range (f := readStream none) (e := writeStream a none) (P := After a b) (b := b)
    a.cache.cfg.nStream (.inl ⟨by simp, rfl⟩) ?_
  · obtain ⟨b', hP, hr⟩ := key
    refine ⟨b', hP, fun rest => ?_⟩
    have hcfg : (b.cache.assert true).cfg = a.cache.cfg := hsame.cfg
    simp only [stateRead, hassert, stateWrite, append_assoc, hcfg]
    refine Reads.bind (reads_uint ha.nStream _) (Reads.bind (reads_check (by simp) _) ?_)
    exact hr rest
  · intro k hk s hs
    by_cases he : a.Empty k
    · refine ⟨s, ?_, fun rest => reads_empty_stream he rest⟩
      rcases hs with ⟨h1, h2⟩ | ⟨t, h1, h2, h3, h4⟩
      · refine .inl ⟨fun t ht => ?_, h2⟩
        rcases Nat.lt_succ_iff_lt_or_eq.mp ht with h | rfl
        · exact h1 t h
        · exact he
      · refine .inr ⟨t, by omega, h2, fun t' ht' hlt => ?_, h4⟩
        rcases Nat.lt_succ_iff_lt_or_eq.mp ht' with h | rfl
        · exact h3 t' h hlt
        · exact he
    · have hcfg : a.SameConfig s := by
        rcases hs with ⟨-, rfl⟩ | ⟨t, -, -, -, h4⟩
        · exact hsame
        · exact h4.same
      have hnp' := hnp.resolve_right fun h => he (h k hk)
      obtain ⟨s', hload, hr⟩ := reads_stream ha hcfg hnp' hk he
      exact ⟨s', .inr ⟨k, by omega, he, fun t' ht' hlt => absurd hlt (by omega), hload⟩, hr⟩

/-- An entry that the reader gets unchanged. -/
theorem Entry.saved_eq_self {e : Entry} : e.saved n = e ↔ e.ext = {} ∧ ∀ q ∈ e.seq, q.val < n := by
  constructor
  · intro h
    have h1 : (e.saved n).ext = e.ext := by rw [h]
    have h2 : (e.saved n).seq = e.seq := by rw [h]
    refine ⟨h1.symm, fun q hq => ?_⟩
    rw [← h2] at hq
    exact (Finset.mem_filter.mp hq).2
  · rintro ⟨h1, h2⟩
    have h3 : (e.seq.filter fun q => q.val < n) = e.seq := Finset.filter_true_of_mem h2
    simp only [Entry.saved, h3, ← h1]

/-- Loading keeps the entries of a stream exactly when each is kept. -/
theorem map_saved_eq_iff (m : Multiset Entry) :
    m.map (Entry.saved n) = m ↔ ∀ e ∈ m, e.saved n = e := by
  constructor
  · intro h e he
    rw [← h, Multiset.mem_map] at he
    obtain ⟨e', -, rfl⟩ := he
    simp [Entry.saved, Finset.filter_filter]
  · intro h
    conv_rhs => rw [← Multiset.map_id m]
    exact Multiset.map_congr rfl h

/-- What the entries of a stream must be to survive. -/
theorem saved_entries_iff (a : Store) (t : Nat) :
    (∀ e ∈ a.contents t, e.saved a.cache.cfg.nSeqMax = e) ↔
      ∀ i ∈ a.occupied t, ((a.cache.cells t).cell i).ext = {} ∧
        ∀ q ∈ ((a.cache.cells t).cell i).seq, q.val < a.cache.cfg.nSeqMax := by
  simp only [contents, Multiset.mem_coe, mem_map, forall_exists_index, and_imp,
    forall_apply_eq_imp_iff₂, Entry.saved_eq_self]
  rfl

theorem roundTrip_of_restores (ha : a.Typed) (hsame : a.SameConfig b) (h : a.Restores b) :
    a.RoundTrip b := by
  rcases h with hempty | ⟨hnp, t, ht, hne, hother, hsaved⟩
  · obtain ⟨b', hP, hr⟩ := reads_all ha hsame (.inr fun t ht => (hempty t ht).1)
    refine ⟨b', hr, fun t ht => ?_⟩
    rcases hP with ⟨-, rfl⟩ | ⟨t', h1, h2, -⟩
    · rw [contents_eq_zero.mpr (hempty t ht).1, contents_eq_zero.mpr (hempty t ht).2]
    · exact absurd (hempty t' h1).1 h2
  · obtain ⟨b', hP, hr⟩ := reads_all ha hsame (.inl hnp)
    refine ⟨b', hr, fun t' ht' => ?_⟩
    rcases hP with ⟨h1, -⟩ | ⟨t'', h1, h2, -, h3⟩
    · exact absurd (h1 t ht) hne
    · obtain rfl : t'' = t := by
        by_contra h
        exact h2 (hother t'' h1 h)
      by_cases he : t' = t''
      · subst he
        rw [h3.contents]
        exact (map_saved_eq_iff _).mpr ((saved_entries_iff a t').mpr hsaved)
      · rw [contents_eq_zero.mpr (h3.other t' ht' he), contents_eq_zero.mpr (hother t' ht' he)]

theorem restores_of_roundTrip (ha : a.Typed) (hsame : a.SameConfig b)
    (hnp : a.cache.cfg.nPosPerEmbd ≤ 1) (h : a.RoundTrip b) : a.Restores b := by
  obtain ⟨b', hr, hcont⟩ := h
  obtain ⟨b'', hP, hr'⟩ := reads_all ha hsame (.inl hnp)
  obtain rfl := (Reads.unique (hr []) (hr' [])).1
  rcases hP with ⟨h1, rfl⟩ | ⟨t, h1, h2, -, h3⟩
  · refine .inl fun t ht => ⟨h1 t ht, ?_⟩
    rw [← contents_eq_zero, hcont t ht, contents_eq_zero]
    exact h1 t ht
  · refine .inr ⟨hnp, t, h1, h2, fun t' ht' hne => ?_, ?_⟩
    · rw [← contents_eq_zero, ← hcont t' ht', contents_eq_zero]
      exact h3.other t' ht' hne
    · rw [← saved_entries_iff a t, ← map_saved_eq_iff, ← h3.contents]
      exact hcont t h1

/-- The saved state of a cache reproduces it in `Restores`; without spatial positions in the
format this is also necessary. -/
theorem state_round_trip_iff (a b : Store) (ha : a.Typed) (hsame : a.SameConfig b) :
    (a.Restores b → a.RoundTrip b) ∧ (a.cache.cfg.nPosPerEmbd ≤ 1 → a.RoundTrip b → a.Restores b) :=
  ⟨roundTrip_of_restores ha hsame, restores_of_roundTrip ha hsame⟩

/-- A store with one layer of one-byte rows around a cache. -/
def ofCache (c : Cache) : Store :=
  { cache := c
    vTrans := true
    layers :=
      [{ kType := 0, kSizeRow := 1,
         v := some { type := 0, sizeRow := 1, sizeEl := 1, nEmbd := 1 } }]
    k := fun _ _ i => UInt8.ofNat (i + 1)
    v := fun _ _ i => UInt8.ofNat (i + 7) }

theorem ofCache_sameConfig {c d : Cache} (hc : d.cfg = c.cfg)
    (hs : ∀ t < c.cfg.nStream, (d.cells t).size = (c.cells t).size) :
    (ofCache c).SameConfig (ofCache d) := ⟨hc, rfl, rfl, hs⟩

set_option maxRecDepth 10000 in
/-- A token of sequence 0 in the only stream, loaded into an empty cache. -/
theorem single_stream_restored :
    (ofCache ((Op.place (.single 0 5)).run (.init unified))).RoundTrip
      (ofCache (.init unified)) := by
  refine (state_round_trip_iff (ofCache ((Op.place (.single 0 5)).run (.init unified)))
    (ofCache (.init unified)) ⟨?_, ?_, ?_, ?_, ?_, ?_, ?_, ?_⟩ (ofCache_sameConfig ?_ ?_)).1 ?_
  case refine_11 =>
    refine .inr ⟨by decide, 0, by decide, by decide, ?_, by decide⟩
    intro t ht hne
    have hn : (ofCache ((Op.place (.single 0 5)).run (.init unified))).cache.cfg.nStream = 1 := by
      decide
    rw [hn] at ht
    omega
  all_goals decide

set_option maxRecDepth 10000 in
/-- Two streams with a token each: the first one is lost. -/
theorem two_streams_not_restored :
    AllSteps (fun c o => o.Valid c ∧ o.Safe c) (.init twoStreams)
      [.place (.single 0 0), .place (.single 1 0)] ∧
    (ofCache ([.place (.single 0 0), .place (.single 1 0)].foldl Op.run (.init twoStreams))).Typed ∧
    (ofCache ([.place (.single 0 0), .place (.single 1 0)].foldl Op.run
      (.init twoStreams))).SameConfig (ofCache (.init twoStreams)) ∧
    ¬ (ofCache ([.place (.single 0 0), .place (.single 1 0)].foldl Op.run
      (.init twoStreams))).RoundTrip (ofCache (.init twoStreams)) := by
  have hty : (ofCache ([.place (.single 0 0), .place (.single 1 0)].foldl Op.run
      (.init twoStreams))).Typed := by
    refine ⟨?_, ?_, ?_, ?_, ?_, ?_, ?_, ?_⟩
    all_goals decide
  have hsame : (ofCache ([.place (.single 0 0), .place (.single 1 0)].foldl Op.run
      (.init twoStreams))).SameConfig (ofCache (.init twoStreams)) :=
    ofCache_sameConfig (by decide) (by decide)
  refine ⟨⟨⟨Ubatch.single_shape (by decide) 0, Ubatch.single_sound (by decide)⟩,
    ⟨Ubatch.single_shape (by decide) 0, Ubatch.single_sound (by decide)⟩, trivial⟩, hty,
    hsame, fun h => ?_⟩
  have h0 : ¬ (ofCache ([.place (.single 0 0), .place (.single 1 0)].foldl Op.run
      (.init twoStreams))).Empty 0 := by decide
  have h1 : ¬ (ofCache ([.place (.single 0 0), .place (.single 1 0)].foldl Op.run
      (.init twoStreams))).Empty 1 := by decide
  rcases restores_of_roundTrip hty hsame (by decide) h with he | ⟨-, t, -, -, hother, -⟩
  · exact h0 (he 0 (by decide)).1
  · by_cases ht : t = 0
    · exact h1 (hother 1 (by decide) (by omega))
    · exact h0 (hother 0 (by decide) (Ne.symm ht))

end Llama.Kv.Store
