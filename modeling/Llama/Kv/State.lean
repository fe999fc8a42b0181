import Llama.Kv.Cache
import Llama.Lib.Bytes

/-!
# Saving and loading the state of the cache

`state_write` and `state_read` of `llama_kv_cache` with the tensors they copy. A tensor is
its memory, a function from byte offsets; `ggml_row_size` and `ggml_type_size` of a
layer's types are recorded with the layer. Integers are written in the little-endian
order of the platforms the code runs on.
-/

namespace Llama.Kv

open Llama.Bytes

/-- The V tensor of a layer. -/
structure VLayer where
  /-- `v->type`. -/
  type : Nat
  /-- `ggml_row_size(v->type, n_embd_v_gqa)`. -/
  sizeRow : Nat
  /-- `ggml_type_size(v->type)`. -/
  sizeEl : Nat
  /-- `n_embd_v_gqa`. -/
  nEmbd : Nat
  deriving DecidableEq, Repr

/-- A layer of the cache; `v` is null for some architectures. -/
structure Layer where
  kType : Nat
  /-- `ggml_row_size(k->type, n_embd_k_gqa)`. -/
  kSizeRow : Nat
  /-- The V tensor. -/
  v : Option VLayer
  deriving DecidableEq, Repr

/-- Memories of the tensors, by stream and layer. -/
abbrev Tensors := Nat → Nat → Nat → UInt8

/-- The result of an operation on numbers of type `uint32_t`. -/
def word32 (n : Nat) : Nat := n % 2 ^ 32

/-- `llama_kv_cache` with its tensors. -/
structure Store where
  /-- The metadata. -/
  cache : Cache
  /-- The values are transposed. -/
  vTrans : Bool
  layers : List Layer
  /-- Memories of the K tensors. -/
  k : Tensors
  /-- Memories of the V tensors. -/
  v : Tensors

namespace Store

/-- The cells that `state_write` takes; `none` stands for `seq_id = -1`. -/
def selected (x : Cells) (q : Option SeqId) (i : Nat) : Bool :=
  !x.isEmpty i && (match q with | none => true | some q => x.seqHas i q)

/-- Loop body that collects the ranges; `size` stands for no open range. -/
def rangeStep (size : Nat) (sel : Nat → Bool) (st : List (Nat × Nat) × Nat) (i : Nat) :
    List (Nat × Nat) × Nat :=
  if sel i then (st.1, if st.2 = size then i else st.2)
  else if st.2 ≠ size then (st.1 ++ [(st.2, i)], size)
  else st

/-- Maximal ranges of selected cells. -/
def cellRanges (size : Nat) (sel : Nat → Bool) : List (Nat × Nat) :=
  let r := (List.range size).foldl (rangeStep size sel) ([], size)
  if r.2 ≠ size then r.1 ++ [(r.2, size)] else r.1

def cellCount (size : Nat) (sel : Nat → Bool) : Nat := ((List.range size).filter sel).length

def rangeIdxs (r : Nat × Nat) : List Nat := List.range' r.1 (r.2 - r.1)

/-- The sequence ids written for a cell. -/
def seqIds (f : Config) (x : Cells) (q : Option SeqId) (i : Nat) : List SeqId :=
  (List.finRange maxSeq).filter fun cur =>
    decide (cur.val < f.nSeqMax) && (q == some cur || q == none) && x.seqHas i cur

/-- Metadata of one cell. -/
def writeCell (f : Config) (x : Cells) (q : Option SeqId) (i : Nat) : List UInt8 :=
  let ids := seqIds f x q i
  intBytes 4 (x.cell i).pos ++ leBytes 4 ids.length ++
    (if 1 < f.nPosPerEmbd then
      intBytes 4 (x.cell i).ext.x ++ intBytes 4 (x.cell i).ext.y else []) ++
    ids.flatMap fun r => intBytes 4 r.val

/-- `state_write_meta`. -/
def writeMeta (f : Config) (x : Cells) (q : Option SeqId) (cr : List (Nat × Nat)) : List UInt8 :=
  cr.flatMap fun r => (rangeIdxs r).flatMap (writeCell f x q)

/-- Rows of a tensor for the ranges. -/
def writeRows (m : Nat → UInt8) (sizeRow : Nat) (cr : List (Nat × Nat)) : List UInt8 :=
  cr.flatMap fun r => slice m (r.1 * sizeRow) ((r.2 - r.1) * sizeRow)

/-- The K tensor of one layer. -/
def writeK (m : Nat → UInt8) (l : Layer) (cr : List (Nat × Nat)) : List UInt8 :=
  intBytes 4 l.kType ++ leBytes 8 l.kSizeRow ++ writeRows m l.kSizeRow cr

/-- The V tensor of one layer, not transposed. -/
def writeV (m : Nat → UInt8) (l : VLayer) (cr : List (Nat × Nat)) : List UInt8 :=
  intBytes 4 l.type ++ leBytes 8 l.sizeRow ++ writeRows m l.sizeRow cr

/-- The V tensor of one layer, transposed. -/
def writeVTrans (m : Nat → UInt8) (kvSize : Nat) (l : VLayer) (cr : List (Nat × Nat)) :
    List UInt8 :=
  intBytes 4 l.type ++ leBytes 4 l.sizeEl ++ leBytes 4 l.nEmbd ++
    (List.range l.nEmbd).flatMap fun j =>
      cr.flatMap fun r => slice m (word32 ((r.1 + j * kvSize) * l.sizeEl)) ((r.2 - r.1) * l.sizeEl)

/-- The V part of a layer; a layer without V tensor is skipped. -/
def writeVLayer (s : Store) (t il : Nat) (cr : List (Nat × Nat)) (l : Layer) : List UInt8 :=
  match l.v with
  | none => []
  | some v =>
    if s.vTrans then writeVTrans (s.v t il) (s.cache.cells t).size v cr else writeV (s.v t il) v cr

/-- `state_write_data`. -/
def writeData (s : Store) (t : Nat) (cr : List (Nat × Nat)) : List UInt8 :=
  leBytes 4 (if s.vTrans then 1 else 0) ++ leBytes 4 s.layers.length ++
    s.layers.zipIdx.flatMap (fun l => writeK (s.k t l.2) l.1 cr) ++
    s.layers.zipIdx.flatMap (fun l => writeVLayer s t l.2 cr l.1)

/-- One stream of `state_write`. -/
def writeStream (s : Store) (q : Option SeqId) (t : Nat) : List UInt8 :=
  let x := s.cache.cells t
  let count := cellCount x.size (selected x q)
  let cr := cellRanges x.size (selected x q)
  leBytes 4 count ++
    if count = 0 then [] else writeMeta s.cache.cfg x q cr ++ writeData s t cr

/-- `state_write(io, seq_id)`. -/
def stateWrite (s : Store) (q : Option SeqId) : List UInt8 :=
  leBytes 4 s.cache.cfg.nStream ++ (List.range s.cache.cfg.nStream).flatMap (writeStream s q)

/-- `clear(true)`: metadata and memories. -/
def clear (s : Store) : Store :=
  { s with cache := s.cache.clear, k := fun _ _ _ => 0, v := fun _ _ _ => 0 }

/-- `slot_info::is_contiguous()` for the indices of the only entry. -/
def isContiguous (idxs : List Nat) : Bool := idxs == List.range' (idxs.headD 0) idxs.length

/-- Read rows and store them at the cells of the slot. -/
def readRows (sizeRow : Nat) (idxs : List Nat) (m : Nat → UInt8) : Reader (Nat → UInt8) := do
  let src ← Reader.bytes (idxs.length * sizeRow)
  if isContiguous idxs then pure (blit m (idxs.headD 0 * sizeRow) src)
  else pure (idxs.zipIdx.foldl
    (fun m p => blit m (p.1 * sizeRow) ((src.drop (p.2 * sizeRow)).take sizeRow)) m)

/-- The K tensor of one layer. -/
def readK (l : Layer) (idxs : List Nat) (m : Nat → UInt8) : Reader (Nat → UInt8) := do
  let kTypeRef ← Reader.int 4
  Reader.check (kTypeRef == l.kType)
  let kSizeRowRef ← Reader.uint 8
  Reader.check (kSizeRowRef == l.kSizeRow)
  readRows l.kSizeRow idxs m

/-- The V tensor of one layer, not transposed. -/
def readV (l : VLayer) (idxs : List Nat) (m : Nat → UInt8) : Reader (Nat → UInt8) := do
  let vTypeRef ← Reader.int 4
  Reader.check (vTypeRef == l.type)
  let vSizeRowRef ← Reader.uint 8
  Reader.check (vSizeRowRef == l.sizeRow)
  readRows l.sizeRow idxs m

/-- One row of a transposed V tensor. -/
def readVRow (kvSize sizeEl : Nat) (idxs : List Nat) (m : Nat → UInt8) (j : Nat) :
    Reader (Nat → UInt8) := do
  let src ← Reader.bytes (idxs.length * sizeEl)
  if isContiguous idxs then pure (blit m (word32 (idxs.headD 0 + j * kvSize) * sizeEl) src)
  else pure (idxs.zipIdx.foldl
    (fun m p => blit m (word32 (p.1 + j * kvSize) * sizeEl)
      ((src.drop (p.2 * sizeEl)).take sizeEl)) m)

/-- The V tensor of one layer, transposed. -/
def readVTrans (kvSize : Nat) (l : VLayer) (idxs : List Nat) (m : Nat → UInt8) :
    Reader (Nat → UInt8) := do
  let vTypeRef ← Reader.int 4
  Reader.check (vTypeRef == l.type)
  let vSizeElRef ← Reader.uint 4
  Reader.check (vSizeElRef == l.sizeEl)
  let nEmbdRef ← Reader.uint 4
  Reader.check (nEmbdRef == l.nEmbd)
  (List.range l.nEmbd).foldlM (readVRow kvSize l.sizeEl idxs) m

/-- The V part of a layer. -/
def readVLayer (vTrans : Bool) (kvSize : Nat) (l : Layer) (idxs : List Nat) (m : Nat → UInt8) :
    Reader (Nat → UInt8) :=
  match l.v with
  | none => pure m
  | some v => if vTrans then readVTrans kvSize v idxs m else readV v idxs m

/-- Overwrite the memory of one layer in one stream. -/
def putTensor (ts : Tensors) (t il : Nat) (m : Nat → UInt8) : Tensors :=
  Function.update ts t (Function.update (ts t) il m)

/-- `state_read_data`. -/
def readData (s : Store) (t cellCount : Nat) (idxs : List Nat) : Reader Store := do
  let vTransRef ← Reader.uint 4
  let nLayer ← Reader.uint 4
  Reader.check (nLayer == s.layers.length)
  Reader.check (decide (cellCount ≤ (s.cache.cells t).size))
  Reader.check (s.vTrans == (vTransRef != 0))
  let k ← s.layers.zipIdx.foldlM (fun k l => do
    let m ← readK l.1 idxs (k t l.2)
    pure (putTensor k t l.2 m)) s.k
  let v ← s.layers.zipIdx.foldlM (fun v l => do
    let m ← readVLayer s.vTrans (s.cache.cells t).size l.1 idxs (v t l.2)
    pure (putTensor v t l.2 m)) s.v
  pure { s with k := k, v := v }

/-- One sequence id of a cell of the whole cache. -/
def readSeqId (nSeqMax i : Nat) (x : Cells) (_j : Nat) : Reader Cells := do
  let q ← Reader.int 4
  Reader.check (decide (0 ≤ q) && decide (q < nSeqMax))
  if h : q.toNat < maxSeq then pure (x.seqAdd i ⟨q.toNat, h⟩) else pure x

/-- One cell of the whole cache. -/
def readCell (nSeqMax : Nat) (x : Cells) (i : Nat) : Reader Cells := do
  let pos ← Reader.int 4
  let nSeqId ← Reader.uint 4
  (List.range nSeqId).foldlM (readSeqId nSeqMax i) (x.posSet i pos)

/-- `state_read_meta` for the whole cache: the cells of the stream become the first ones. -/
def readMetaAll (s : Store) (t cellCount : Nat) : Reader (Store × List Nat) := do
  Reader.check (decide (cellCount ≤ (s.cache.cells t).size))
  let s := s.clear
  let x ← (List.range cellCount).foldlM (readCell s.cache.cfg.nSeqMax) (s.cache.cells t)
  pure ({ s with cache := (s.cache.setCells t x).setHead t 0 }, List.range cellCount)

/-- The ubatch that `state_read_meta` builds for a single sequence. -/
def seqUbatch (f : Config) (q : SeqId) (cellCount : Nat) (pos : List Int) (ext : List CellExt) :
    Ubatch :=
  { nTokens := cellCount
    nPos := f.nPosPerEmbd
    pos := fun i =>
      if i < cellCount then pos.getD i 0
      else if i < 2 * cellCount then (ext.getD (i - cellCount) {}).y
      else (ext.getD (i - 2 * cellCount) {}).x
    seqId := fun _ => [q]
    seqIdUnq := [q] }

/-- One cell of a single sequence: its position and spatial position. -/
def readSeqCell (f : Config) (st : List Int × List CellExt) (_i : Nat) :
    Reader (List Int × List CellExt) := do
  let pos ← Reader.int 4
  let nSeqId ← Reader.uint 4
  Reader.check (nSeqId == 1)
  if 1 < f.nPosPerEmbd then
    let x ← Reader.int 4
    let y ← Reader.int 4
    let _ ← Reader.int 4
    pure (st.1 ++ [pos], st.2 ++ [{ x := x, y := y }])
  else
    let _ ← Reader.int 4
    pure (st.1 ++ [pos], st.2 ++ [({} : CellExt)])

/-- `state_read_meta` for a single sequence. -/
def readMetaSeq (s : Store) (q : SeqId) (t cellCount : Nat) : Reader (Store × List Nat) := do
  let c := s.cache.seqRm (some q) (-1) (-1)
  let r ← (List.range cellCount).foldlM (readSeqCell c.cfg) ([], [])
  let u := seqUbatch c.cfg q cellCount r.1 r.2
  let found := c.findSlot u false
  let c := c.assert found.2
  match found.1 with
  | none => fun _ => none
  | some si =>
    let c := c.applyUbatch si u
    let ok := si.strm.length == 1 && (si.idxsAt 0).length == cellCount &&
      (List.range cellCount).all fun i =>
        let idx := (si.idxsAt 0).getD i 0
        ((c.cells t).cell idx).pos == u.pos i && (c.cells t).seqHas idx q
    pure ({ s with cache := c.assert ok }, si.idxsAt 0)

/-- One stream of `state_read`. -/
def readStream (q : Option SeqId) (s : Store) (i : Nat) : Reader Store := do
  let cellCount ← Reader.uint 4
  if cellCount = 0 then pure s
  else
    let r ← match q with
      | none => readMetaAll s i cellCount
      | some q => readMetaSeq s q (s.cache.cfg.seqToStream q) cellCount
    let t := match q with
      | none => i
      | some q => s.cache.cfg.seqToStream q
    readData r.1 t cellCount r.2

/-- `state_read(io, seq_id)`; a rejected value and a short stream both throw. -/
def stateRead (s : Store) (q : Option SeqId) : Reader Store := do
  let valid := match q with
    | none => true
    | some q => decide (s.cache.cfg.ValidSeq q)
  let s := { s with cache := s.cache.assert valid }
  let nStreamCur ← Reader.uint 4
  Reader.check (nStreamCur == s.cache.cfg.nStream)
  (List.range s.cache.cfg.nStream).foldlM (readStream q) s

end Store

end Llama.Kv
