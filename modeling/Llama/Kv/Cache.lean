import Llama.Kv.Cells

/-!
# The KV cache operations

`llama_kv_cache` without its tensors: the configuration, the heads and the cells of
every stream, and the operations that change them. `GGML_ASSERT` and the cache's own
`assert` are recorded in `Cache.ok`; those of `llama_kv_cells` in the cells.
-/

namespace Llama.Kv

/-- `llama_swa_type`. -/
inductive SwaType
  | none
  | standard
  | chunked
  | symmetric
  deriving DecidableEq, Repr

/-- `llama_hparams::is_masked_swa`. -/
def isMaskedSwa (nSwa : Nat) (t : SwaType) (p0 p1 : Int) : Bool :=
  match t with
  | .none => false
  | .standard => decide ((nSwa : Int) ≤ p1 - p0)
  | .chunked => decide (p0 < p1 / nSwa * nSwa)
  | .symmetric =>
    let half : Int := ((nSwa / 2 : Nat) : Int)
    decide (p1 - p0 < -half) || decide (half < p1 - p0)

/-- The constant members of `llama_kv_cache` that its operations read. -/
structure Config where
  /-- Cells per stream. -/
  kvSize : Nat
  /-- One unified stream, or one stream per sequence. -/
  nStream : Nat
  /-- Maximal number of sequences. -/
  nSeqMax : Nat
  /-- Sliding window size. -/
  nSwa : Nat
  /-- Sliding window type of this cache. -/
  swaType : SwaType
  /-- `hparams.n_pos_per_embd()`. -/
  nPosPerEmbd : Nat
  deriving DecidableEq, Repr

/-- What the constructor asserts and what its caller checked. -/
structure Config.Valid (f : Config) : Prop where
  stream : f.nStream = 1 ∨ f.nStream = f.nSeqMax
  pos : 0 < f.nStream
  seqMax : f.nSeqMax ≤ maxSeq

/-- Length of the `seq_to_stream` vector. -/
def Config.seqToStreamSize (f : Config) : Nat := if 1 < f.nStream then f.nStream else maxSeq

def Config.seqToStream (f : Config) (q : SeqId) : Nat := if 1 < f.nStream then q.val else 0

/-- A sequence id inside `seq_to_stream`. -/
def Config.ValidSeq (f : Config) (q : SeqId) : Prop := q.val < f.seqToStreamSize

instance (f : Config) (q : SeqId) : Decidable (f.ValidSeq q) := Nat.decLt _ _

/-- The mutable members of `llama_kv_cache`, tensors apart. -/
structure Cache where
  /-- Constant members. -/
  cfg : Config
  /-- `v_heads`: where the search for a slot starts, per stream. -/
  heads : Nat → Nat
  /-- `v_cells`: the cells of each stream. -/
  cells : Nat → Cells
  /-- `sc_info`: pending copies between streams, source and destination. -/
  scInfo : List (Nat × Nat)
  /-- Ghost: no assertion of the cache itself has failed so far. -/
  ok : Bool

/-- `llama_ubatch`, the members that the cache reads. -/
structure Ubatch where
  nTokens : Nat
  /-- Positions per token. -/
  nPos : Nat
  /-- `pos[n_tokens*n_pos]`, one section of `n_tokens` entries per kind of position. -/
  pos : Nat → Int
  /-- `seq_id[i][0 .. n_seq_id[i]]`. -/
  seqId : Nat → List SeqId
  /-- Unique sequence ids of the ubatch. -/
  seqIdUnq : List SeqId

def Ubatch.isPos2d (u : Ubatch) : Bool := decide (3 ≤ u.nPos)

/-- The `ext` that `apply_ubatch` builds for token `i`. -/
def Ubatch.ext (u : Ubatch) (i : Nat) : CellExt :=
  { x := u.pos (i + u.nTokens * 2), y := u.pos (i + u.nTokens) }

/-- `slot_info`: destination cells per stream. -/
structure SlotInfo where
  /-- Least stream. -/
  s0 : Nat
  /-- Greatest stream. -/
  s1 : Nat
  /-- Stream of each entry. -/
  strm : List Nat
  /-- Cell indices of each entry. -/
  idxs : List (List Nat)
  deriving DecidableEq, Repr

/-- `slot_info::size()`: tokens per stream. -/
def SlotInfo.size (s : SlotInfo) : Nat := (s.idxs.headD []).length

/-- Stream of entry `s`. -/
def SlotInfo.strmAt (si : SlotInfo) (s : Nat) : Nat := si.strm.getD s 0

/-- Indices of entry `s`. -/
def SlotInfo.idxsAt (si : SlotInfo) (s : Nat) : List Nat := si.idxs.getD s []

namespace Cache

/-- The constructor: empty cells, heads at zero. -/
def init (f : Config) : Cache :=
  { cfg := f, heads := fun _ => 0, cells := fun _ => Cells.resize f.kvSize, scInfo := [],
    ok := true }

/-- Meet an assertion of the cache itself. -/
def assert (c : Cache) (p : Bool) : Cache := { c with ok := c.ok && p }

/-- Overwrite the cells of a stream. -/
def setCells (c : Cache) (t : Nat) (x : Cells) : Cache :=
  { c with cells := Function.update c.cells t x }

/-- Overwrite the head of a stream. -/
def setHead (c : Cache) (t : Nat) (h : Nat) : Cache :=
  { c with heads := Function.update c.heads t h }

/-- `clear(data)`, metadata part. -/
def clear (c : Cache) : Cache :=
  { c with
    cells := fun t => if t < c.cfg.nStream then (c.cells t).reset else c.cells t
    heads := fun t => if t < c.cfg.nStream then 0 else c.heads t }

def getSize (c : Cache) : Nat := (c.cells (c.cfg.seqToStream 0)).size

/-- A range bound below zero is open. -/
def lower (p0 : Int) : Int := if p0 < 0 then 0 else p0

@[inherit_doc lower]
def upper (p1 : Int) : Int := if p1 < 0 then posMax else p1

/-- Remember the first freed cell; `size` stands for none. -/
def firstFreed (size newHead i : Nat) : Nat := if newHead = size then i else newHead

/-- If a slot was freed before the head, the search may start there. -/
def lowerHead (c : Cache) (t newHead : Nat) : Cache :=
  if newHead ≠ (c.cells t).size ∧ newHead < c.heads t then c.setHead t newHead else c

/-- Loop body of `seq_rm` for one sequence. -/
def seqRmBody (q : SeqId) (p0 p1 : Int) (st : Cells × Nat) (i : Nat) : Cells × Nat :=
  let x := st.1.assert (decide (i < st.1.size))
  if !x.posIn i p0 p1 then (x, st.2)
  else if x.seqHas i q then
    let r := x.seqRm i q
    (r.1, if r.2 then firstFreed x.size st.2 i else st.2)
  else (x, st.2)

/-- Loop body of `seq_rm` for any sequence. -/
def rmBody (p0 p1 : Int) (st : Cells × Nat) (i : Nat) : Cells × Nat :=
  let x := st.1.assert (decide (i < st.1.size))
  if !x.posIn i p0 p1 then (x, st.2) else (x.rm i, firstFreed x.size st.2 i)

/-- Run a loop body over all cells of a stream and move the head to a freed cell. -/
def sweep (c : Cache) (t : Nat) (body : Cells × Nat → Nat → Cells × Nat) : Cache :=
  let x := c.cells t
  let r := (List.range x.size).foldl body (x, x.size)
  (c.setCells t r.1).lowerHead t r.2

/-- `seq_rm(seq_id, p0, p1)`; `none` is the `-1` that matches any sequence. -/
def seqRm (c : Cache) (q : Option SeqId) (p0 p1 : Int) : Cache :=
  match q with
  | some q =>
    let c := c.assert (decide (c.cfg.ValidSeq q))
    c.sweep (c.cfg.seqToStream q) (seqRmBody q (lower p0) (upper p1))
  | none =>
    (List.range c.cfg.nStream).foldl (fun c t => c.sweep t (rmBody (lower p0) (upper p1))) c

/-- Loop body of `seq_cp` inside one stream. -/
def seqCpBody (src dst : SeqId) (p0 p1 : Int) (x : Cells) (i : Nat) : Cells :=
  let x := x.assert (decide (i < x.size))
  if !x.posIn i p0 p1 then x else if x.seqHas i src then x.seqAdd i dst else x

/-- Loop body of `seq_cp` from the cells `x` of another stream. -/
def crossCpBody (x : Cells) (src dst : SeqId) (c : Cache) (s0 s1 : Nat) (i : Nat) : Cache :=
  if x.seqHas i src then
    let e := x.cell i
    let c := c.setCells s0 ((c.cells s0).assert (x.nonEmptyPre i))
    let c := c.assert (e.shift == 0 || decide (0 ≤ e.pos - e.shift))
    let y := c.cells s1
    let y := y.posSet i (if e.shift ≠ 0 then e.pos - e.shift else e.pos)
    let y := y.seqAdd i dst
    let y := if e.shift ≠ 0 then (y.posAdd i e.shift).1 else y
    c.setCells s1 (y.extSet i e.ext)
  else c

/-- The range argument of a copy between streams must cover the whole stream. -/
def isFull (c : Cache) (p0 p1 : Int) : Bool :=
  !(decide (0 < p0) && decide (p0 + 1 < c.getSize)) &&
    !(decide (0 < p1) && decide (p1 + 1 < c.getSize))

def seqCp (c : Cache) (src dst : SeqId) (p0 p1 : Int) : Cache :=
  let c := c.assert (decide (c.cfg.ValidSeq src) && decide (c.cfg.ValidSeq dst))
  let s0 := c.cfg.seqToStream src
  let s1 := c.cfg.seqToStream dst
  if s0 = s1 then
    if src = dst then c
    else
      let x := c.cells s0
      c.setCells s0 ((List.range x.size).foldl (seqCpBody src dst (lower p0) (upper p1)) x)
  else
    let c := c.assert (c.isFull p0 p1)
    let c := { c with scInfo := c.scInfo ++ [(s0, s1)] }
    let x := c.cells s0
    let c := c.setCells s1 (c.cells s1).reset
    let c := (List.range x.size).foldl (fun c i => crossCpBody x src dst c s0 s1 i) c
    c.setHead s1 (c.heads s0)

/-- Loop body of `seq_keep`. -/
def seqKeepBody (q : SeqId) (st : Cells × Nat) (i : Nat) : Cells × Nat :=
  let r := st.1.seqKeep i q
  (r.1, if r.2 then firstFreed st.1.size st.2 i else st.2)

def seqKeep (c : Cache) (q : SeqId) : Cache :=
  let c := c.assert (decide (c.cfg.ValidSeq q))
  c.sweep (c.cfg.seqToStream q) (seqKeepBody q)

/-- Loop body of `seq_add`. -/
def seqAddBody (q : SeqId) (p0 p1 d : Int) (st : Cells × Nat) (i : Nat) : Cells × Nat :=
  let x := st.1.assert (decide (i < st.1.size))
  if !x.posIn i p0 p1 then (x, st.2)
  else if x.seqHas i q then
    let r := x.posAdd i d
    (r.1, if r.2 then firstFreed x.size st.2 i else st.2)
  else (x, st.2)

/-- `seq_add(seq_id, p0, p1, shift)`. -/
def seqAdd (c : Cache) (q : SeqId) (p0 p1 d : Int) : Cache :=
  let c := c.assert (decide (c.cfg.ValidSeq q) && c.cfg.nPosPerEmbd == 1)
  let t := c.cfg.seqToStream q
  if d = 0 then c
  else if lower p0 = upper p1 then c
  else
    let x := c.cells t
    let r := (List.range x.size).foldl (seqAddBody q (lower p0) (upper p1) d) (x, x.size)
    (c.setCells t r.1).setHead t (if r.2 ≠ r.1.size then r.2 else 0)

/-- Loop body of `seq_div`. -/
def seqDivBody (q : SeqId) (p0 p1 d : Int) (x : Cells) (i : Nat) : Cells :=
  let x := x.assert (decide (i < x.size))
  if !x.posIn i p0 p1 then x else if x.seqHas i q then x.posDiv i d else x

def seqDiv (c : Cache) (q : SeqId) (p0 p1 d : Int) : Cache :=
  let c := c.assert (decide (c.cfg.ValidSeq q) && c.cfg.nPosPerEmbd == 1)
  let t := c.cfg.seqToStream q
  if d = 1 then c
  else if lower p0 = upper p1 then c
  else
    let x := c.cells t
    c.setCells t ((List.range x.size).foldl (seqDivBody q (lower p0) (upper p1) d) x)

def seqPosMin (c : Cache) (q : SeqId) : Int := (c.cells (c.cfg.seqToStream q)).seqPosMin q

def seqPosMax (c : Cache) (q : SeqId) : Int := (c.cells (c.cfg.seqToStream q)).seqPosMax q

end Cache

/-- State of the search loop of `find_slot` for one stream. -/
structure Search where
  /-- Next cell to test. -/
  headCur : Nat
  /-- Number of cells tested. -/
  nTested : Nat
  /-- Cells found so far. -/
  idxs : List Nat
  /-- Ghost: the assertions of the reads held. -/
  ok : Bool
  deriving DecidableEq, Repr

/-- Can the search use this cell: it is empty, or owned by one sequence and masked there. -/
def Cells.canUse (x : Cells) (nSwa : Nat) (t : SwaType) (i : Nat) : Bool :=
  x.isEmpty i || (x.seqCount i == 1 &&
    match x.seqGet i with
    | some q => isMaskedSwa nSwa t (x.cell i).pos (x.seqPosMax q + 1)
    | none => false)

/-- The assertions met while a cell is tested. -/
def Cells.canUsePre (x : Cells) (i : Nat) : Bool :=
  x.isEmptyPre i && (x.isEmpty i || x.nonEmptyPre i)

/-- The inner loop of the search; a continuous search stops at an unusable cell. -/
def testCells (f : Config) (x : Cells) (cont : Bool) : Nat → Search → Search
  | 0, st => st
  | n + 1, st =>
    let i := st.headCur
    let st := { st with
      headCur := st.headCur + 1, nTested := st.nTested + 1, ok := st.ok && x.canUsePre i }
    if x.canUse f.nSwa f.swaType i then
      testCells f x cont n { st with idxs := st.idxs ++ [i] }
    else if cont then st else testCells f x cont n st

/-- The search loop. Each turn tests a cell or wraps around, so `2 * size + 2` turns
are enough; the first component is `none` when no slot was found. -/
def searchLoop (f : Config) (x : Cells) (nTokens nTest : Nat) (cont : Bool) :
    Nat → Search → Option (List Nat) × Bool
  | 0, st => (none, st.ok)
  | fuel + 1, st =>
    if x.size < st.headCur + nTest then
      searchLoop f x nTokens nTest cont fuel
        { st with nTested := st.nTested + (x.size - st.headCur), headCur := 0 }
    else
      let st := testCells f x cont nTest st
      if st.idxs.length = nTokens then (some st.idxs, st.ok)
      else
        let st := if cont then { st with idxs := [] } else st
        if x.size ≤ st.nTested then (none, st.ok)
        else searchLoop f x nTokens nTest cont fuel st

/-- The part of `find_slot` for the cells of one stream. -/
def findSlotStream (f : Config) (x : Cells) (head nTokens : Nat) (cont : Bool) :
    Option (List Nat) × Bool :=
  let head := if x.getUsed + 2 * nTokens < head then 0 else head
  if x.size < nTokens then (none, true)
  else searchLoop f x nTokens (if cont then nTokens else 1) cont (2 * x.size + 2)
    { headCur := head, nTested := 0, idxs := [], ok := true }

namespace Cache

/-- `find_slot`, the loop over the streams of the ubatch. The flag is the conjunction of
the assertions met. -/
def findSlotLoop (c : Cache) (u : Ubatch) (cont : Bool) (nTokens : Nat) :
    List SeqId → Nat → SlotInfo → Option SlotInfo × Bool
  | [], _, res => (some res, decide (res.s0 ≤ res.s1))
  | q :: qs, s, res =>
    let pre := decide (c.cfg.nStream ≤ 1) || (u.seqId (s * nTokens)).map Fin.val == [q.val]
    let t := c.cfg.seqToStream q
    match findSlotStream c.cfg (c.cells t) (c.heads t) nTokens cont with
    | (none, ok) => (none, pre && ok)
    | (some idxs, ok) =>
      let r := findSlotLoop c u cont nTokens qs (s + 1)
        { s0 := min res.s0 t, s1 := max res.s1 t, strm := res.strm ++ [t],
          idxs := res.idxs ++ [idxs] }
      (r.1, pre && ok && r.2)

/-- `find_slot(ubatch, cont)`; `none` is the empty `slot_info`. -/
def findSlot (c : Cache) (u : Ubatch) (cont : Bool) : Option SlotInfo × Bool :=
  let empty : SlotInfo := { s0 := maxSeq, s1 := 0, strm := [], idxs := [] }
  if 1 < c.cfg.nStream then
    let r := findSlotLoop c u cont (u.nTokens / u.seqIdUnq.length) u.seqIdUnq 0 empty
    (r.1, u.nTokens % u.seqIdUnq.length == 0 && r.2)
  else findSlotLoop c u cont u.nTokens (u.seqIdUnq.take 1) 0 empty

/-- Per sequence, the greatest position overwritten so far; `-1` for none. -/
abbrev RmMax := SeqId → Int

/-- Body of the placing loop of `apply_ubatch`: token `i` goes to cell `idx`. -/
def placeToken (u : Ubatch) (st : Cells × RmMax) (idx i : Nat) : Cells × RmMax :=
  let x := st.1.assert (st.1.isEmptyPre idx)
  let st : Cells × RmMax :=
    if !x.isEmpty idx then
      let y := x.assert (x.nonEmptyPre idx && x.seqCount idx == 1)
      (y.rm idx, match x.seqGet idx with
        | some q => Function.update st.2 q (max (st.2 q) (x.cell idx).pos)
        | none => st.2)
    else (x, st.2)
  let x := st.1.posSet idx (u.pos i)
  let x := if u.isPos2d then x.extSet idx (u.ext i) else x
  ((u.seqId i).foldl (fun x q => x.seqAdd idx q) x, st.2)

/-- The placing loop for entry `s` of the slot. -/
def placeStream (u : Ubatch) (si : SlotInfo) (st : Cache × RmMax) (s : Nat) : Cache × RmMax :=
  let t := si.strmAt s
  let r := (List.range si.size).foldl
    (fun st ii => placeToken u st ((si.idxsAt s).getD ii 0) (s * si.size + ii))
    (st.1.cells t, st.2)
  (st.1.setCells t r.1, r.2)

/-- Purge the positions of a sequence below those that were overwritten. -/
def purgeSeq (rmMax : RmMax) (c : Cache) (q : SeqId) : Cache :=
  if rmMax q = -1 then c
  else
    let c := c.assert (decide (c.cfg.ValidSeq q))
    if c.seqPosMin q ≤ rmMax q then c.seqRm (some q) (c.seqPosMin q) (rmMax q + 1) else c

/-- Move the head of an entry's stream behind the slot. -/
def moveHead (si : SlotInfo) (c : Cache) (s : Nat) : Cache :=
  c.setHead (si.strmAt s) ((si.idxsAt s).getLastD 0 + 1)

/-- `apply_ubatch(sinfo, ubatch)`. -/
def applyUbatch (c : Cache) (si : SlotInfo) (u : Ubatch) : Cache :=
  let c := c.assert (u.nTokens == si.strm.length * si.size)
  let r := (List.range si.strm.length).foldl (placeStream u si) (c, fun _ => -1)
  let c := (List.finRange maxSeq).foldl (purgeSeq r.2) r.1
  (List.range si.strm.length).foldl (moveHead si) c

end Cache

end Llama.Kv
