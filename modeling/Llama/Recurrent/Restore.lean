import Llama.Lib.Parse
import Llama.Lib.Wp
import Llama.Recurrent.Memory

/-!
# Restoring the whole recurrent memory

`state_read` of `llama_memory_recurrent` for all sequences. A read past the end of the stream
throws and leaves the memory as it is at that moment; an index beyond the cells is told apart
from an exception.
-/

namespace Llama.Recurrent

open Bytes Wp

/-- How a program is left. -/
inductive Exit where
  /-- An exception. -/
  | thrown
  /-- An index beyond the cells. -/
  | outOfRange
  deriving DecidableEq, Repr

/-- The tensors of a layer that is not null: types and `ggml_row_size`. -/
structure StateLayer where
  rType : Nat
  rSizeRow : Nat
  sType : Nat
  sSizeRow : Nat
  deriving DecidableEq, Repr

/-- `llama_memory_recurrent` with its tensors. -/
structure Store where
  /-- The cells. -/
  memory : Memory
  /-- `r_l` and `s_l`; a skipped layer is null. -/
  layers : List (Option StateLayer)
  /-- Memories of the tensors in `r_l`. -/
  r : Nat → Nat → UInt8
  /-- Memories of the tensors in `s_l`. -/
  s : Nat → Nat → UInt8

/-- `clear` with the data. -/
def Store.clear (st : Store) : Store :=
  { st with memory := st.memory.clear, r := fun _ _ => 0, s := fun _ _ => 0 }

/-- A program that reads from a stream into the memory. -/
abbrev Io := EStateM Exit (Store × List UInt8)

def read (n : Nat) : Io (List UInt8) := fun (st, s) =>
  if n ≤ s.length then .ok (s.take n) (st, s.drop n) else .error .thrown (st, s)

/-- Read an unsigned integer of `w` bytes. -/
def readUint (w : Nat) : Io Nat := do
  let bs ← read w
  pure (leNat bs)

/-- Read a signed integer of `w` bytes. -/
def readInt (w : Nat) : Io Int := do
  let bs ← read w
  pure (signed w (leNat bs))

/-- Change the memory. -/
def change (f : Store → Store) : Io Unit := modify fun σ => (f σ.1, σ.2)

def cellAt (c : Nat) : Io Cell := do
  let σ ← get
  if c < σ.1.memory.size then pure (σ.1.memory.cells c) else throw .outOfRange

def changeCell (c : Nat) (f : Cell → Cell) : Io Unit := do
  let _ ← cellAt c
  change fun st => { st with memory := st.memory.modify c f }

/-- The loop over the sequences of cell `i`. -/
def readIds (i : Nat) : Nat → Io Bool
  | 0 => pure true
  | n + 1 => do
    let seqId ← readInt 4
    if seqId < 0 then pure false
    else do
      changeCell i fun x => { x with seqId := insert seqId.toNat x.seqId }
      let x ← cellAt seqId.toNat
      if x.tail ≠ none then pure false
      else do
        changeCell seqId.toNat fun x => { x with tail := some i }
        readIds i n

/-- The loop over the cells from `i` on. -/
def readCells : Nat → Nat → Io Bool
  | 0, _ => pure true
  | n + 1, i => do
    let _ ← cellAt i
    let pos ← readInt 4
    let nSeqId ← readUint 4
    changeCell i fun x => { x with pos := pos }
    let res ← readIds i nSeqId
    if res then readCells n (i + 1) else pure false

/-- The loop that keeps the restored states. -/
def keepStates : List Nat → Io Unit
  | [] => pure ()
  | i :: is => do
    let σ ← get
    let cellId := σ.1.memory.head + i
    changeCell cellId fun x => { x with src := some cellId }
    keepStates is

/-- `state_read_meta` for all sequences. -/
def stateReadMeta (cellCount : Nat) : Io Bool := do
  let σ ← get
  if σ.1.memory.size < cellCount then pure false
  else do
    change Store.clear
    let res ← readCells cellCount 0
    if res then do
      change fun st => { st with memory := { st.memory with head := 0, used := cellCount } }
      keepStates (List.range cellCount)
      pure true
    else pure false

/-- Write the rows of the restored cells to a tensor. -/
def Store.setR (il sizeRow : Nat) (bs : List UInt8) (st : Store) : Store :=
  { st with r := Function.update st.r il (blit (st.r il) (st.memory.head * sizeRow) bs) }

/-- The same for `s_l`. -/
def Store.setS (il sizeRow : Nat) (bs : List UInt8) (st : Store) : Store :=
  { st with s := Function.update st.s il (blit (st.s il) (st.memory.head * sizeRow) bs) }

/-- Read one tensor of a layer. -/
def readTensor (set : Nat → List UInt8 → Store → Store) (cellCount type sizeRow : Nat) :
    Io Bool := do
  let typeRef ← readInt 4
  if typeRef ≠ type then pure false
  else do
    let sizeRowRef ← readUint 8
    if sizeRowRef ≠ sizeRow then pure false
    else if cellCount ≠ 0 then do
      let bs ← read (cellCount * sizeRow)
      change (set sizeRow bs)
      pure true
    else pure true

/-- The loop over the layers from `il` on, for `r_l` or `s_l`. -/
def readLayers (set : Nat → Nat → List UInt8 → Store → Store) (part : StateLayer → Nat × Nat)
    (cellCount : Nat) : List (Option StateLayer) → Nat → Io Bool
  | [], _ => pure true
  | none :: ls, il => readLayers set part cellCount ls (il + 1)
  | some l :: ls, il => do
    let res ← readTensor (set il) cellCount (part l).1 (part l).2
    if res then readLayers set part cellCount ls (il + 1) else pure false

/-- `state_read_data`. The branch for transposed states is behind the check that they are not. -/
def stateReadData (cellCount : Nat) : Io Bool := do
  let sTrans ← readUint 4
  let nLayer ← readUint 4
  let σ ← get
  if nLayer ≠ σ.1.layers.length then pure false
  else if σ.1.memory.size < cellCount then pure false
  else if sTrans ≠ 0 then pure false
  else do
    let res ← readLayers Store.setR (fun l => (l.rType, l.rSizeRow)) cellCount σ.1.layers 0
    if res then readLayers Store.setS (fun l => (l.sType, l.sSizeRow)) cellCount σ.1.layers 0
    else pure false

/-- `state_read` with `seq_id = -1`. -/
def stateRead : Io Unit := do
  let cellCount ← readUint 4
  let res ← stateReadMeta cellCount
  let res ← if res then stateReadData cellCount else pure false
  if res then pure ()
  else do
    change Store.clear
    throw .thrown

/-- How the reading of a part of a stream ends. -/
inductive Tail where
  /-- The part is there, and this follows it. -/
  | read (rest : List UInt8)
  /-- A check does not hold. -/
  | refused
  /-- A sequence number is beyond the cells. -/
  | beyond
  /-- The stream is too short. -/
  | short

/-- The sequence numbers of a cell in a stream, given those that were taken before; `taken'` has
those that are read before the end. -/
inductive Ids (size : Nat) : Finset Nat → Nat → List UInt8 → Finset Nat → Tail → Prop where
  | done (taken s) : Ids size taken 0 s taken (.read s)
  | short (taken n s) (h : s.length < 4) : Ids size taken (n + 1) s taken .short
  | refused (taken n s) (z : Int) (hz : FitsInt 4 z) (h : z < 0 ∨ z.toNat ∈ taken) :
      Ids size taken (n + 1) (intBytes 4 z ++ s) taken .refused
  | beyond (taken n s) (z : Int) (hz : FitsInt 4 z) (h : (size : Int) ≤ z) :
      Ids size taken (n + 1) (intBytes 4 z ++ s) taken .beyond
  | next (taken n s) (z : Int) (hz : FitsInt 4 z) (h0 : 0 ≤ z) (hlt : z < size)
      (hnew : z.toNat ∉ taken) {taken' tail} (h : Ids size (insert z.toNat taken) n s taken' tail) :
      Ids size taken (n + 1) (intBytes 4 z ++ s) taken' tail

/-- What the cells of a stream hold so far: the sequence numbers, and whether every position is
that of an empty cell. -/
structure Seen where
  taken : Finset Nat
  blank : Prop

/-- Nothing that a cleared memory does not have. -/
def Seen.Nothing (x : Seen) : Prop := x.taken = ∅ ∧ x.blank

/-- The cells of a stream. -/
inductive Cells (size : Nat) : Seen → Nat → List UInt8 → Seen → Tail → Prop where
  | done (x s) : Cells size x 0 s x (.read s)
  | short (x n s) (h : s.length < 8) : Cells size x (n + 1) s x .short
  | next (x n s) (pos : Int) (k : Nat) (hpos : FitsInt 4 pos) (hk : k < 256 ^ 4)
      {taken' s' x' tail} (hids : Ids size x.taken k s taken' (.read s'))
      (h : Cells size ⟨taken', x.blank ∧ pos = -1⟩ n s' x' tail) :
      Cells size x (n + 1) (intBytes 4 pos ++ (leBytes 4 k ++ s)) x' tail
  | last (x n s) (pos : Int) (k : Nat) (hpos : FitsInt 4 pos) (hk : k < 256 ^ 4) {taken' tail}
      (hids : Ids size x.taken k s taken' tail) (htail : ∀ s', tail ≠ .read s') :
      Cells size x (n + 1) (intBytes 4 pos ++ (leBytes 4 k ++ s)) ⟨taken', x.blank ∧ pos = -1⟩ tail

/-- The tensors of a stream, with their types and row sizes. -/
inductive Tensors (cellCount : Nat) : List (Nat × Nat) → List UInt8 → Tail → Prop where
  | done (s) : Tensors cellCount [] s (.read s)
  | shortType (p ps s) (h : s.length < 4) : Tensors cellCount (p :: ps) s .short
  | type (p ps s) (z : Int) (hz : FitsInt 4 z) (h : z ≠ p.1) :
      Tensors cellCount (p :: ps) (intBytes 4 z ++ s) .refused
  | shortSizeRow (p ps s) (hp : FitsInt 4 p.1) (h : s.length < 8) :
      Tensors cellCount (p :: ps) (intBytes 4 p.1 ++ s) .short
  | sizeRow (p ps s) (hp : FitsInt 4 p.1) (n : Nat) (hn : n < 256 ^ 8) (h : n ≠ p.2) :
      Tensors cellCount (p :: ps) (intBytes 4 p.1 ++ (leBytes 8 n ++ s)) .refused
  | shortRows (p ps s) (hp : FitsInt 4 p.1) (hn : p.2 < 256 ^ 8)
      (h : s.length < cellCount * p.2) :
      Tensors cellCount (p :: ps) (intBytes 4 p.1 ++ (leBytes 8 p.2 ++ s)) .short
  | next (p ps bs s) (hp : FitsInt 4 p.1) (hn : p.2 < 256 ^ 8)
      (hbs : bs.length = cellCount * p.2) {tail} (h : Tensors cellCount ps s tail) :
      Tensors cellCount (p :: ps) (intBytes 4 p.1 ++ (leBytes 8 p.2 ++ (bs ++ s))) tail

/-- Types and row sizes of the tensors, in the order of a stream. -/
def Store.tensors (st : Store) : List (Nat × Nat) :=
  st.layers.filterMap (Option.map fun l => (l.rType, l.rSizeRow)) ++
    st.layers.filterMap (Option.map fun l => (l.sType, l.sSizeRow))

/-- The states of a stream. -/
inductive Data (st : Store) (cellCount : Nat) : List UInt8 → Tail → Prop where
  | short (s) (h : s.length < 8) : Data st cellCount s .short
  | refused (s) (sTrans nLayer : Nat) (hs : sTrans < 256 ^ 4) (hn : nLayer < 256 ^ 4)
      (h : nLayer ≠ st.layers.length ∨ sTrans ≠ 0) :
      Data st cellCount (leBytes 4 sTrans ++ (leBytes 4 nLayer ++ s)) .refused
  | tensors (s) (hn : st.layers.length < 256 ^ 4) {tail}
      (h : Tensors cellCount st.tensors s tail) :
      Data st cellCount (leBytes 4 0 ++ (leBytes 4 st.layers.length ++ s)) tail

/-- The memory is as `clear` leaves it. -/
structure Store.Cleared (st : Store) : Prop where
  head : st.memory.head = 0
  used : st.memory.used = 0
  cells : ∀ c < st.memory.size, (st.memory.cells c).pos = -1 ∧ (st.memory.cells c).src = none ∧
    (st.memory.cells c).tail = none ∧ (st.memory.cells c).seqId = ∅
  r : st.r = fun _ _ => 0
  s : st.s = fun _ _ => 0

/-- The streams that are not restored safely into a memory. -/
inductive Hazard (st : Store) (s : List UInt8) : Prop where
  /-- There is no number of cells, and the memory was not clear before. -/
  | noCount (h : s.length < 4) (hst : ¬ st.Cleared)
  /-- A sequence number is beyond the cells. -/
  | beyond (cellCount rest) (hs : s = leBytes 4 cellCount ++ rest)
      (hcount : cellCount < 256 ^ 4) (hle : cellCount ≤ st.memory.size) (x : Seen)
      (h : Cells st.memory.size ⟨∅, True⟩ cellCount rest x .beyond)
  /-- The stream ends in the cells when there is something in the memory. -/
  | shortCells (cellCount rest) (hs : s = leBytes 4 cellCount ++ rest)
      (hcount : cellCount < 256 ^ 4) (hle : cellCount ≤ st.memory.size) (x : Seen)
      (h : Cells st.memory.size ⟨∅, True⟩ cellCount rest x .short) (hx : ¬ x.Nothing)
  /-- The stream ends in the states of some cells. -/
  | shortData (cellCount rest data) (hs : s = leBytes 4 cellCount ++ rest)
      (hcount : cellCount < 256 ^ 4) (hle : cellCount ≤ st.memory.size) (hpos : 0 < cellCount)
      (x : Seen) (h : Cells st.memory.size ⟨∅, True⟩ cellCount rest x (.read data))
      (hdata : Data st cellCount data .short)

end Llama.Recurrent
