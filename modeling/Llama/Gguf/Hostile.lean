import Llama.Gguf.Format
import Llama.Lib.Parse

/-!
# Reading arbitrary files

`gguf_init_from_file_impl` on bytes nobody vouches for. A null pointer is told apart from a
failed assertion, a division by zero and a signed multiplication that overflows, sizes wrap
around at `2 ^ 64`, and keys are compared as C strings. Containers are assumed to get their
memory; the pool of the tensors, whose size the file chooses, may be refused by `malloc`.
-/

namespace Llama.Gguf

open Bytes

/-- What kills the program. -/
inductive Fault where
  /-- `GGML_ASSERT`. -/
  | assertion
  /-- Division of an integer by zero. -/
  | divisionByZero
  /-- A product that `int64_t` does not hold. -/
  | overflow
  deriving DecidableEq, Repr

/-- `gguf_init_params`. -/
structure InitParams where
  /-- Do not load the data. -/
  noAlloc : Bool
  /-- A `ggml_context` is asked for. -/
  ctx : Bool
  deriving DecidableEq, Repr

/-- A quotient of signed integers that are not negative. -/
def divInt (a b : Nat) : Run Fault Nat := do
  Run.ensure (b != 0) .divisionByZero
  pure (a / b)

/-- A product of signed integers that are not negative. -/
def mulInt (a b : Nat) : Run Fault Nat := do
  Run.ensure (decide (a * b ≤ int64Max)) .overflow
  pure (a * b)

/-- `size_t` arithmetic. -/
def word (n : Nat) : Nat := n % 2 ^ 64

/-- `GGML_PAD` in `size_t`, for powers of two. -/
def wordPad (x n : Nat) : Nat := word (x + n - 1) / n * n

/-- The strides that `gguf_init_from_file_impl` stores. -/
def Traits.wordNb (T : Traits) (type : Nat) (ne : Dims) : Nat × Nat × Nat × Nat :=
  let nb0 := T.typeSize type
  let nb1 := word (nb0 * (ne.d0 / T.blckSize type))
  let nb2 := word (nb1 * ne.d1)
  let nb3 := word (nb2 * ne.d2)
  (nb0, nb1, nb2, nb3)

/-- `ggml_nbytes`. -/
def Traits.wordNbytes (T : Traits) (type : Nat) (ne : Dims) : Nat :=
  if ne.d0 = 0 ∨ ne.d1 = 0 ∨ ne.d2 = 0 ∨ ne.d3 = 0 then 0
  else
    let (nb0, nb1, nb2, nb3) := T.wordNb type ne
    let rest := (ne.d1 - 1) * nb1 + (ne.d2 - 1) * nb2 + (ne.d3 - 1) * nb3
    if T.blckSize type = 1 then word (T.typeSize type + (ne.d0 - 1) * nb0 + rest)
    else word (word (ne.d0 * nb0) / T.blckSize type + rest)

/-- `ggml_nbytes` of a tensor of a file. -/
def Info.wordNbytes (T : Traits) (t : Info) : Nat := T.wordNbytes t.type t.ne

/-- A `std::string` seen through `c_str`. -/
def cString (s : List UInt8) : List UInt8 := s.takeWhile fun b => b != 0

/-- One turn of the loop over the key-value pairs, given those before it. -/
def readKvRun (acc : List Kv) : Run Fault Kv := do
  let key ← Run.ofReader readString
  Run.guard (acc.all fun x => x.key != key)
  let x ← Run.ofReader (readTyped key)
  -- the constructor of `gguf_kv`
  Run.ensure (decide (key ≠ [])) .assertion
  pure x

/-- The loop over the key-value pairs. -/
def readKvsRun : Nat → List Kv → Run Fault (List Kv)
  | 0, acc => pure acc
  | n + 1, acc => do
    let x ← readKvRun acc
    readKvsRun n (acc ++ [x])

/-- `gguf_find_key` for the alignment. -/
def findAlignment (kv : List Kv) : Option Kv := kv.find? fun x => cString x.key == alignmentKey

/-- The alignment is taken from the keys. -/
def readAlignment (kv : List Kv) : Run Fault Nat :=
  match findAlignment kv with
  | none => pure defaultAlignment
  | some x => do
    -- `gguf_get_val_u32`
    Run.ensure (decide (x.ne = 1)) .assertion
    Run.ensure (decide (x.type = .uint32)) .assertion
    pure (leNat x.data)

/-- The name of a tensor, given those before it. -/
def readName (acc : List Info) : Run Fault (List UInt8) := do
  let name ← Run.ofReader readString
  Run.guard (decide (name.length < 64))
  Run.guard (acc.all fun x => x.name != cString name)
  pure (cString name)

/-- Dimensions that are not in the file are 1. -/
def Dims.ofList (ds : List Nat) : Dims := ⟨ds.getD 0 1, ds.getD 1 1, ds.getD 2 1, ds.getD 3 1⟩

/-- The check that the total number of elements is representable. -/
def checkElements (ne : Dims) : Run Fault Unit := do
  let q1 ← divInt int64Max ne.d1
  Run.guard (decide (ne.d0 < q1))
  let p1 ← mulInt ne.d0 ne.d1
  let q2 ← divInt int64Max ne.d2
  Run.guard (decide (p1 < q2))
  let p2 ← mulInt p1 ne.d2
  let q3 ← divInt int64Max ne.d3
  Run.guard (decide (p2 < q3))

/-- The shape of a tensor. -/
def readShape : Run Fault Dims := do
  let nDims ← Run.ofReader (Reader.uint 4)
  Run.guard (decide (nDims ≤ 4))
  let ds ← Run.ofReader (readDims nDims [])
  checkElements (Dims.ofList ds)
  pure (Dims.ofList ds)

/-- The check that the size in bytes is representable, for a known type. -/
def checkBytes (T : Traits) (type : Nat) (ne : Dims) : Run Fault Unit := do
  let p1 ← mulInt ne.d0 ne.d1
  let p2 ← mulInt p1 ne.d2
  let nelements ← mulInt p2 ne.d3
  let blocks ← divInt nelements (T.blckSize type)
  let most ← divInt sizeMax (T.typeSize type)
  Run.guard (decide (blocks ≤ most))

/-- The type of a tensor of a given shape. -/
def readTensorType (T : Traits) (ne : Dims) : Run Fault Nat := do
  let type ← Run.ofReader (Reader.int 4)
  Run.guard (decide (0 ≤ type) && decide (type.toNat < T.count))
  Run.guard (decide (T.blckSize type.toNat ≠ 0 ∧ ne.d0 % T.blckSize type.toNat = 0))
  checkBytes T type.toNat ne
  pure type.toNat

/-- One turn of the loop over the tensors, given those before it. -/
def readInfoRun (T : Traits) (acc : List Info) : Run Fault Info := do
  let name ← readName acc
  let ne ← readShape
  let type ← readTensorType T ne
  let offset ← Run.ofReader (Reader.uint 8)
  pure { name := name, type := type, ne := ne, offset := offset }

/-- The loop over the tensors. -/
def readInfosRun (T : Traits) : Nat → List Info → Run Fault (List Info)
  | 0, acc => pure acc
  | n + 1, acc => do
    let x ← readInfoRun T acc
    readInfosRun T n (acc ++ [x])

/-- Magic, version and the numbers of tensors and key-value pairs. -/
def readCounts : Reader (Nat × Nat × Nat) := do
  let m ← Reader.bytes 4
  Reader.check (decide (m = magic))
  let version ← Reader.uint 4
  Reader.check (versionOk version)
  let nTensors ← Reader.int 8
  Reader.check (decide (0 ≤ nTensors ∧ nTensors ≤ maxTensors))
  let nKv ← Reader.int 8
  Reader.check (decide (0 ≤ nKv ∧ nKv ≤ maxKv))
  pure (version, nTensors.toNat, nKv.toNat)

/-- The key-value pairs and the alignment they give. -/
def readKvSection (nKv : Nat) : Run Fault (List Kv × Nat) := do
  let kv ← readKvsRun nKv []
  Run.ensure (decide (kv.length = nKv)) .assertion
  let alignment ← readAlignment kv
  Run.guard (decide (alignment ≠ 0 ∧ alignment &&& (alignment - 1) = 0))
  pure (kv, alignment)

/-- Everything before the data section. -/
def readMetaRun (T : Traits) : Run Fault Meta := do
  let (version, nTensors, nKv) ← Run.ofReader readCounts
  let (kv, alignment) ← readKvSection nKv
  let info ← readInfosRun T nTensors []
  Run.ensure (decide (info.length = nTensors)) .assertion
  pure { version := version, kv := kv, alignment := alignment, info := info }

/-- A result of code that reads nothing. -/
abbrev Res := Except (Stop Fault)

/-- `GGML_ASSERT`. -/
def assert (b : Bool) : Res Unit := if b then .ok () else .error (.fault .assertion)

/-- Return a null pointer unless a check holds. -/
def require (b : Bool) : Res Unit := if b then .ok () else .error .reject

/-- A `ggml_context`: size of the pool and end of the last object. -/
structure Pool where
  /-- Bytes of the pool. -/
  memSize : Nat
  /-- Bytes in use. -/
  used : Nat
  deriving DecidableEq, Repr

/-- `GGML_MEM_ALIGN`. -/
def memAlign : Nat := 16

/-- `GGML_TENSOR_SIZE`. -/
def tensorSize : Nat := 336

/-- `GGML_OBJECT_SIZE`. -/
def objectSize : Nat := 32

/-- Bytes that `ggml_init` asks for. -/
def poolSize (memSize : Nat) : Nat := wordPad (if memSize = 0 then memAlign else memSize) memAlign

/-- `ggml_init`; `ggml_aligned_malloc` gives nothing for 0 bytes. -/
def ggmlInit (malloc : Nat → Bool) (memSize : Nat) : Res Pool := do
  assert (decide (poolSize memSize ≠ 0) && malloc (poolSize memSize))
  pure { memSize := poolSize memSize, used := 0 }

/-- `ggml_new_object`, whose result `ggml_new_tensor_impl` asserts not to be null. -/
def newObject (p : Pool) (size : Nat) : Res Pool := do
  assert (decide (size ≤ sizeMax - (memAlign - 1)))
  let needed := wordPad size memAlign
  assert (decide (p.used ≤ sizeMax - needed))
  assert (decide (p.used + needed ≤ sizeMax - objectSize))
  assert (decide (p.used + needed + objectSize ≤ p.memSize))
  pure { p with used := p.used + needed + objectSize }

/-- `ggml_new_tensor` with so many bytes of data in the pool. -/
def newTensor (p : Pool) (data : Nat) : Res Pool := do
  assert (decide (tensorSize ≤ sizeMax - data))
  newObject p (tensorSize + data)

/-- The loop that creates the tensors, whose data is not in the pool. -/
def newTensors (T : Traits) (p : Pool) (info : List Info) : Res Pool :=
  info.foldlM (fun p t => do
    assert (decide (t.type < T.count))
    newTensor p 0) p

/-- The loop that computes the size of the data section and checks the offsets. -/
def wordDataSize (T : Traits) (alignment : Nat) : Nat → List Info → Option Nat
  | size, [] => some size
  | size, t :: ts =>
    if t.offset ≠ size then none
    else if sizeMax - size < wordPad (t.wordNbytes T) alignment then none
    else wordDataSize T alignment (word (size + wordPad (t.wordNbytes T) alignment)) ts

/-- A context that was returned. -/
structure Opened extends Meta where
  /-- Start of the data section. -/
  offset : Nat
  /-- Size of the data section. -/
  size : Nat
  /-- The data section, where it was loaded. -/
  blob : Option (List UInt8)

/-- The size of the pool; `n` tensors. -/
def memSize (params : InitParams) (n size : Nat) : Res Nat :=
  if params.noAlloc then do
    require (decide (n = 0 ∨ tensorOverhead ≤ sizeMax / n))
    pure (n * tensorOverhead)
  else do
    require (decide (tensorOverhead ≤ sizeMax / (n + 1)))
    require (decide (size ≤ sizeMax - (n + 1) * tensorOverhead))
    pure ((n + 1) * tensorOverhead + size)

/-- The tensor that holds the data section: `gguf_reader::read` compares with the bytes that
remained before the padding was skipped. -/
def loadBlob (p : Pool) (file : List UInt8) (remain offset size : Nat) :
    Res (Pool × List UInt8) := do
  let p ← newTensor p size
  require (decide (size ≤ remain))
  let blob := (file.drop offset).take size
  require (decide (blob.length = size))
  pure (p, blob)

/-- Load the data section unless the tensors stay empty. -/
def loadData (p : Pool) (params : InitParams) (file : List UInt8) (remain offset size : Nat) :
    Res (Pool × Option (List UInt8)) :=
  if params.noAlloc then pure (p, none)
  else do
    let r ← loadBlob p file remain offset size
    pure (r.1, some r.2)

/-- Create the `ggml_context` and its tensors if they are asked for; gives the data section if
it is loaded. -/
def createTensors (T : Traits) (malloc : Nat → Bool) (params : InitParams) (h : Meta)
    (file : List UInt8) (remain offset size : Nat) : Res (Option (List UInt8)) :=
  if params.ctx then do
    let mem ← memSize params h.info.length size
    let p ← ggmlInit malloc mem
    let r ← loadData p params file remain offset size
    let _ ← newTensors T r.1 h.info
    pure r.2
  else pure none

/-- Everything behind the header. -/
def openData (T : Traits) (malloc : Nat → Bool) (params : InitParams) (file : List UInt8)
    (h : Meta) (rest : List UInt8) : Res Opened := do
  let offset := wordPad (file.length - rest.length) h.alignment
  -- a negative offset cannot be sought
  require (decide (offset < 2 ^ 63))
  match wordDataSize T h.alignment 0 h.info with
  | none => .error .reject
  | some size => do
    let blob ← createTensors T malloc params h file rest.length offset size
    pure { toMeta := h, offset := offset, size := size, blob := blob }

/-- `gguf_init_from_file_impl`. -/
def initFromFileImpl (T : Traits) (malloc : Nat → Bool) (params : InitParams)
    (file : List UInt8) : Res Opened := do
  let p ← readMetaRun T file
  openData T malloc params file p.1 p.2

end Llama.Gguf
