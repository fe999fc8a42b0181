import Llama.Gguf.Context

/-!
# Writing and reading GGUF files

`gguf_write_to_buf` and `gguf_init_from_file_impl` with the tensor data loaded. A reader
consumes the file from the front; `none` is a null pointer or an abort. Loading into memory is
assumed to succeed when the size is representable.
-/

namespace Llama.Gguf

open Bytes

def sizeMax : Nat := 2 ^ 64 - 1

def int64Max : Nat := 2 ^ 63 - 1

/-- `GGUF_MAX_STRING_LENGTH`. -/
def maxStringLength : Nat := 1024 * 1024 * 1024

/-- `GGUF_MAX_ARRAY_ELEMENTS`. -/
def maxArrayElements : Nat := 1024 * 1024 * 1024

/-- `SIZE_MAX/sizeof(gguf_kv)`. -/
def maxKv : Nat := sizeMax / 88

/-- `SIZE_MAX/sizeof(gguf_tensor_info)`. -/
def maxTensors : Nat := sizeMax / 344

/-- `ggml_tensor_overhead`. -/
def tensorOverhead : Nat := 368

/-- `GGUF_MAGIC`. -/
def magic : List UInt8 := [71, 71, 85, 70]

/-- Number of a type in a file. -/
def GgufType.code : GgufType → Nat
  | .uint8 => 0
  | .int8 => 1
  | .uint16 => 2
  | .int16 => 3
  | .uint32 => 4
  | .int32 => 5
  | .float32 => 6
  | .bool => 7
  | .string => 8
  | .array => 9
  | .uint64 => 10
  | .int64 => 11
  | .float64 => 12

/-- The type of a number. -/
def GgufType.ofCode : Int → Option GgufType
  | 0 => some .uint8
  | 1 => some .int8
  | 2 => some .uint16
  | 3 => some .int16
  | 4 => some .uint32
  | 5 => some .int32
  | 6 => some .float32
  | 7 => some .bool
  | 8 => some .string
  | 9 => some .array
  | 10 => some .uint64
  | 11 => some .int64
  | 12 => some .float64
  | _ => none

def writeString (s : List UInt8) : List UInt8 := leBytes 8 s.length ++ s

def writeType (t : GgufType) : List UInt8 := intBytes 4 t.code

/-- `get_ne`. -/
def Kv.ne (x : Kv) : Nat :=
  if x.type = .string then x.strings.length else x.data.length / x.type.size

/-- A boolean is written as 0 or 1. -/
def writeBool (b : UInt8) : UInt8 := if b ≠ 0 then 1 else 0

/-- The value of a key. -/
def Kv.payload (x : Kv) : List UInt8 :=
  if x.type = .string then x.strings.flatMap writeString
  else if x.type = .bool then x.data.map writeBool
  else x.data

/-- The type of a value, with the number of elements of an array. -/
def Kv.typeBytes (x : Kv) : List UInt8 :=
  if x.isArray then writeType .array ++ (writeType x.type ++ leBytes 8 x.ne)
  else writeType x.type

def writeKv (x : Kv) : List UInt8 := writeString x.key ++ (x.typeBytes ++ x.payload)

/-- `ggml_n_dims`. -/
def Dims.nDims (ne : Dims) : Nat :=
  if 1 < ne.d3 then 4 else if 1 < ne.d2 then 3 else if 1 < ne.d1 then 2 else 1

/-- The dimensions in order. -/
def Dims.toList (ne : Dims) : List Nat := [ne.d0, ne.d1, ne.d2, ne.d3]

def writeTensorMeta (t : Info) : List UInt8 :=
  writeString t.name ++ leBytes 4 t.ne.nDims ++
    (t.ne.toList.take t.ne.nDims).flatMap (fun d : Nat => intBytes 8 d) ++ intBytes 4 t.type ++
    leBytes 8 t.offset

/-- `pad`: zeros up to a multiple of the alignment. -/
def padTo (alignment : Nat) (buf : List UInt8) : List UInt8 :=
  buf ++ List.replicate ((alignment - buf.length % alignment) % alignment) 0

def writeTensorData (T : Traits) (alignment : Nat) (buf : List UInt8) (t : TensorInfo) :
    List UInt8 :=
  padTo alignment (buf ++ slice t.data 0 (t.nbytes T))

/-- Everything before the padding of the data section. -/
def Ctx.header (c : Ctx) : List UInt8 :=
  magic ++ leBytes 4 c.version ++ intBytes 8 c.info.length ++ intBytes 8 c.kv.length ++
    c.kv.flatMap writeKv ++ c.info.flatMap fun t => writeTensorMeta t.toInfo

/-- `gguf_write_out` into an empty buffer. -/
def Ctx.file (T : Traits) (c : Ctx) : List UInt8 :=
  c.info.foldl (writeTensorData T c.alignment) (padTo c.alignment c.header)

/-- The assertions of `get_ne` and the types that can be written. -/
def Kv.writable (x : Kv) : Bool :=
  x.type != .array && (x.isArray || x.ne == 1) &&
    (x.type == .string || x.data.length % x.type.size == 0)

/-- The assertion of `write_tensor_data`: the tensor is written at its offset. -/
def offsetsWritable (T : Traits) (alignment offsetData : Nat) : List UInt8 → List TensorInfo → Bool
  | _, [] => true
  | buf, t :: ts =>
    decide (buf.length - offsetData = t.offset) &&
      offsetsWritable T alignment offsetData (writeTensorData T alignment buf t) ts

/-- `gguf_write_to_buf`. A buffer of 2^63 bytes or more cannot be made. -/
def writeToBuf (T : Traits) (c : Ctx) : Option (List UInt8) :=
  let start := padTo c.alignment c.header
  if c.kv.all Kv.writable ∧ offsetsWritable T c.alignment start.length start c.info ∧
      (c.file T).length < 2 ^ 63 then
    some (c.file T)
  else none

def readString : Reader (List UInt8) := do
  let n ← Reader.uint 8
  Reader.check (decide (n ≤ maxStringLength))
  Reader.bytes n

/-- Read a `gguf_type`; the value may be none of the types. -/
def readType : Reader (Option GgufType) := do
  let z ← Reader.int 4
  pure (GgufType.ofCode z)

/-- The strings of an array. -/
def readStrings : Nat → List (List UInt8) → Reader (List (List UInt8))
  | 0, acc => pure acc
  | n + 1, acc => do
    let s ← readString
    readStrings n (acc ++ [s])

/-- `gguf_read_emplace_helper` for strings. -/
def readStringValue (key : List UInt8) (isArray : Bool) (n : Nat) : Reader Kv :=
  if isArray then do
    Reader.check (decide (n ≤ maxArrayElements))
    Reader.remain (n * 8)
    let ss ← readStrings n []
    pure { key := key, isArray := true, type := .string, data := [], strings := ss }
  else do
    let s ← readString
    pure { key := key, isArray := false, type := .string, data := [], strings := [s] }

/-- `gguf_read_emplace_helper` for numbers and booleans. -/
def readDataValue (key : List UInt8) (isArray : Bool) (type : GgufType) (n : Nat) :
    Reader Kv := do
  Reader.check (!isArray || decide (n ≤ maxArrayElements))
  let bs ← Reader.bytes ((if isArray then n else 1) * type.size)
  let bs := if type = .bool then bs.map writeBool else bs
  pure { key := key, isArray := isArray, type := type, data := bs, strings := [] }

/-- The switch over the type of a value. -/
def readValue (key : List UInt8) (isArray : Bool) (type : Option GgufType) (n : Nat) : Reader Kv :=
  match type with
  | some .string => readStringValue key isArray n
  | some .array => Reader.fail
  | none => Reader.fail
  | some type => readDataValue key isArray type n

/-- The type of a value and the value. -/
def readTyped (key : List UInt8) : Reader Kv := do
  let type ← readType
  if type = some .array then do
    let type ← readType
    let n ← Reader.uint 8
    readValue key true type n
  else readValue key false type 1

/-- One key-value pair, given those before it; the constructor asserts that the key is not
empty. -/
def readKv (acc : List Kv) : Reader Kv := do
  let key ← readString
  Reader.check (acc.all fun x => x.key != key)
  let x ← readTyped key
  Reader.check (decide (key ≠ []))
  pure x

/-- The loop over the key-value pairs. -/
def readKvs : Nat → List Kv → Reader (List Kv)
  | 0, acc => pure acc
  | n + 1, acc => do
    let x ← readKv acc
    readKvs n (acc ++ [x])

/-- `gguf_find_key` and `gguf_get_val_u32` for the alignment; the latter asserts the type. -/
def alignmentOf (kv : List Kv) : Option Nat :=
  match kv.find? fun x => x.key == alignmentKey with
  | none => some defaultAlignment
  | some x => if x.type = .uint32 ∧ x.ne = 1 then some (leNat x.data) else none

/-- A dimension that is in the file. -/
def readDim : Reader Nat := do
  let z ← Reader.int 8
  Reader.check (decide (0 ≤ z))
  pure z.toNat

/-- The dimensions that are in the file. -/
def readDims : Nat → List Nat → Reader (List Nat)
  | 0, acc => pure acc
  | n + 1, acc => do
    let d ← readDim
    readDims n (acc ++ [d])

/-- The total number of elements is representable. -/
def Dims.fits (ne : Dims) : Bool :=
  decide (ne.d0 < int64Max / ne.d1 ∧ ne.d0 * ne.d1 < int64Max / ne.d2 ∧
    ne.d0 * ne.d1 * ne.d2 < int64Max / ne.d3)

/-- The checks of a tensor type. -/
def Traits.fits (T : Traits) (type : Nat) (ne : Dims) : Bool :=
  decide (type < T.count ∧ T.blckSize type ≠ 0 ∧ ne.d0 % T.blckSize type = 0 ∧
    ne.d0 * ne.d1 * ne.d2 * ne.d3 / T.blckSize type ≤ sizeMax / T.typeSize type)

/-- One tensor, given those before it. -/
def readInfo (T : Traits) (acc : List Info) : Reader Info := do
  let name ← readString
  Reader.check (decide (name.length < 64))
  let name := name.takeWhile fun b => b != 0
  Reader.check (acc.all fun x => x.name != name)
  let nDims ← Reader.uint 4
  Reader.check (decide (nDims ≤ 4))
  let ds ← readDims nDims []
  let ne : Dims := ⟨ds.getD 0 1, ds.getD 1 1, ds.getD 2 1, ds.getD 3 1⟩
  Reader.check ne.fits
  let type ← Reader.int 4
  Reader.check (decide (0 ≤ type) && T.fits type.toNat ne)
  let offset ← Reader.uint 8
  pure { name := name, type := type.toNat, ne := ne, offset := offset }

/-- The loop over the tensors. -/
def readInfos (T : Traits) : Nat → List Info → Reader (List Info)
  | 0, acc => pure acc
  | n + 1, acc => do
    let x ← readInfo T acc
    readInfos T n (acc ++ [x])

/-- Everything before the data section. -/
structure Meta where
  /-- Version of the format. -/
  version : Nat
  /-- Key-value pairs. -/
  kv : List Kv
  /-- Alignment of the data section. -/
  alignment : Nat
  /-- Tensors. -/
  info : List Info
  deriving DecidableEq

/-- The checks of the version. -/
def versionOk (v : Nat) : Bool := v != 0 && v % 2 ^ 16 != 0 && v != 1 && decide (v ≤ ggufVersion)

/-- Read everything before the data section. -/
def readMeta (T : Traits) : Reader Meta := do
  let m ← Reader.bytes 4
  Reader.check (decide (m = magic))
  let version ← Reader.uint 4
  Reader.check (versionOk version)
  let nTensors ← Reader.int 8
  Reader.check (decide (0 ≤ nTensors ∧ nTensors ≤ maxTensors))
  let nKv ← Reader.int 8
  Reader.check (decide (0 ≤ nKv ∧ nKv ≤ maxKv))
  let kv ← readKvs nKv.toNat []
  let alignment ← Reader.ofOption (alignmentOf kv)
  Reader.check (decide (alignment ≠ 0 ∧ alignment &&& (alignment - 1) = 0))
  let info ← readInfos T nTensors.toNat []
  pure { version := version, kv := kv, alignment := alignment, info := info }

/-- The loop that computes the size of the data section and checks the offsets. -/
def dataSize (T : Traits) (alignment : Nat) : Nat → List Info → Option Nat
  | size, [] => some size
  | size, t :: ts =>
    if t.offset ≠ size then none
    else if sizeMax - size < pad (t.nbytes T) alignment then none
    else dataSize T alignment (size + pad (t.nbytes T) alignment) ts

/-- A file that was read. -/
structure Loaded extends Meta where
  /-- Start of the data section. -/
  offset : Nat
  /-- The data section. -/
  blob : List UInt8

/-- The bytes of a tensor in the data section. -/
def Loaded.tensor (T : Traits) (r : Loaded) (t : Info) : List UInt8 :=
  (r.blob.drop t.offset).take (t.nbytes T)

/-- `gguf_init_from_file_impl`, loading the data. The number of remaining bytes does not count
the padding that was skipped. -/
def initFromFile (T : Traits) (file : List UInt8) : Option Loaded := do
  let (h, rest) ← readMeta T file
  let offset := pad (file.length - rest.length) h.alignment
  let size ← dataSize T h.alignment 0 h.info
  if sizeMax / (h.info.length + 1) < tensorOverhead then none
  else if sizeMax - (h.info.length + 1) * tensorOverhead < size then none
  else if rest.length < size then none
  else
    let blob := (file.drop offset).take size
    if blob.length = size then some { toMeta := h, offset := offset, blob := blob } else none

end Llama.Gguf
