import Llama.Lib.Bytes

/-!
# GGUF contexts

`gguf_context` and the functions that build one. Strings and memory are lists of bytes; a
`const char *` argument is a byte list without 0. `GGML_ASSERT` and `GGML_ABORT` end the
program and are the `none` of a result. The table of tensor types is a parameter.
-/

namespace Llama.Gguf

open Bytes

inductive GgufType where
  | uint8 | int8 | uint16 | int16 | uint32 | int32 | float32 | bool | string | array
  | uint64 | int64 | float64
  deriving DecidableEq, Repr

/-- `GGUF_TYPE_SIZE`; 0 where it is undefined. -/
def GgufType.size : GgufType → Nat
  | .uint8 => 1
  | .int8 => 1
  | .uint16 => 2
  | .int16 => 2
  | .uint32 => 4
  | .int32 => 4
  | .float32 => 4
  | .bool => 1
  | .string => 0
  | .array => 0
  | .uint64 => 8
  | .int64 => 8
  | .float64 => 8

/-- A string argument of the interface. -/
structure CString where
  /-- Bytes before the terminating 0. -/
  bytes : List UInt8
  /-- No 0 among them. -/
  noNul : 0 ∉ bytes
  deriving DecidableEq

/-- `gguf_kv`. -/
structure Kv where
  key : List UInt8
  /-- The value is an array. -/
  isArray : Bool
  /-- Type of the value or of the elements. -/
  type : GgufType
  /-- Bytes of numbers and booleans. -/
  data : List UInt8
  strings : List (List UInt8)
  deriving DecidableEq, Repr

/-- Sizes of the tensor types: `ggml_blck_size` and `ggml_type_size`. -/
structure Traits where
  /-- `GGML_TYPE_COUNT`. -/
  count : Nat
  /-- Elements in a block; 0 for removed types. -/
  blckSize : Nat → Nat
  /-- Bytes of a block. -/
  typeSize : Nat → Nat
  /-- Only removed types have empty blocks. -/
  size_pos : ∀ t, blckSize t ≠ 0 → 0 < typeSize t

/-- The numbers of elements `ne`. -/
structure Dims where
  /-- First dimension. -/
  d0 : Nat
  /-- Second dimension. -/
  d1 : Nat
  /-- Third dimension. -/
  d2 : Nat
  /-- Fourth dimension. -/
  d3 : Nat
  deriving DecidableEq, Repr

/-- What a file keeps of a tensor. -/
structure Info where
  /-- Name of the tensor. -/
  name : List UInt8
  /-- Type of its elements. -/
  type : Nat
  /-- Its shape. -/
  ne : Dims
  /-- Offset from the start of the data section. -/
  offset : Nat
  deriving DecidableEq, Repr

/-- `gguf_tensor_info`; the data is the memory behind the data pointer. -/
structure TensorInfo extends Info where
  /-- Memory of the tensor. -/
  data : Nat → UInt8

/-- `gguf_context`. -/
structure Ctx where
  /-- Version of the format. -/
  version : Nat
  /-- Key-value pairs. -/
  kv : List Kv
  info : List TensorInfo
  /-- Alignment of the data section. -/
  alignment : Nat

def ggufVersion : Nat := 3

/-- `GGUF_DEFAULT_ALIGNMENT`. -/
def defaultAlignment : Nat := 32

/-- `GGUF_KEY_GENERAL_ALIGNMENT`. -/
def alignmentKey : List UInt8 :=
  [103, 101, 110, 101, 114, 97, 108, 46, 97, 108, 105, 103, 110, 109, 101, 110, 116]

/-- `gguf_init_empty`. -/
def Ctx.empty : Ctx :=
  { version := ggufVersion, kv := [], info := [], alignment := defaultAlignment }

/-- `GGML_PAD`, for powers of two. -/
def pad (x n : Nat) : Nat := (x + n - 1) / n * n

/-- Strides of a contiguous tensor: `nb[0]` to `nb[3]`. -/
def Traits.nb (T : Traits) (type : Nat) (ne : Dims) : Nat × Nat × Nat × Nat :=
  let nb0 := T.typeSize type
  let nb1 := nb0 * (ne.d0 / T.blckSize type)
  let nb2 := nb1 * ne.d1
  let nb3 := nb2 * ne.d2
  (nb0, nb1, nb2, nb3)

/-- `ggml_nbytes` of a contiguous tensor. -/
def Traits.nbytes (T : Traits) (type : Nat) (ne : Dims) : Nat :=
  if ne.d0 = 0 ∨ ne.d1 = 0 ∨ ne.d2 = 0 ∨ ne.d3 = 0 then 0
  else
    let (nb0, nb1, nb2, nb3) := T.nb type ne
    let rest := (ne.d1 - 1) * nb1 + (ne.d2 - 1) * nb2 + (ne.d3 - 1) * nb3
    if T.blckSize type = 1 then T.typeSize type + (ne.d0 - 1) * nb0 + rest
    else ne.d0 * nb0 / T.blckSize type + rest

/-- Bytes of the tensor. -/
def Info.nbytes (T : Traits) (t : Info) : Nat := T.nbytes t.type t.ne

/-- `gguf_remove_key`: keys are compared up to the first match. -/
def removeKey (kv : List Kv) (key : List UInt8) : List Kv := kv.eraseP fun x => x.key == key

/-- The argument of `gguf_set_val_u8` to `gguf_set_val_bool`. Floating point numbers are given
by their bits. -/
inductive Scalar where
  | u8 (v : UInt8)
  | i8 (v : Int8)
  | u16 (v : UInt16)
  | i16 (v : Int16)
  | u32 (v : UInt32)
  | i32 (v : Int32)
  | f32 (bits : UInt32)
  | bool (v : Bool)
  | u64 (v : UInt64)
  | i64 (v : Int64)
  | f64 (bits : UInt64)
  deriving DecidableEq

def Scalar.type : Scalar → GgufType
  | .u8 _ => .uint8
  | .i8 _ => .int8
  | .u16 _ => .uint16
  | .i16 _ => .int16
  | .u32 _ => .uint32
  | .i32 _ => .int32
  | .f32 _ => .float32
  | .bool _ => .bool
  | .u64 _ => .uint64
  | .i64 _ => .int64
  | .f64 _ => .float64

/-- The bytes in memory. -/
def Scalar.bytes : Scalar → List UInt8
  | .u8 v => leBytes 1 v.toNat
  | .i8 v => leBytes 1 v.toUInt8.toNat
  | .u16 v => leBytes 2 v.toNat
  | .i16 v => leBytes 2 v.toUInt16.toNat
  | .u32 v => leBytes 4 v.toNat
  | .i32 v => leBytes 4 v.toUInt32.toNat
  | .f32 v => leBytes 4 v.toNat
  | .bool v => leBytes 1 v.toNat
  | .u64 v => leBytes 8 v.toNat
  | .i64 v => leBytes 8 v.toUInt64.toNat
  | .f64 v => leBytes 8 v.toNat

/-- The argument of `gguf_set_arr_data`. -/
structure ArrData where
  /-- Type of the elements. -/
  type : GgufType
  /-- Number of elements. -/
  n : Nat
  /-- The elements in memory. -/
  bytes : List UInt8
  /-- As many bytes as the elements have. -/
  length_eq : bytes.length = n * type.size
  /-- Booleans are 0 or 1 in memory. -/
  bool_le : type = .bool → ∀ b ∈ bytes, b = 0 ∨ b = 1

/-- `gguf_check_reserved_keys`; `none` for a value that is not of type `uint32_t`. -/
def checkReservedKeys (key : List UInt8) (val : Option Nat) : Bool :=
  if key = alignmentKey then
    match val with
    | some v => decide (0 < v ∧ v &&& (v - 1) = 0)
    | none => false
  else true

/-- The value that is checked for reserved keys. -/
def Scalar.u32? : Scalar → Option Nat
  | .u32 v => some v.toNat
  | _ => none

/-- Replace the value of a key; the constructor of `gguf_kv` asserts that the key is not empty. -/
def Ctx.setKv (c : Ctx) (x : Kv) (val : Option Nat) : Option Ctx :=
  if checkReservedKeys x.key val ∧ x.key ≠ [] then
    some { c with kv := removeKey c.kv x.key ++ [x] }
  else none

/-- `gguf_set_val_u8` to `gguf_set_val_bool`. -/
def Ctx.setVal (c : Ctx) (key : CString) (v : Scalar) : Option Ctx :=
  c.setKv { key := key.bytes, isArray := false, type := v.type, data := v.bytes, strings := [] }
    v.u32?

/-- `gguf_set_val_str`. -/
def Ctx.setValStr (c : Ctx) (key val : CString) : Option Ctx :=
  c.setKv { key := key.bytes, isArray := false, type := .string, data := []
            strings := [val.bytes] } none

/-- `gguf_set_arr_data`; for types without a size the cast divides by zero. -/
def Ctx.setArrData (c : Ctx) (key : CString) (a : ArrData) : Option Ctx :=
  if a.type.size = 0 then none
  else c.setKv { key := key.bytes, isArray := true, type := a.type, data := a.bytes
                 strings := [] } none

/-- `gguf_set_arr_str`. -/
def Ctx.setArrStr (c : Ctx) (key : CString) (vals : List CString) : Option Ctx :=
  c.setKv { key := key.bytes, isArray := true, type := .string, data := []
            strings := vals.map CString.bytes } none

/-- A tensor given to `gguf_add_tensor`: contiguous, with a short name and no empty dimension. -/
structure Tensor where
  /-- Name of the tensor. -/
  name : CString
  /-- Type of its elements. -/
  type : Nat
  /-- Its shape. -/
  ne : Dims
  /-- Its memory. -/
  data : Nat → UInt8
  /-- Types are enumerators that fit in `int32_t`. -/
  type_lt : type < 2 ^ 31
  /-- Shorter than `GGML_MAX_NAME`. -/
  name_lt : name.bytes.length < 64
  /-- No dimension is empty. -/
  pos : 0 < ne.d0 ∧ 0 < ne.d1 ∧ 0 < ne.d2 ∧ 0 < ne.d3
  /-- Dimensions are of type `int64_t`. -/
  lt : ne.d0 < 2 ^ 63 ∧ ne.d1 < 2 ^ 63 ∧ ne.d2 < 2 ^ 63 ∧ ne.d3 < 2 ^ 63

/-- Offset behind a tensor. -/
def Info.next (T : Traits) (alignment : Nat) (t : Info) : Nat :=
  t.offset + pad (t.nbytes T) alignment

/-- `gguf_add_tensor`. -/
def Ctx.addTensor (T : Traits) (c : Ctx) (t : Tensor) : Option Ctx :=
  if c.info.any fun x => x.name == t.name.bytes then none
  else
    let offset := match c.info.getLast? with
      | none => 0
      | some x => x.next T c.alignment
    some { c with info := c.info ++ [{ name := t.name.bytes, type := t.type, ne := t.ne
                                       offset := offset, data := t.data }] }

/-- The loop of `gguf_set_tensor_type` that updates the offsets behind a tensor. -/
def updateOffsets (T : Traits) (alignment : Nat) : TensorInfo → List TensorInfo → List TensorInfo
  | _, [] => []
  | prev, t :: ts =>
    let t := { t with offset := prev.next T alignment }
    t :: updateOffsets T alignment t ts

/-- `gguf_set_tensor_type`; a type without blocks divides by zero. -/
def setTensorType (T : Traits) (alignment : Nat) (name : List UInt8) (type : Nat) :
    List TensorInfo → Option (List TensorInfo)
  | [] => none
  | t :: ts =>
    if t.name = name then
      if T.blckSize type ≠ 0 ∧ t.ne.d0 % T.blckSize type = 0 then
        let t := { t with type := type }
        some (t :: updateOffsets T alignment t ts)
      else none
    else do
      let ts ← setTensorType T alignment name type ts
      some (t :: ts)

/-- A call that changes a context. -/
inductive Op where
  | setVal (key : CString) (v : Scalar)
  | setValStr (key val : CString)
  | setArrData (key : CString) (a : ArrData)
  | setArrStr (key : CString) (vals : List CString)
  | removeKey (key : CString)
  | addTensor (t : Tensor)
  | setTensorType (name : CString) (type : Nat) (htype : type < 2 ^ 31)

/-- Run a call. -/
def Op.run (T : Traits) (c : Ctx) : Op → Option Ctx
  | .setVal key v => c.setVal key v
  | .setValStr key val => c.setValStr key val
  | .setArrData key a => c.setArrData key a
  | .setArrStr key vals => c.setArrStr key vals
  | .removeKey key => some { c with kv := Gguf.removeKey c.kv key.bytes }
  | .addTensor t => c.addTensor T t
  | .setTensorType name type _ => do
    let info ← Gguf.setTensorType T c.alignment name.bytes type c.info
    some { c with info := info }

/-- A context built from the empty one. -/
def build (T : Traits) (ops : List Op) : Option Ctx := ops.foldlM (Op.run T) Ctx.empty

end Llama.Gguf
