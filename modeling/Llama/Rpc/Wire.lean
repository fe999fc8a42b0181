import Llama.Lib.Dfs
import Llama.Gguf.Context
import Mathlib.Data.Fintype.Basic

/-!
# Tensors and graphs on the wire

The client side of the RPC backend: `ggml_tensor` structs in the memory of the client,
`serialize_tensor`, and `serialize_graph`, which collects the tensors of a graph in a depth-first
walk and writes them with the ids of the nodes. Pointers are 64-bit words, 0 is null; `int32_t`
fields whose sign does not matter are 32-bit words.
-/

namespace Llama.Rpc

open Bytes List

/-- `GGML_MAX_DIMS`. -/
abbrev maxDims : Nat := 4

/-- `GGML_MAX_SRC`. -/
abbrev maxSrc : Nat := 10

/-- `GGML_MAX_OP_PARAMS / sizeof(int32_t)`. -/
abbrev maxOpParams : Nat := 16

/-- `GGML_MAX_NAME`. -/
abbrev maxName : Nat := 64

/-- `ggml_tensor`, with references of type `R` to other tensors. -/
structure Tensor (R : Type) where
  /-- `ggml_type`. -/
  type : UInt32
  /-- The buffer, 0 for none. -/
  buffer : UInt64
  /-- Numbers of elements. -/
  ne : Fin maxDims → Int
  /-- Strides in bytes. -/
  nb : Fin maxDims → Nat
  /-- `ggml_op`. -/
  op : UInt32
  /-- Parameters of the operation. -/
  opParams : Fin maxOpParams → UInt32
  flags : UInt32
  src : Fin maxSrc → R
  viewSrc : R
  /-- Offset of a view. -/
  viewOffs : UInt64
  /-- Address of the data. -/
  data : UInt64
  name : Fin maxName → UInt8
  extra : UInt64
  /-- The last eight bytes of the struct. -/
  padding : UInt64
  deriving DecidableEq

/-- `ggml_nbytes`, in `size_t`. -/
def Tensor.nbytes {R : Type} (T : Gguf.Traits) (t : Tensor R) : UInt64 :=
  if ∃ i, t.ne i ≤ 0 then 0
  else
    let row (i : Fin maxDims) : Nat := ((t.ne i).toNat - 1) * t.nb i
    let rest := row 1 + row 2 + row 3
    if T.blckSize t.type.toNat = 1 then
      UInt64.ofNat (T.typeSize t.type.toNat + row 0 + rest)
    else
      UInt64.ofNat ((t.ne 0).toNat * t.nb 0 % 2 ^ 64 / T.blckSize t.type.toNat + rest)

/-- The characters of a `char` array before its first 0. -/
def cString (name : Fin maxName → UInt8) : List UInt8 := (List.ofFn name).takeWhile (· != 0)

/-- At most `GGML_MAX_NAME - 1` characters in an array filled up with zeros: what `snprintf` after
`memset` leaves, and what `ggml_set_name` leaves in a new tensor. -/
def nameOf (s : List UInt8) : Fin maxName → UInt8 := fun i => (s.take (maxName - 1)).getD i 0

structure RpcTensor where
  /-- Address of the tensor in the client. -/
  id : UInt64
  /-- `ggml_type`. -/
  type : UInt32
  /-- Handle of the buffer in the server. -/
  buffer : UInt64
  /-- Numbers of elements. -/
  ne : Fin maxDims → UInt32
  /-- Strides in bytes. -/
  nb : Fin maxDims → UInt32
  /-- `ggml_op`. -/
  op : UInt32
  /-- Parameters of the operation. -/
  opParams : Fin maxOpParams → UInt32
  flags : UInt32
  /-- Ids of the sources. -/
  src : Fin maxSrc → UInt64
  /-- Id of the source of a view. -/
  viewSrc : UInt64
  /-- Offset of a view. -/
  viewOffs : UInt64
  /-- Address of the data in the server. -/
  data : UInt64
  name : Fin maxName → UInt8
  deriving DecidableEq

/-- The memory of the client, as far as tensors and buffers go. -/
structure Client where
  /-- Addresses of the tensors. -/
  addrs : Finset UInt64
  /-- The tensor at an address. -/
  tensor : UInt64 → Tensor UInt64
  /-- `remote_ptr` of an RPC buffer, 0 for a buffer of another kind. -/
  remotePtr : UInt64 → UInt64

def Client.serializeTensor (c : Client) (p : UInt64) : RpcTensor :=
  let t := c.tensor p
  { id := p
    type := t.type
    buffer := if t.buffer = 0 then 0 else c.remotePtr t.buffer
    ne := fun i => UInt32.ofNat (t.ne i % 2 ^ 32).toNat
    nb := fun i => UInt32.ofNat (t.nb i)
    op := t.op
    opParams := t.opParams
    flags := t.flags
    src := t.src
    viewSrc := t.viewSrc
    viewOffs := t.viewOffs
    data := t.data
    name := nameOf (cString t.name) }

/-- The references of a tensor in the order in which `add_tensor` follows them. -/
def Tensor.refs {R : Type} (t : Tensor R) : List R := List.ofFn t.src ++ [t.viewSrc]

/-- State of the walk of `serialize_graph`. -/
structure Collected where
  /-- Serialized tensors. -/
  tensors : List RpcTensor
  /-- Tensors visited. -/
  visited : List UInt64

/-- `add_tensor`, with a bound on the depth. -/
def Client.addTensor (c : Client) : Nat → UInt64 → Collected → Collected
  | 0, _, w => w
  | fuel + 1, p, w =>
    if p = 0 then w
    else if p ∈ w.visited then w
    else
      let w := (c.tensor p).refs.foldl (fun w q => c.addTensor fuel q w)
        { w with visited := p :: w.visited }
      { w with tensors := w.tensors ++ [c.serializeTensor p] }

/-- The tensors that `serialize_graph` collects. Every level of the recursion visits one more
tensor, so the number of tensors bounds the depth. -/
def Client.collect (c : Client) (nodes : List UInt64) : List RpcTensor :=
  (nodes.foldl (fun w p => c.addTensor (c.addrs.card + 1) p w) ⟨[], []⟩).tensors

@[simp] theorem Client.addTensor_null (c : Client) (fuel : Nat) (w : Collected) :
    c.addTensor fuel 0 w = w := by
  cases fuel with
  | zero => rfl
  | succ fuel => rw [addTensor, if_pos rfl]

/-- The graph of one tensor without references. -/
theorem Client.collect_leaf {c : Client} {p : UInt64} (hp : p ≠ 0)
    (hrefs : ∀ q ∈ (c.tensor p).refs, q = 0) : c.collect [p] = [c.serializeTensor p] := by
  have hfold : ∀ (l : List UInt64) (w : Collected), (∀ q ∈ l, q = 0) →
      l.foldl (fun w q => c.addTensor c.addrs.card q w) w = w := by
    intro l
    induction l with
    | nil => exact fun w _ => rfl
    | cons q l ih =>
      intro w hl
      rw [foldl_cons, hl q mem_cons_self, addTensor_null]
      exact ih w fun q hq => hl q (mem_cons_of_mem _ hq)
  simp [collect, addTensor, hp, hfold _ _ hrefs]

/-- A 32-bit word in memory. -/
def word32 (x : UInt32) : List UInt8 := leBytes 4 x.toNat

/-- A 64-bit word in memory. -/
def word64 (x : UInt64) : List UInt8 := leBytes 8 x.toNat

/-- The bytes of a packed `rpc_tensor`. -/
def RpcTensor.bytes (t : RpcTensor) : List UInt8 :=
  word64 t.id ++ (word32 t.type ++ (word64 t.buffer ++ ((List.ofFn t.ne).flatMap word32 ++
    ((List.ofFn t.nb).flatMap word32 ++ (word32 t.op ++ ((List.ofFn t.opParams).flatMap word32 ++
      (word32 t.flags ++ ((List.ofFn t.src).flatMap word64 ++ (word64 t.viewSrc ++
        (word64 t.viewOffs ++ (word64 t.data ++ (List.ofFn t.name ++ replicate 4 0))))))))))))

def Client.serializeGraph (c : Client) (device : UInt32) (nodes : List UInt64) : List UInt8 :=
  let tensors := c.collect nodes
  word32 device ++ word32 (UInt32.ofNat nodes.length) ++ nodes.flatMap word64 ++
    word32 (UInt32.ofNat tensors.length) ++ tensors.flatMap RpcTensor.bytes

/-- Read a 32-bit word. -/
def Reader.word32 : Reader UInt32 := do
  let n ← Reader.uint 4
  pure (UInt32.ofNat n)

/-- Read a 64-bit word. -/
def Reader.word64 : Reader UInt64 := do
  let n ← Reader.uint 8
  pure (UInt64.ofNat n)

/-- Read an array. -/
def Reader.array {α : Type} (r : Reader α) : (n : Nat) → Reader (Fin n → α)
  | 0 => pure Fin.elim0
  | n + 1 => do
    let a ← r
    let f ← Reader.array r n
    pure (Fin.cons a f)

/-- Read a list of known length. -/
def Reader.list {α : Type} (r : Reader α) (n : Nat) : Reader (List α) := do
  let f ← Reader.array r n
  pure (List.ofFn f)

/-- Read a byte. -/
def Reader.byte : Reader UInt8 := do
  let n ← Reader.uint 1
  pure (UInt8.ofNat n)

/-- Read a packed `rpc_tensor`. -/
def Reader.rpcTensor : Reader RpcTensor := do
  let id ← Reader.word64
  let type ← Reader.word32
  let buffer ← Reader.word64
  let ne ← Reader.array Reader.word32 maxDims
  let nb ← Reader.array Reader.word32 maxDims
  let op ← Reader.word32
  let opParams ← Reader.array Reader.word32 maxOpParams
  let flags ← Reader.word32
  let src ← Reader.array Reader.word64 maxSrc
  let viewSrc ← Reader.word64
  let viewOffs ← Reader.word64
  let data ← Reader.word64
  let name ← Reader.array Reader.byte maxName
  let _ ← Reader.bytes 4
  pure
    { id := id, type := type, buffer := buffer, ne := ne, nb := nb, op := op, opParams := opParams
      flags := flags, src := src, viewSrc := viewSrc, viewOffs := viewOffs, data := data
      name := name }

/-- The contents of a graph message. -/
structure GraphMessage where
  device : UInt32
  /-- Ids of the nodes. -/
  nodes : List UInt64
  tensors : List RpcTensor

/-- The input of `graph_compute`; whatever follows the tensors is ignored. -/
def Reader.graphMessage : Reader GraphMessage := do
  let device ← Reader.word32
  let nNodes ← Reader.word32
  let nodes ← Reader.list Reader.word64 nNodes.toNat
  let nTensors ← Reader.word32
  let tensors ← Reader.list Reader.rpcTensor nTensors.toNat
  pure { device := device, nodes := nodes, tensors := tensors }

theorem reads_word32 (x : UInt32) (s : List UInt8) : Reads Reader.word32 (word32 x ++ s) x s := by
  have hn := reads_uint (w := 4) (n := x.toNat) x.toNat_lt s
  have hb := hn.bind (f := fun n => pure (UInt32.ofNat n)) (Reads.pure (UInt32.ofNat x.toNat) s)
  rwa [UInt32.ofNat_toNat] at hb

theorem reads_word64 (x : UInt64) (s : List UInt8) : Reads Reader.word64 (word64 x ++ s) x s := by
  have hn := reads_uint (w := 8) (n := x.toNat) x.toNat_lt s
  have hb := hn.bind (f := fun n => pure (UInt64.ofNat n)) (Reads.pure (UInt64.ofNat x.toNat) s)
  rwa [UInt64.ofNat_toNat] at hb

theorem reads_byte (x : UInt8) (s : List UInt8) : Reads Reader.byte ([x] ++ s) x s := by
  have hn := reads_uint (w := 1) (n := x.toNat) x.toNat_lt s
  have hb := hn.bind (f := fun n => pure (UInt8.ofNat n)) (Reads.pure (UInt8.ofNat x.toNat) s)
  rw [UInt8.ofNat_toNat, leBytes, leBytes, UInt8.ofNat_toNat] at hb
  exact hb

theorem reads_array {α : Type} {r : Reader α} {enc : α → List UInt8}
    (hr : ∀ x s, Reads r (enc x ++ s) x s) : ∀ {n : Nat} (f : Fin n → α) (s : List UInt8),
      Reads (Reader.array r n) ((List.ofFn f).flatMap enc ++ s) f s
  | 0, f, s => by
    have he : f = Fin.elim0 := Subsingleton.elim _ _
    rw [he]
    exact Reads.pure (α := Fin 0 → α) Fin.elim0 s
  | n + 1, f, s => by
    rw [ofFn_succ, flatMap_cons, append_assoc]
    refine (hr (f 0) _).bind ((reads_array hr (fun i => f i.succ) s).bind ?_)
    have he : Fin.cons (f 0) (fun i => f i.succ) = f := Fin.cons_self_tail f
    rw [he]
    exact Reads.pure f s

theorem reads_list {α : Type} {r : Reader α} {enc : α → List UInt8}
    (hr : ∀ x s, Reads r (enc x ++ s) x s) (l : List α) (s : List UInt8) :
    Reads (Reader.list r l.length) (l.flatMap enc ++ s) l s := by
  have ha := reads_array hr l.get s
  rw [ofFn_get] at ha
  have hb := ha.bind (f := fun f => pure (List.ofFn f)) (Reads.pure (List.ofFn l.get) s)
  rwa [ofFn_get] at hb

theorem reads_rpcTensor (t : RpcTensor) (s : List UInt8) :
    Reads Reader.rpcTensor (t.bytes ++ s) t s := by
  have hname : ∀ s, Reads (Reader.array Reader.byte maxName) (List.ofFn t.name ++ s) t.name s := by
    intro s
    have ha := reads_array reads_byte t.name s
    rwa [flatMap_singleton'] at ha
  simp only [RpcTensor.bytes, append_assoc]
  refine (reads_word64 _ _).bind ((reads_word32 _ _).bind ((reads_word64 _ _).bind ?_))
  refine (reads_array reads_word32 _ _).bind ((reads_array reads_word32 _ _).bind ?_)
  refine (reads_word32 _ _).bind ((reads_array reads_word32 _ _).bind ((reads_word32 _ _).bind ?_))
  refine (reads_array reads_word64 _ _).bind ((reads_word64 _ _).bind ?_)
  refine (reads_word64 _ _).bind ((reads_word64 _ _).bind ((hname _).bind ?_))
  exact (reads_bytes (by simp) s).bind (Reads.pure _ s)

theorem reads_graph (c : Client) (device : UInt32) (nodes : List UInt64)
    (hn : nodes.length < 2 ^ 32) (ht : (c.collect nodes).length < 2 ^ 32) :
    Reads Reader.graphMessage (c.serializeGraph device nodes)
      { device := device, nodes := nodes, tensors := c.collect nodes } [] := by
  have hnodes : (UInt32.ofNat nodes.length).toNat = nodes.length := UInt32.toNat_ofNat_of_lt hn
  have htensors : (UInt32.ofNat (c.collect nodes).length).toNat = (c.collect nodes).length :=
    UInt32.toNat_ofNat_of_lt ht
  rw [← append_nil (c.serializeGraph device nodes)]
  simp only [Client.serializeGraph, append_assoc]
  refine (reads_word32 _ _).bind ((reads_word32 _ _).bind ?_)
  rw [hnodes]
  refine (reads_list reads_word64 nodes _).bind ((reads_word32 _ _).bind ?_)
  rw [htensors]
  exact (reads_list reads_rpcTensor _ _).bind (Reads.pure _ _)

end Llama.Rpc
