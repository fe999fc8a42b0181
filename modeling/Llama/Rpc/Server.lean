import Llama.Rpc.Wire

/-!
# The RPC server

`rpc_server` of one connection: the set of its buffers, the graph stored for each device, and the
handlers of the messages that touch memory. A handler that returns false ends the connection, an
assertion ends the process; both are an error here. Everything in a message comes from the client.
-/

namespace Llama.Rpc

open Bytes

/-- Why a handler does not finish. -/
inductive Stop where
  /-- It returns false. -/
  | reject
  /-- An assertion fails or the process crashes. -/
  | abort
  /-- The bound on the depth of the model is used up; it never is. -/
  | fuel
  deriving DecidableEq, Repr

/-- Where a buffer lies. -/
structure Extent where
  /-- `ggml_backend_buffer_get_base`. -/
  base : UInt64
  /-- `ggml_backend_buffer_get_size`. -/
  size : UInt64
  deriving DecidableEq, Repr

/-- The buffers of the server, by handle. -/
abbrev Buffers := UInt64 → Option Extent

/-- A tensor of the server; references are places in its context. -/
abbrev ServerTensor := Tensor (Option Nat)

/-- The tensor that `deserialize_tensor` fills in; a buffer that is not known is dropped, the
address of the data is kept. -/
def RpcTensor.bare (r : RpcTensor) (known : Bool) : ServerTensor :=
  { type := r.type
    buffer := if known then r.buffer else 0
    ne := fun i => (r.ne i).toNat
    nb := fun i => (r.nb i).toNat
    op := r.op
    opParams := r.opParams
    flags := r.flags
    src := fun _ => none
    viewSrc := none
    viewOffs := 0
    data := r.data
    name := nameOf (cString r.name)
    extra := 0
    padding := 0 }

/-- The buffer that a tensor of a message names. -/
def RpcTensor.extent (r : RpcTensor) (buffers : Buffers) : Option Extent :=
  if r.buffer = 0 then none else buffers r.buffer

/-- `deserialize_tensor`; the value `none` is its null pointer. -/
def deserializeTensor (T : Gguf.Traits) (buffers : Buffers) (r : RpcTensor) :
    Except Stop (Option ServerTensor) :=
  if T.count ≤ r.type.toNat then .ok none
  -- `ggml_row_size` divides by the block size
  else if T.blckSize r.type.toNat = 0 then .error .abort
  else match r.extent buffers with
    | none => .ok (some (r.bare false))
    | some e =>
      -- require that the tensor data does not go beyond the buffer end
      let size := (r.bare true).nbytes T
      if r.data ≤ r.data + size ∧ e.base ≤ r.data ∧ r.data + size ≤ e.base + e.size then
        .ok (some (r.bare true))
      else .error .abort

/-- The context of a graph under construction. -/
structure Ctx where
  /-- Tensors, in the order of their creation. -/
  tensors : List ServerTensor
  /-- `tensor_map`: the place of the tensor of an id. -/
  map : UInt64 → Option Nat

namespace Ctx

/-- Register a new tensor under an id. -/
def push (ctx : Ctx) (id : UInt64) (t : ServerTensor) : Ctx :=
  { tensors := ctx.tensors ++ [t], map := Function.update ctx.map id (some ctx.tensors.length) }

/-- `result->src[i] = v`. -/
def setSrc (ctx : Ctx) (h : Nat) (i : Fin maxSrc) (v : Option Nat) : Ctx :=
  { ctx with tensors := ctx.tensors.modify h fun t => { t with src := Function.update t.src i v } }

/-- `result->view_src = v; result->view_offs = offs`. -/
def setView (ctx : Ctx) (h : Nat) (v : Option Nat) (offs : UInt64) : Ctx :=
  { ctx with tensors := ctx.tensors.modify h fun t => { t with viewSrc := v, viewOffs := offs } }

end Ctx

/-- `tensor_ptrs`: `emplace` keeps the first tensor of an id. -/
abbrev Ptrs := UInt64 → Option RpcTensor

/-- The loop of `create_node` over the sources; false when a source could not be created. -/
def createSrcs (create : UInt64 → Ctx → Except Stop (Option Nat × Ctx)) (r : RpcTensor) (h : Nat) :
    List (Fin maxSrc) → Ctx → Except Stop (Bool × Ctx)
  | [], ctx => .ok (true, ctx)
  | i :: is, ctx =>
    if r.src i = 0 then createSrcs create r h is (ctx.setSrc h i none)
    else match create (r.src i) ctx with
      | .error e => .error e
      | .ok (none, ctx) => .ok (false, ctx)
      | .ok (some k, ctx) => createSrcs create r h is (ctx.setSrc h i (some k))

/-- `create_node`, with a bound on the depth. The tensor is registered before its sources are
created. -/
def createNode (T : Gguf.Traits) (buffers : Buffers) (ptrs : Ptrs) :
    Nat → UInt64 → Ctx → Except Stop (Option Nat × Ctx)
  | 0, _, _ => .error .fuel
  | fuel + 1, id, ctx =>
    match ctx.map id with
    | some h => .ok (some h, ctx)
    | none =>
      match ptrs id with
      | none => .ok (none, ctx)
      | some r =>
        match deserializeTensor T buffers r with
        | .error e => .error e
        | .ok none => .ok (none, ctx)
        | .ok (some t) =>
          let h := ctx.tensors.length
          match createSrcs (createNode T buffers ptrs fuel) r h (List.finRange maxSrc)
              (ctx.push id t) with
          | .error e => .error e
          | .ok (false, ctx) => .ok (none, ctx)
          | .ok (true, ctx) =>
            if r.viewSrc = 0 then .ok (some h, ctx.setView h none r.viewOffs)
            else match createNode T buffers ptrs fuel r.viewSrc ctx with
              | .error e => .error e
              | .ok (none, ctx) => .ok (none, ctx)
              | .ok (some k, ctx) => .ok (some h, ctx.setView h (some k) r.viewOffs)

/-- `ggml_cgraph` of the server. -/
structure Graph where
  /-- The tensors of its context. -/
  tensors : List ServerTensor
  /-- Places of the nodes. -/
  nodes : List (Option Nat)

/-- The loop of `graph_compute` over the nodes. -/
def createNodes (create : UInt64 → Ctx → Except Stop (Option Nat × Ctx)) :
    List UInt64 → List (Option Nat) → Ctx → Except Stop Graph
  | [], nodes, ctx => .ok { tensors := ctx.tensors, nodes := nodes }
  | id :: ids, nodes, ctx =>
    match create id ctx with
    | .error e => .error e
    | .ok (k, ctx) =>
      if k = none ∧ id ≠ 0 then .error .reject else createNodes create ids (nodes ++ [k]) ctx

def GraphMessage.ptrs (m : GraphMessage) : Ptrs := fun id => m.tensors.find? fun r => r.id == id

/-- The graph that `graph_compute` builds from a message. -/
def buildGraph (T : Gguf.Traits) (buffers : Buffers) (m : GraphMessage) : Except Stop Graph :=
  createNodes (createNode T buffers m.ptrs (m.tensors.length + 1)) m.nodes []
    { tensors := [], map := fun _ => none }

/-- `rpc_server`. -/
structure Server where
  nBackends : Nat
  buffers : Buffers
  /-- `stored_graphs`, by device. -/
  stored : Nat → Option Graph

/-- A server that was just created. -/
def Server.init (nBackends : Nat) : Server :=
  { nBackends := nBackends, buffers := fun _ => none, stored := fun _ => none }

/-- A part of memory that is passed to a backend. -/
structure Range where
  /-- First address. -/
  start : UInt64
  /-- Number of bytes. -/
  len : UInt64
  deriving DecidableEq, Repr

/-- What a handler leaves and what it has passed to the backend. -/
structure Effect where
  /-- The server afterwards. -/
  server : Server
  /-- Ranges read or written. -/
  ranges : List Range
  /-- The graph computed. -/
  graph : Option Graph

/-- A handler that passes nothing on. -/
def Effect.quiet (s : Server) : Effect := { server := s, ranges := [], graph := none }

namespace Server

/-- The check of `set_tensor`, `set_tensor_hash` and `get_tensor`, in wrapping arithmetic: is the
region out of the bounds of the buffer. -/
def outOfBounds (e : Extent) (data offset size : UInt64) : Bool :=
  let p0 := e.base
  let p1 := p0 + e.size
  decide (data + offset < p0) || decide (p1 ≤ data + offset) || decide (p1 - data - offset < size)

/-- The common part of these handlers: the tensor needs a known buffer and passes the check. -/
def access (T : Gguf.Traits) (s : Server) (r : RpcTensor) (offset size : UInt64) :
    Except Stop Effect :=
  match deserializeTensor T s.buffers r with
  | .error e => .error e
  | .ok none => .error .reject
  | .ok (some t) =>
    if t.buffer = 0 then .error .reject
    else match s.buffers t.buffer with
      | none => .error .reject
      | some e =>
        if outOfBounds e r.data offset size then .error .reject
        else .ok { server := s, ranges := [⟨t.data + offset, size⟩], graph := none }

/-- `set_tensor`: a tensor, an offset and the bytes to write. -/
def setTensor (T : Gguf.Traits) (s : Server) (input : List UInt8) : Except Stop Effect :=
  match (do let r ← Reader.rpcTensor; let o ← Reader.word64; pure (r, o) : Reader _) input with
  | none => .error .reject
  | some ((r, offset), data) => s.access T r offset (UInt64.ofNat data.length)

/-- `set_tensor_hash`; `file` is the size of the cached file, if there is one. -/
def setTensorHash (T : Gguf.Traits) (s : Server) (r : RpcTensor) (offset : UInt64)
    (file : Option UInt64) : Except Stop Effect :=
  match file with
  | none => .ok (.quiet s)
  | some size => s.access T r offset size

def getTensor (T : Gguf.Traits) (s : Server) (r : RpcTensor) (offset size : UInt64) :
    Except Stop Effect := s.access T r offset size

def copyTensor (T : Gguf.Traits) (s : Server) (rsrc rdst : RpcTensor) : Except Stop Effect :=
  match deserializeTensor T s.buffers rsrc with
  | .error e => .error e
  | .ok src =>
    match deserializeTensor T s.buffers rdst with
    | .error e => .error e
    | .ok dst =>
      match src, dst with
      | some src, some dst =>
        if src.buffer = 0 ∨ dst.buffer = 0 then .error .reject
        else match s.buffers dst.buffer with
          | none => .error .reject
          | some e =>
            if e.base + e.size < dst.data + src.nbytes T then .error .reject
            else .ok { server := s
                       ranges := [⟨src.data, src.nbytes T⟩, ⟨dst.data, src.nbytes T⟩]
                       graph := none }
      | _, _ => .error .reject

/-- `graph_compute`; a computation that does not succeed aborts. -/
def graphCompute (T : Gguf.Traits) (s : Server) (input : List UInt8) : Except Stop Effect :=
  match Reader.graphMessage input with
  | none => .error .reject
  | some (m, _) =>
    if s.nBackends ≤ m.device.toNat then .error .reject
    else match buildGraph T s.buffers m with
      | .error e => .error e
      | .ok g => .ok
        { server := { s with stored := Function.update s.stored m.device.toNat (some g) }
          ranges := [], graph := some g }

def graphRecompute (s : Server) (device : UInt32) : Except Stop Effect :=
  if s.nBackends ≤ device.toNat then .error .reject
  else match s.stored device.toNat with
    | none => .error .reject
    | some g => .ok { server := s, ranges := [], graph := some g }

def freeBuffer (s : Server) (handle : UInt64) : Except Stop Effect :=
  if (s.buffers handle).isNone then .error .reject
  else .ok (.quiet { s with buffers := Function.update s.buffers handle none })

/-- `alloc_buffer`; `got` is the buffer that the backend returns, if any. -/
def allocBuffer (s : Server) (device : UInt32) (got : Option (UInt64 × Extent)) :
    Except Stop Effect :=
  if s.nBackends ≤ device.toNat then .error .reject
  else match got with
    | none => .ok (.quiet s)
    | some (handle, e) =>
      .ok (.quiet { s with buffers := Function.update s.buffers handle (some e) })

/-- `buffer_get_base` and `buffer_clear`: the buffer must be known. -/
def withBuffer (s : Server) (handle : UInt64) : Except Stop Effect :=
  if (s.buffers handle).isNone then .error .reject else .ok (.quiet s)

def initTensor (T : Gguf.Traits) (s : Server) (r : RpcTensor) : Except Stop Effect :=
  match deserializeTensor T s.buffers r with
  | .error e => .error e
  | .ok none => .error .reject
  | .ok (some _) => .ok (.quiet s)

end Server

/-- A message of the client. -/
inductive Message where
  | allocBuffer (device : UInt32) (got : Option (UInt64 × Extent))
  | freeBuffer (handle : UInt64)
  | bufferGetBase (handle : UInt64)
  | bufferClear (handle : UInt64)
  | setTensor (input : List UInt8)
  | setTensorHash (r : RpcTensor) (offset : UInt64) (file : Option UInt64)
  | getTensor (r : RpcTensor) (offset size : UInt64)
  | copyTensor (src dst : RpcTensor)
  | initTensor (r : RpcTensor)
  | graphCompute (input : List UInt8)
  | graphRecompute (device : UInt32)

/-- The handler of a message. -/
def Server.handle (T : Gguf.Traits) (s : Server) : Message → Except Stop Effect
  | .allocBuffer device got => s.allocBuffer device got
  | .freeBuffer h => s.freeBuffer h
  | .bufferGetBase h => s.withBuffer h
  | .bufferClear h => s.withBuffer h
  | .setTensor input => s.setTensor T input
  | .setTensorHash r offset file => s.setTensorHash T r offset file
  | .getTensor r offset size => s.getTensor T r offset size
  | .copyTensor src dst => s.copyTensor T src dst
  | .initTensor r => s.initTensor T r
  | .graphCompute input => s.graphCompute T input
  | .graphRecompute device => s.graphRecompute device

end Llama.Rpc
