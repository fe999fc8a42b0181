import Llama.Alloc.Talloc

/-!
# The graph allocator

`ggml_gallocr`. Tensors are named by numbers that stand for their pointers, so that the hash
table is a map; a table that is too small ends the program. Buffers of one type share an
allocator: allocators are found by the type. `GGML_ASSERT` is the `none` of a result, and
allocating a backend buffer is taken to succeed.
-/

namespace Llama.Alloc

/-- `ggml_op`: the operations that can work in place by name, the others by number. -/
inductive Op where
  | none | fill | scale | diagMaskZero | diagMaskInf | add | addId | add1 | sub | mul | div
  | sqr | sqrt | log | unary | rope | ropeBack | siluBack | rmsNorm | rmsNormBack | softMax
  | softMaxBack
  | other (code : Nat)
  deriving DecidableEq, Repr

/-- `ggml_op_can_inplace`. -/
def Op.canInplace : Op → Bool
  | .none => false
  | .other _ => false
  | _ => true

/-- What `ggml_are_same_layout` compares. -/
structure Layout where
  /-- Type of the elements. -/
  type : Nat
  /-- Numbers of elements. -/
  ne : List Nat
  /-- Strides. -/
  nb : List Nat
  deriving DecidableEq, Repr

/-- `ggml_tensor` before the graph is allocated. -/
structure Tensor where
  /-- The operation. -/
  op : Op
  /-- Type, shape and strides. -/
  layout : Layout
  /-- `GGML_TENSOR_FLAG_INPUT`. -/
  input : Bool
  /-- `GGML_TENSOR_FLAG_OUTPUT`. -/
  output : Bool
  viewSrc : Option Nat
  /-- Slots of the operands. -/
  src : List (Option Nat)
  /-- Data that was set outside. -/
  data : Option Nat
  /-- A buffer was set outside. -/
  buffer : Bool
  deriving DecidableEq, Repr

/-- `ggml_cgraph`. -/
structure Graph where
  /-- The tensor behind a pointer. -/
  tensor : Nat → Tensor
  /-- Nodes in the order in which they are computed. -/
  nodes : List Nat
  /-- Tensors that are not computed. -/
  leafs : List Nat

def Graph.sources (g : Graph) (t : Nat) : List Nat := (g.tensor t).src.filterMap id

/-- `ggml_impl_is_view`. -/
def Graph.isView (g : Graph) (t : Nat) : Bool := (g.tensor t).viewSrc.isSome

/-- The buffers of an allocator and what the backends say about their types. -/
structure Buffers where
  /-- Number of buffers. -/
  n : Nat
  /-- Type of a buffer. -/
  buft : Nat → Nat
  /-- Alignment of a type. -/
  alignment : Nat → Nat
  /-- Largest buffer of a type. -/
  maxSize : Nat → Nat
  /-- `ggml_backend_buft_get_alloc_size`. -/
  allocSize : Nat → Tensor → Nat

structure HashNode where
  /-- Reads that are left. -/
  children : Int
  /-- Views that are left. -/
  views : Int
  bufferId : Nat
  /-- Address in the buffer. -/
  addr : Addr
  /-- The allocator owns the tensor. -/
  allocated : Bool
  deriving DecidableEq, Repr

/-- What `ggml_gallocr_alloc_graph_impl` works on. -/
structure Galloc where
  /-- Allocators, by type. -/
  tallocs : Nat → Talloc
  /-- The hash table. -/
  hash : Nat → HashNode

namespace Galloc

/-- Change the entry of a tensor. -/
def upd (s : Galloc) (t : Nat) (f : HashNode → HashNode) : Galloc :=
  { s with hash := fun u => if u = t then f (s.hash u) else s.hash u }

/-- Change the allocator of a type. -/
def setTalloc (s : Galloc) (b : Nat) (a : Talloc) : Galloc :=
  { s with tallocs := fun c => if c = b then a else s.tallocs c }

/-- `ggml_gallocr_is_own`. -/
def isOwn (s : Galloc) (t : Nat) : Bool := (s.hash t).allocated

/-- `ggml_gallocr_is_allocated`. -/
def isAllocated (g : Graph) (s : Galloc) (t : Nat) : Bool :=
  (g.tensor t).data.isSome || (g.tensor t).buffer || s.isOwn t

/-- `ggml_gallocr_free_extra_space`. -/
def freeExtraSpace (B : Buffers) (g : Graph) (s : Galloc) (node parent : Nat) : Option Galloc :=
  let p := s.hash parent
  let b := B.buft p.bufferId
  let parentSize := B.allocSize b (g.tensor parent)
  let nodeSize := B.allocSize (B.buft (s.hash node).bufferId) (g.tensor node)
  if parentSize < nodeSize then none
  else
    let parentSize := alignedOffset parentSize (s.tallocs b).alignment
    let nodeSize := alignedOffset nodeSize (s.tallocs b).alignment
    if nodeSize < parentSize then do
      let a ← (s.tallocs b).freeBytes { p.addr with offset := p.addr.offset + nodeSize }
        (parentSize - nodeSize)
      some (s.setTalloc b a)
    else some s

/-- Whether a slot holds a parent whose memory the node can use, with the tensor that owns the
memory. -/
def reusable (g : Graph) (s : Galloc) (node : Nat) : Option Nat → Option (Nat × Nat)
  | none => none
  | some p =>
    if s.isOwn p = false then none
    else if (g.tensor p).output || (g.tensor p).viewSrc.any (fun v => (g.tensor v).output) then none
    else if (g.tensor node).layout ≠ (g.tensor p).layout then none
    else if (s.hash p).children = 1 ∧ (s.hash p).views = 0 then
      match (g.tensor p).viewSrc with
      | some v =>
        if (s.hash v).views = 1 ∧ (s.hash v).children = 0 ∧
            (g.tensor v).data = (g.tensor p).data then some (p, v)
        else none
      | none => some (p, p)
    else none

/-- The first slot whose memory is used in place. -/
def reuse (g : Graph) (s : Galloc) (node : Nat) : Option (Nat × Nat) :=
  if (g.tensor node).op.canInplace then (g.tensor node).src.findSome? (reusable g s node) else none

/-- `ggml_gallocr_allocate_node`. -/
def allocateNode (B : Buffers) (g : Graph) (s : Galloc) (node bufferId : Nat) : Option Galloc :=
  if s.isAllocated g node || g.isView node then some s
  else
    let s := s.upd node fun h => { h with allocated := true }
    match s.reuse g node with
    | some (p, v) =>
      let s := s.upd node fun h =>
        { h with bufferId := (s.hash p).bufferId, addr := (s.hash p).addr }
      let s := s.upd p fun h => { h with allocated := false }
      let s := s.upd v fun h => { h with allocated := false }
      s.freeExtraSpace B g node v
    | none => do
      let b := B.buft bufferId
      let (a, addr) ← (s.tallocs b).alloc (B.allocSize b (g.tensor node))
      some ((s.setTalloc b a).upd node fun h => { h with bufferId := bufferId, addr := addr })

/-- `ggml_gallocr_free_node`. -/
def freeNode (B : Buffers) (g : Graph) (s : Galloc) (node : Nat) : Option Galloc :=
  if (g.tensor node).output then some s
  else do
    let h := s.hash node
    let b := B.buft h.bufferId
    let a ← (s.tallocs b).freeBytes h.addr (B.allocSize b (g.tensor node))
    some ((s.setTalloc b a).upd node fun h => { h with allocated := false })

/-- Count an operand and allocate it if it is an input. -/
def countSource (B : Buffers) (g : Graph) (bufferId : Nat) (s : Galloc) (src : Nat) :
    Option Galloc :=
  let s := s.upd src fun h => { h with children := h.children + 1 }
  if (g.tensor src).input then s.allocateNode B g src bufferId else some s

/-- Count a view of its source. -/
def countView (g : Graph) (s : Galloc) (node : Nat) : Galloc :=
  match (g.tensor node).viewSrc with
  | some v =>
    if (g.tensor node).op ≠ .none then s.upd v fun h => { h with views := h.views + 1 } else s
  | none => s

/-- Body of the pass that counts children and views and allocates inputs. -/
def countNode (B : Buffers) (g : Graph) (s : Galloc) (node bufferId : Nat) : Option Galloc := do
  let s := s.countView g node
  let s ← if (g.tensor node).input then s.allocateNode B g node bufferId else some s
  (g.sources node).foldlM (countSource B g bufferId) s

/-- A parent was read: free it, or the source of a view, when nothing is left. -/
def updateParent (B : Buffers) (g : Graph) (s : Galloc) (parent : Nat) : Option Galloc :=
  let s := s.upd parent fun h => { h with children := h.children - 1 }
  if (s.hash parent).children = 0 ∧ (s.hash parent).views = 0 then
    match (g.tensor parent).viewSrc with
    | some v =>
      let s := s.upd v fun h => { h with views := h.views - 1 }
      if (s.hash v).views = 0 ∧ (s.hash v).children = 0 ∧ (s.hash v).allocated then
        s.freeNode B g v
      else some s
    | none => if (s.hash parent).allocated then s.freeNode B g parent else some s
  else some s

/-- Body of the pass that allocates the nodes. -/
def walkNode (B : Buffers) (g : Graph) (s : Galloc) (node bufferId : Nat) : Option Galloc := do
  let s ← (g.sources node).foldlM (fun s p => s.allocateNode B g p bufferId) s
  let s ← s.allocateNode B g node bufferId
  (g.sources node).foldlM (updateParent B g) s

/-- A pass over tensors whose buffers are given by position. -/
def pass (f : Galloc → Nat → Nat → Option Galloc) (ids : Nat → Nat) :
    Nat → List Nat → Galloc → Option Galloc
  | _, [], s => some s
  | i, t :: ts, s => do
    let s ← f s t (ids i)
    pass f ids (i + 1) ts s

/-- Allocators after their reset, and a cleared hash table. -/
def start (B : Buffers) : Galloc where
  tallocs b := Talloc.new (B.alignment b) (B.maxSize b)
  hash _ := { children := 0, views := 0, bufferId := 0, addr := ⟨0, 0⟩, allocated := false }

/-- `ggml_gallocr_alloc_graph_impl` on allocators that were reset. -/
def allocGraphImpl (B : Buffers) (g : Graph) (nodeIds leafIds : Nat → Nat) : Option Galloc := do
  let s ← pass (allocateNode B g) leafIds 0 g.leafs (start B)
  let s ← pass (countNode B g) nodeIds 0 g.nodes s
  pass (walkNode B g) nodeIds 0 g.nodes s

end Galloc

end Llama.Alloc
