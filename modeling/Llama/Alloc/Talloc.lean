import Llama.Lib.Span
import Mathlib.Algebra.Order.Ring.Int

/-!
# The dynamic tensor allocator

`ggml_dyn_tallocr`: up to sixteen chunks, each with an array of free blocks. The array of
a chunk is the list of its first `n_free_blocks` entries. `GGML_ASSERT` and `GGML_ABORT`
end the program and are the `none` of a result. Sizes are natural numbers; `size_t`
arithmetic is exact as long as no offset exceeds `SIZE_MAX/2`.
-/

namespace Llama.Alloc

/-- `SIZE_MAX` of 64-bit platforms. -/
def sizeMax : Nat := 2 ^ 64 - 1

/-- `GGML_VBUFFER_MAX_CHUNKS`. -/
def maxChunks : Nat := 16

def maxFreeBlocks : Nat := 256

/-- `aligned_offset(NULL, offset, alignment)`. -/
def alignedOffset (offset alignment : Nat) : Nat :=
  offset + (alignment - offset % alignment) % alignment

/-- `tallocr_chunk`. -/
structure Chunk where
  /-- The free blocks in use, by index. -/
  free : List Span
  /-- High-water mark. -/
  maxSize : Nat
  deriving DecidableEq, Repr

/-- `ggml_dyn_tallocr`. -/
structure Talloc where
  /-- Alignment of sizes and offsets. -/
  alignment : Nat
  /-- Preferred limit of a chunk. -/
  maxChunkSize : Nat
  /-- The chunks in use. -/
  chunks : List Chunk
  deriving DecidableEq, Repr

/-- `buffer_address`. -/
structure Addr where
  /-- Index of the chunk. -/
  chunk : Nat
  /-- Offset in the chunk. -/
  offset : Nat
  deriving DecidableEq, Repr

/-- `ggml_dyn_tallocr_new`. -/
def Talloc.new (alignment maxBufferSize : Nat) : Talloc :=
  { alignment := alignment, maxChunkSize := min maxBufferSize (sizeMax / 2), chunks := [] }

/-- Loop body over the blocks of chunk `c` but the last. The state is the choice so far and
the best size in this chunk. -/
def fitStep (size c : Nat) (blocks : List Span) (st : Option (Nat × Nat) × Nat) (i : Nat) :
    Option (Nat × Nat) × Nat :=
  match blocks[i]? with
  | some b => if size ≤ b.size ∧ b.size ≤ st.2 then (some (c, i), b.size) else st
  | none => st

/-- The best fitting block besides the last block. The best size starts over in every chunk. -/
def bestFit (chunks : List Chunk) (size : Nat) : Option (Nat × Nat) :=
  (List.range chunks.length).foldl (fun best c =>
    match chunks[c]? with
    | some ch =>
      ((List.range (ch.free.length - 1)).foldl (fitStep size c ch.free) (best, sizeMax)).1
    | none => best) none

/-- Loop body over the last blocks. The state is the choice so far and its reuse factor. -/
def lastStep (chunks : List Chunk) (size : Nat) (st : Option (Nat × Nat) × Int) (c : Nat) :
    Option (Nat × Nat) × Int :=
  match chunks[c]? with
  | some ch =>
    match ch.free[ch.free.length - 1]? with
    | some b =>
      let reuse : Int := (ch.maxSize : Int) - b.offset - size
      let betterReuse := decide (st.2 < 0) && decide (st.2 < reuse)
      let betterFit := decide (0 ≤ reuse) && decide (reuse < st.2)
      if size ≤ b.size ∧ (betterReuse || betterFit) then
        (some (c, ch.free.length - 1), reuse)
      else st
    | none => st
  | none => st

/-- Try the last block of every chunk; this may grow a chunk. -/
def lastFit (chunks : List Chunk) (size : Nat) : Option (Nat × Nat) :=
  ((List.range chunks.length).foldl (lastStep chunks size) (none, -(2 ^ 63))).1

/-- `ggml_dyn_tallocr_new_chunk`. -/
def Talloc.newChunk (a : Talloc) (minSize : Nat) : Talloc :=
  let size :=
    if a.chunks.length = maxChunks - 1 then sizeMax / 2 else max minSize a.maxChunkSize
  { a with chunks := a.chunks ++ [{ free := [{ offset := 0, size := size }], maxSize := 0 }] }

/-- Take `size` bytes from the front of block `i`. -/
def Chunk.carve (ch : Chunk) (i size : Nat) : Chunk × Nat :=
  match ch.free[i]? with
  | some b =>
    let rest : Span := { offset := b.offset + size, size := b.size - size }
    ({ free := if rest.size = 0 then ch.free.eraseIdx i else ch.free.set i rest
       maxSize := max ch.maxSize (b.offset + size) }, b.offset)
  | none => (ch, 0)

/-- Allocate in a chosen block. -/
def Talloc.carve (a : Talloc) (c i size : Nat) : Talloc × Addr :=
  match a.chunks[c]? with
  | some ch =>
    ({ a with chunks := a.chunks.set c (ch.carve i size).1 },
      { chunk := c, offset := (ch.carve i size).2 })
  | none => (a, { chunk := c, offset := 0 })

/-- `ggml_dyn_tallocr_alloc`. -/
def Talloc.alloc (a : Talloc) (n : Nat) : Option (Talloc × Addr) :=
  let size := alignedOffset n a.alignment
  match (bestFit a.chunks size).or (lastFit a.chunks size) with
  | some (c, i) => some (a.carve c i size)
  | none =>
    if maxChunks ≤ a.chunks.length then none
    else some ((a.newChunk size).carve a.chunks.length 0 size)

/-- `ggml_dyn_tallocr_insert_block`: before the first block that does not start earlier. -/
def insertBlock (blocks : List Span) (b : Span) : Option (List Span) :=
  if blocks.length < maxFreeBlocks then
    some (blocks.takeWhile (fun x => decide (x.offset < b.offset)) ++
      b :: blocks.dropWhile (fun x => decide (x.offset < b.offset)))
  else none

/-- The freed bytes start at the end of block `i`: grow it, and swallow the next block when
it now touches. -/
def mergeEnd (blocks : List Span) (i size : Nat) (b : Span) : List Span :=
  let b : Span := { b with size := b.size + size }
  match blocks[i + 1]? with
  | some next =>
    if b.stop = next.offset then
      (blocks.set i { b with size := b.size + next.size }).eraseIdx (i + 1)
    else blocks.set i b
  | none => blocks.set i b

/-- The freed bytes end at the start of block `i`: grow it downwards, and let the previous
block swallow it when they touch. -/
def mergeBegin (blocks : List Span) (i offset size : Nat) (b : Span) : List Span :=
  let b : Span := { offset := offset, size := b.size + size }
  if 0 < i then
    match blocks[i - 1]? with
    | some prev =>
      if prev.stop = b.offset then
        (blocks.set (i - 1) { prev with size := prev.size + b.size }).eraseIdx i
      else blocks.set i b
    | none => blocks.set i b
  else blocks.set i b

/-- Loop body of `ggml_dyn_tallocr_free_bytes`; `some` returns. -/
def freeStep (blocks : List Span) (offset size i : Nat) : Option (List Span) :=
  match blocks[i]? with
  | some b =>
    if b.stop = offset then some (mergeEnd blocks i size b)
    else if offset + size = b.offset then some (mergeBegin blocks i offset size b)
    else none
  | none => none

/-- The free list of a chunk after bytes were given back. -/
def freeBlocks (blocks : List Span) (offset size : Nat) : Option (List Span) :=
  match (List.range blocks.length).findSome? (freeStep blocks offset size) with
  | some bs => some bs
  | none => insertBlock blocks { offset := offset, size := size }

/-- `ggml_dyn_tallocr_free_bytes`. -/
def Talloc.freeBytes (a : Talloc) (addr : Addr) (n : Nat) : Option Talloc :=
  let size := alignedOffset n a.alignment
  match a.chunks[addr.chunk]? with
  | some ch => do
    let bs ← freeBlocks ch.free addr.offset size
    pure { a with chunks := a.chunks.set addr.chunk { ch with free := bs } }
  | none => none

end Llama.Alloc
