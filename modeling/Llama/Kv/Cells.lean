import Mathlib.Algebra.Order.BigOperators.Group.Finset
import Mathlib.Data.Multiset.Sort
import Mathlib.Algebra.Order.Ring.Int

/-!
# Cell metadata of the KV cache

The methods of `llama_kv_cells`, one definition each. The parallel vectors
`pos`, `ext`, `shift` and `seq` are one record per index; the bitset of a cell is
the finite set of its members. A `std::map` from positions to positive counts is
a multiset of positions: `seq_pos_inc` inserts one copy, `seq_pos_dec` removes one
and forgets the key with the last copy.

`assert` is compiled out of release builds, so every method is total. The field `ok` is
ghost state: it stays true as long as every assertion that was met held.
-/

namespace Llama.Kv

/-- `LLAMA_MAX_SEQ`: the width of the sequence bitset. -/
abbrev maxSeq : Nat := 256

/-- Sequence ids that a bitset can hold. -/
abbrev SeqId := Fin maxSeq

instance : NeZero maxSeq := ⟨by decide⟩

/-- `std::numeric_limits<llama_pos>::max()`. -/
def posMax : Int := 2147483647

/-- 2D spatial position of a cell, used for M-RoPE. -/
structure CellExt where
  /-- Column of the embedding. -/
  x : Int := 0
  /-- Row of the embedding. -/
  y : Int := 0
  deriving DecidableEq, Repr

/-- The four vector entries of one cell index. -/
structure Cell where
  /-- Position in its sequences, `-1` for an empty cell. -/
  pos : Int := -1
  /-- Extra spatial position. -/
  ext : CellExt := {}
  /-- Shift of `pos` since the last `reset_shift`. -/
  shift : Int := 0
  /-- Sequences occupying the cell. -/
  seq : Finset SeqId := ∅
  deriving DecidableEq

/-- `llama_kv_cells`. -/
structure Cells where
  /-- Common length of the vectors. -/
  size : Nat
  /-- Content of every index below `size`. -/
  cell : Nat → Cell
  /-- Some shift is pending. -/
  hasShift : Bool
  /-- Indices of the used cells. -/
  used : Finset Nat
  /-- Positions present for each sequence, with their multiplicity. -/
  seqPos : SeqId → Multiset Int
  /-- Ghost: no assertion has failed so far. -/
  ok : Bool

namespace Cells

/-- Meet an assertion. -/
def assert (c : Cells) (p : Bool) : Cells := { c with ok := c.ok && p }

/-- `resize(n)`: `n` empty cells. -/
def resize (n : Nat) : Cells :=
  { size := n, cell := fun _ => {}, hasShift := false, used := ∅, seqPos := fun _ => 0, ok := true }

/-- `reset()`: empty every cell. -/
def reset (c : Cells) : Cells := { resize c.size with ok := c.ok }

/-- Overwrite the record of one index. -/
def put (c : Cells) (i : Nat) (x : Cell) : Cells := { c with cell := Function.update c.cell i x }

def isEmpty (c : Cells) (i : Nat) : Bool := (c.cell i).pos == -1

/-- The assertions of `is_empty`. -/
def isEmptyPre (c : Cells) (i : Nat) : Bool :=
  decide (i < c.size) && (((c.cell i).pos == -1) || decide (0 ≤ (c.cell i).pos))

/-- The assertions of `pos_get`, `ext_get`, `get_shift` and `seq_count`. -/
def nonEmptyPre (c : Cells) (i : Nat) : Bool := decide (i < c.size) && (c.cell i).pos != -1

def getUsed (c : Cells) : Nat := c.used.card

def seqCount (c : Cells) (i : Nat) : Nat := (c.cell i).seq.card

def seqHas (c : Cells) (i : Nat) (q : SeqId) : Bool := decide (q ∈ (c.cell i).seq)

/-- `seq_get(i)`: the first member of the bitset, `none` for the `-1` of an empty one. -/
def seqGet (c : Cells) (i : Nat) : Option SeqId :=
  (List.finRange maxSeq).find? fun q => decide (q ∈ (c.cell i).seq)

def posIn (c : Cells) (i : Nat) (p0 p1 : Int) : Bool :=
  decide (p0 ≤ (c.cell i).pos) && decide ((c.cell i).pos < p1)

/-- `seq_pos_min(seq_id)`: the first key of the map, `-1` when it is empty. -/
def seqPosMin (c : Cells) (q : SeqId) : Int := ((c.seqPos q).sort (· ≤ ·)).head?.getD (-1)

/-- `seq_pos_max(seq_id)`: the last key of the map, `-1` when it is empty. -/
def seqPosMax (c : Cells) (q : SeqId) : Int := ((c.seqPos q).sort (· ≤ ·)).getLast?.getD (-1)

/-- `seq_pos_dec(s, p)`: asserts that the entry is there. -/
def seqPosDec (c : Cells) (q : SeqId) (p : Int) : Cells :=
  { c.assert (decide (p ∈ c.seqPos q)) with
    seqPos := Function.update c.seqPos q ((c.seqPos q).erase p) }

/-- `seq_pos_inc(s, p)`. -/
def seqPosInc (c : Cells) (q : SeqId) (p : Int) : Cells :=
  { c with seqPos := Function.update c.seqPos q (p ::ₘ c.seqPos q) }

/-- `seq_pos_rm(i)`: decrement for every member of the bitset. The iterations touch
different maps, so the loop is one pointwise update. -/
def seqPosRm (c : Cells) (i : Nat) : Cells :=
  { c.assert (decide (∀ q ∈ (c.cell i).seq, (c.cell i).pos ∈ c.seqPos q)) with
    seqPos := fun q =>
      if q ∈ (c.cell i).seq then (c.seqPos q).erase (c.cell i).pos else c.seqPos q }

/-- `seq_pos_add(i)`: increment for every member of the bitset. -/
def seqPosAdd (c : Cells) (i : Nat) : Cells :=
  { c with seqPos := fun q =>
      if q ∈ (c.cell i).seq then (c.cell i).pos ::ₘ c.seqPos q else c.seqPos q }

/-- Take an index out of the `used` set. -/
def usedErase (c : Cells) (i : Nat) : Cells := { c with used := c.used.erase i }

/-- Put an index into the `used` set. -/
def usedInsert (c : Cells) (i : Nat) : Cells := { c with used := insert i c.used }

/-- `rm(i)`: clear a non-empty cell. -/
def rm (c : Cells) (i : Nat) : Cells :=
  let c := (c.assert (c.nonEmptyPre i)).seqPosRm i
  (c.put i {}).usedErase i

/-- `seq_rm(i, seq_id)`; the flag tells that the cell became empty. -/
def seqRm (c : Cells) (i : Nat) (q : SeqId) : Cells × Bool :=
  let c := c.assert (c.nonEmptyPre i && c.seqHas i q)
  let x := c.cell i
  let c := (c.put i { x with seq := x.seq.erase q }).seqPosDec q x.pos
  if x.seq.erase q = ∅ then ((c.put i {}).usedErase i, true) else (c, false)

/-- `seq_keep(i, seq_id)`; the flag tells that the cell became empty. -/
def seqKeep (c : Cells) (i : Nat) (q : SeqId) : Cells × Bool :=
  let c := c.assert (decide (i < c.size))
  let x := c.cell i
  if q ∈ x.seq then
    (((c.seqPosRm i).put i { x with seq := {q} }).seqPosInc q x.pos, false)
  else if x.seq ≠ ∅ then
    (((c.seqPosRm i).put i {}).usedErase i, true)
  else (c.assert (x.pos == -1), false)

def seqAdd (c : Cells) (i : Nat) (q : SeqId) : Cells :=
  let c := c.assert (c.nonEmptyPre i && !c.seqHas i q)
  let x := c.cell i
  (c.put i { x with seq := insert q x.seq }).seqPosInc q x.pos

/-- `pos_set(i, p)`: set the position of an empty cell. -/
def posSet (c : Cells) (i : Nat) (p : Int) : Cells :=
  let x := c.cell i
  let c := c.assert (decide (i < c.size) && x.pos == -1 && decide (x.seq = ∅))
  (c.put i { x with pos := p }).usedInsert i

/-- `ext_set(i, p)`. -/
def extSet (c : Cells) (i : Nat) (e : CellExt) : Cells :=
  (c.assert (decide (i < c.size))).put i { c.cell i with ext := e }

/-- `pos_add(i, d)`; the flag tells that the position fell below zero, which empties
the cell without resetting `ext`. -/
def posAdd (c : Cells) (i : Nat) (d : Int) : Cells × Bool :=
  let c := (c.assert (c.nonEmptyPre i)).seqPosRm i
  let x := c.cell i
  let c := { c with hasShift := true }
  if x.pos + d < 0 then
    ((c.put i { x with pos := -1, shift := 0, seq := ∅ }).usedErase i, true)
  else ((c.put i { x with pos := x.pos + d, shift := x.shift + d }).seqPosAdd i, false)

/-- `pos_div(i, d)`: C division truncates. -/
def posDiv (c : Cells) (i : Nat) (d : Int) : Cells :=
  let c := (c.assert (c.nonEmptyPre i)).seqPosRm i
  let x := c.cell i
  let p := x.pos.tdiv d
  { (c.put i { x with pos := p, shift := x.shift + (x.pos - p) }).seqPosAdd i with
    hasShift := true }

/-- `cp(idxs)`: the saved records, in the order of the indices. `shift` is not saved;
it is asserted to be zero. -/
def cp (c : Cells) (idxs : List Nat) : List Cell := idxs.map fun i => { c.cell i with shift := 0 }

/-- One iteration of `set(idxs, other)`. -/
def setOne (c : Cells) (i : Nat) (y : Cell) : Cells :=
  let x := c.cell i
  let c := if x.pos = -1 ∧ y.pos ≠ -1 then c.usedInsert i else c
  let c := if x.pos ≠ -1 ∧ y.pos = -1 then c.usedErase i else c
  let c := if x.pos ≠ -1 then c.seqPosRm i else c
  let c := c.put i { y with shift := x.shift }
  let c := if y.pos ≠ -1 then c.seqPosAdd i else c
  c.assert (x.shift == 0)

/-- `set(idxs, other)`: write saved records back. -/
def set (c : Cells) (idxs : List Nat) (other : List Cell) : Cells :=
  (idxs.zip other).foldl (fun c e => c.setOne e.1 e.2) c

end Cells

end Llama.Kv
