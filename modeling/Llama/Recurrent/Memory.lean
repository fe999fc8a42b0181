import Llama.Batch.Split
import Mathlib.Data.Finset.Card
import Mathlib.Algebra.Order.Ring.Int

/-!
# Recurrent memory

`llama_memory_recurrent`: a cell holds the state of the sequences that share it, and the cell
number of sequence `s` is stored in the `tail` of cell `s`. An index `-1` is `none`. `find_slot`
returns `none` if an assertion fails or a cell beyond the array is read.
-/

namespace Llama.Recurrent

variable {E : Type}

/-- `std::numeric_limits<llama_pos>::max()`. -/
def maxPos : Int := 2 ^ 31 - 1

/-- `mem_cell`. -/
structure Cell where
  /-- Position of the last token. -/
  pos : Int
  /-- Where the state is copied from. -/
  src : Option Nat
  /-- The same for the inputs of the graph. -/
  src0 : Option Nat
  /-- The cell of the sequence with this number. -/
  tail : Option Nat
  /-- Sequences that share the state. -/
  seqId : Finset Nat
  deriving DecidableEq

def Cell.hasSeqId (x : Cell) (id : Int) : Bool := decide (0 ≤ id ∧ id.toNat ∈ x.seqId)

def Cell.isEmpty (x : Cell) : Bool := decide (x.seqId = ∅)

/-- The fields of `llama_memory_recurrent` that change. -/
structure Memory where
  /-- Number of cells. -/
  size : Nat
  /-- Where the next batch goes. -/
  head : Nat
  /-- Cells with a sequence. -/
  used : Nat
  /-- Cells of the last batch. -/
  n : Nat
  /-- A cell with a zeroed state. -/
  rsZ : Option Nat
  cells : Nat → Cell

/-- Change one cell. -/
def Memory.modify (m : Memory) (c : Nat) (f : Cell → Cell) : Memory :=
  { m with cells := Function.update m.cells c (f (m.cells c)) }

def Memory.clear (m : Memory) : Memory :=
  { m with
    head := 0, used := 0
    cells := fun c => if c < m.size then
        { m.cells c with pos := -1, src := none, tail := none, seqId := ∅ }
      else m.cells c }

/-- The lower end of a range, where a negative one means the start. -/
def lower (p0 : Int) : Int := if p0 < 0 then 0 else p0

/-- The upper end of a range, where a negative one means no bound. -/
def upper (p1 : Int) : Int := if p1 < 0 then maxPos else p1

/-- What is left of a cell that has lost its last sequence. -/
def Cell.emptied (x : Cell) : Cell := { x with pos := -1, src := none }

/-- A turn of the loop of `seq_rm`, with `new_head`. -/
def rmTurn (id p0 p1 : Int) (st : Memory × Nat) (i : Nat) : Memory × Nat :=
  let m := st.1
  let x := m.cells i
  if p0 ≤ x.pos ∧ x.pos < p1 ∧ (id < 0 ∨ x.hasSeqId id = true) then
    let x := { x with seqId := if id < 0 then ∅ else x.seqId.erase id.toNat }
    if x.isEmpty then
      ({ m.modify i fun _ => x.emptied with used := if 0 ≤ x.pos then m.used - 1 else m.used },
        if st.2 = m.size then i else st.2)
    else (m.modify i fun _ => x, st.2)
  else st

/-- The head moves to a cell that was freed before it. -/
def Memory.moveHead (st : Memory × Nat) : Memory :=
  if st.2 ≠ st.1.size ∧ st.2 < st.1.head then { st.1 with head := st.2 } else st.1

/-- The loop of `seq_rm`. -/
def Memory.rmRange (m : Memory) (id p0 p1 : Int) : Memory :=
  Memory.moveHead ((List.range m.size).foldl (rmTurn id p0 p1) (m, m.size))

def Memory.seqRm (m : Memory) (id p0 p1 : Int) : Bool × Memory :=
  let p0 := lower p0
  let p1 := upper p1
  if m.size ≤ id then (false, m)
  else if 0 ≤ id then
    match (m.cells id.toNat).tail with
    | none => (true, m.rmRange id p0 p1)
    | some t =>
      let pos := (m.cells t).pos
      if 0 < p0 ∧ p0 ≤ pos ∧ pos < p1 then (false, m)
      else if p0 ≤ pos ∧ pos < p1 then
        (true, (m.modify id.toNat fun x => { x with tail := none }).rmRange id p0 p1)
      else (true, m.rmRange id p0 p1)
  else if p0 ≠ p1 ∧ (p0 ≠ 0 ∨ p1 ≠ maxPos) then (false, m)
  else (true, m.rmRange id p0 p1)

/-- A sequence leaves its cell. -/
def Memory.release (m : Memory) (s : Nat) : Memory :=
  match (m.cells s).tail with
  | none => m
  | some t =>
    let m := m.modify t fun x => { x with seqId := x.seqId.erase s }
    let m := m.modify s fun x => { x with tail := none }
    if (m.cells t).isEmpty then { m.modify t Cell.emptied with used := m.used - 1 } else m

/-- `seq_cp`; the range is not used. -/
def Memory.seqCp (m : Memory) (src dst : Int) : Memory :=
  if src = dst then m
  else if (0 ≤ dst ∧ dst < m.size) ∧ 0 ≤ src ∧ src < m.size then
    let m := m.release dst.toNat
    match (m.cells src.toNat).tail with
    | none => m
    | some t =>
      (m.modify t fun x => { x with seqId := insert dst.toNat x.seqId }).modify dst.toNat fun x =>
        { x with tail := some t }
  else m

/-- A turn of the loop of `seq_keep`, with `new_head`. -/
def keepTurn (id : Int) (st : Memory × Nat) (i : Nat) : Memory × Nat :=
  let m := st.1
  let x := m.cells i
  let x := if (i : Int) ≠ id then { x with tail := none } else x
  if x.hasSeqId id then (m.modify i fun _ => { x with seqId := {id.toNat} }, st.2)
  else
    ({ m.modify i fun _ => { x with pos := -1, src := none, seqId := ∅ } with
        used := if 0 ≤ x.pos then m.used - 1 else m.used },
      if st.2 = m.size then i else st.2)

def Memory.seqKeep (m : Memory) (id : Int) : Memory :=
  Memory.moveHead ((List.range m.size).foldl (keepTurn id) (m, m.size))

/-- Change the position of a sequence if it is in the range. -/
def Memory.movePos (m : Memory) (id p0 p1 : Int) (f : Int → Int) : Memory :=
  let p0 := lower p0
  let p1 := upper p1
  if p0 = p1 then m
  else if 0 ≤ id ∧ id < m.size then
    match (m.cells id.toNat).tail with
    | none => m
    | some t =>
      if (m.cells t).hasSeqId id ∧ p0 ≤ (m.cells t).pos ∧ (m.cells t).pos < p1 then
        m.modify t fun x => { x with pos := f x.pos }
      else m
  else m

def Memory.seqAdd (m : Memory) (id p0 p1 shift : Int) : Memory :=
  if shift = 0 then m else m.movePos id p0 p1 (· + shift)

def Memory.seqDiv (m : Memory) (id p0 p1 d : Int) : Memory :=
  if d = 1 then m else m.movePos id p0 p1 fun pos => pos.tdiv d

/-- What `find_slot` reads of a sequence set: the sequences of its first token and the position of
its last one. -/
structure SetInfo where
  /-- Sequences. -/
  ids : List Int
  /-- Position of the last token. -/
  lastPos : Int

/-- The sequence sets of a ubatch. -/
def setsOf (u : Batch.UBatch E) : List SetInfo :=
  (List.range u.nSeqs).map fun s =>
    { ids := u.seqId.getD (s * u.nSeqTokens) []
      lastPos := u.pos.getD (s * u.nSeqTokens + u.nSeqTokens - 1) 0 }

/-- `seq_id[i][0]`. -/
def SetInfo.first (x : SetInfo) : Nat := (x.ids.headD 0).toNat

/-- Check the sequences of a set and release those after the first. The flag tells whether all
numbers are small enough; the loop returns at the first that is not. -/
def releaseIds : List Int → Bool → Memory → Bool × Memory
  | [], _, m => (true, m)
  | id :: ids, later, m =>
    if id < 0 ∨ (m.size : Int) ≤ id then (false, m)
    else releaseIds ids true (if later then m.release id.toNat else m)

def releaseSets : List SetInfo → Memory → Bool × Memory
  | [], m => (true, m)
  | x :: xs, m =>
    match releaseIds x.ids false m with
    | (false, m) => (false, m)
    | (true, m) => releaseSets xs m

/-- Back to the first cell behind the last one. -/
def Memory.wrap (m : Memory) (c : Nat) : Nat := if m.size ≤ c then c - m.size else c

/-- The loop that looks for an empty cell from `c` on. -/
def Memory.firstEmpty (m : Memory) : Nat → Nat → Nat
  | 0, c => c
  | k + 1, c => if (m.cells (m.wrap c)).isEmpty then m.wrap c else m.firstEmpty k (m.wrap c + 1)

/-- The loop that looks for an empty cell after `c`. -/
def Memory.nextEmpty (m : Memory) : Nat → Nat → Nat
  | 0, c => c
  | k + 1, c =>
    if (m.cells (m.wrap (c + 1))).isEmpty then m.wrap (c + 1) else m.nextEmpty k (m.wrap (c + 1))

/-- A range of cells that is being found. -/
structure Range where
  m : Memory
  /-- `next_empty_cell`. -/
  next : Nat
  min : Nat
  max : Nat

/-- The range grows to the cell of the sequence. -/
def Range.grow (r : Range) (t : Nat) : Range :=
  { r with min := if t < r.min then t else r.min, max := if r.max < t then t else r.max }

/-- The sequence shares its cell: it gets the empty one, with a copy of the state it has. -/
def Memory.split (m : Memory) (s next : Nat) : Option Memory :=
  if next < m.size ∧ (m.cells next).isEmpty = true then
    match (m.cells s).tail with
    | none => some (m.modify s fun x => { x with tail := some next })
    | some t =>
      let orig := m.cells t
      let m := m.modify next fun x => { x with pos := orig.pos, src := orig.src }
      let m := m.modify t fun x => { x with seqId := x.seqId.erase s }
      let m := m.modify next fun x => { x with seqId := insert s x.seqId }
      if (m.cells t).isEmpty then none
      else some (m.modify s fun x => { x with tail := some next })
  else none

/-- Take the empty cell and, unless it is the last time, look for the next one. -/
def Range.move (r : Range) (s : Nat) (last : Bool) : Option Range := do
  let m ← r.m.split s r.next
  let next := if last then r.next else m.nextEmpty m.size r.next
  pure (Range.grow { r with m := m, next := next } r.next)

/-- A turn of the loop that finds the usable cells, for a sequence and whether it is the last. -/
def Range.turn (r : Range) (s : Nat) (last : Bool) : Option Range :=
  match (r.m.cells s).tail with
  | none => r.move s last
  | some t =>
    if s ∈ (r.m.cells t).seqId then
      if (r.m.cells t).seqId.card = 1 then some (r.grow t) else r.move s last
    else none

/-- The loop that finds the usable cells. -/
def Range.find : Range → List Nat → Option Range
  | r, [] => some r
  | r, s :: ss => do
    let r ← r.turn s ss.isEmpty
    r.find ss

/-- Swap two cells, and the tails that point to them. -/
def Memory.swap (m : Memory) (dst src : Nat) : Memory :=
  let x := m.cells dst
  let y := m.cells src
  let m := m.modify dst fun x => { x with pos := y.pos, src := y.src, seqId := y.seqId }
  let m := m.modify src fun y => { y with pos := x.pos, src := x.src, seqId := x.seqId }
  { m with
    cells := fun j => if j < m.size then
        { m.cells j with
          tail := if (m.cells j).tail = some src then some dst
            else if (m.cells j).tail = some dst then some src else (m.cells j).tail }
      else m.cells j }

/-- The loop that gathers the cells from `dst` on. -/
def Memory.gather : Memory → Nat → List Nat → Option Memory
  | m, _, [] => some m
  | m, dst, s :: ss =>
    match (m.cells s).tail with
    | none => none
    | some src =>
      if dst < m.size then (if dst ≠ src then m.swap dst src else m).gather (dst + 1) ss else none

/-- The cell of a set gets its last position and its sequences. -/
def Memory.place (m : Memory) (c : Nat) (x : SetInfo) : Memory :=
  x.ids.foldl (fun m id => (m.modify c fun y => { y with seqId := insert id.toNat y.seqId }).modify
      id.toNat fun y => { y with tail := some c })
    (m.modify c fun y => { y with pos := x.lastPos, seqId := ∅ })

/-- The loop that updates the cells of the sets from `c` on. -/
def Memory.placeAll : Memory → Nat → List SetInfo → Memory
  | m, _, [] => m
  | m, c, x :: xs => (m.place c x).placeAll (c + 1) xs

def Memory.refcount (m : Memory) (c : Nat) : Nat :=
  ((List.range m.size).filter fun i => decide ((m.cells i).src = some c)).length

/-- The cells of the range get their sources; the first one that is no source is zeroed. -/
def Memory.stage (m : Memory) (min max : Nat) : Option Memory :=
  let range := List.range' min (max + 1 - min)
  let rsZ := range.find? fun c => decide (m.refcount c = 0)
  if (range.all fun c => decide ((m.cells c).src ≠ none)) || rsZ.isSome then
    some { m with
      rsZ := rsZ
      cells := fun c => if c ∈ range then
          { m.cells c with
            src0 := match (m.cells c).src with
              | none => rsZ
              | some s => some s
            src := some c }
        else m.cells c }
  else none

/-- The number of cells with a sequence. -/
def Memory.countUsed (m : Memory) : Nat :=
  ((Finset.range m.size).filter fun c => (m.cells c).seqId ≠ ∅).card

/-- `find_slot` after the sequences are checked. -/
def Memory.placeSets (m : Memory) (xs : List SetInfo) : Option (Bool × Memory) := do
  let next := m.firstEmpty m.size m.head
  let r ← Range.find { m := m, next := next, min := m.size - 1, max := 0 } (xs.map SetInfo.first)
  let m ← r.m.gather r.min (xs.map SetInfo.first)
  let m := m.placeAll r.min xs
  let m ← m.stage r.min r.max
  let n := r.max + 1 - r.min
  pure (decide (xs.length ≤ n), { m with head := r.min, n := n, used := m.countUsed })

def Memory.findSlot (m : Memory) (u : Batch.UBatch E) : Option (Bool × Memory) :=
  let m := if m.used + 2 * u.nSeqs < m.head then { m with head := 0 } else m
  if u.equalSeqs then
    match releaseSets (setsOf u) m with
    | (false, m) => some (false, m)
    | (true, m) => m.placeSets (setsOf u)
  else none

end Llama.Recurrent
