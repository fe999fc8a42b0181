import Llama.Batch.Allocr

/-!
# Splitting a batch

`split_simple`, `split_equal`, `split_seq` and `ubatch_add`. A split hands a list of token
indices to `ubatch_add` (a `Cut`); `none` is the empty ubatch. The tokens that are used, their
number and the output indices are passed from call to call.
-/

namespace Llama.Batch

variable {E : Type}

/-- The state of a split. -/
structure Progress where
  /-- `used[i]`. -/
  used : Nat → Bool
  nUsed : Nat
  outIds : List Nat

/-- `split_reset`. -/
def Progress.reset : Progress := { used := fun _ => false, nUsed := 0, outIds := [] }

/-- Use a token. -/
def Progress.use (p : Progress) (i : Nat) : Progress :=
  { p with used := fun j => if j = i then true else p.used j, nUsed := p.nUsed + 1 }

/-- The arguments of `ubatch_add`. -/
structure Cut where
  /-- Token indices. -/
  idxs : List Nat
  /-- Number of sequence sets. -/
  nSeqs : Nat
  /-- Every set has the same number of tokens. -/
  equalSeqs : Bool
  deriving DecidableEq, Repr

/-- `llama_ubatch`. -/
structure UBatch (E : Type) where
  /-- Every set has the same number of tokens. -/
  equalSeqs : Bool
  nTokens : Nat
  /-- Tokens of each set. -/
  nSeqTokens : Nat
  /-- Number of sets. -/
  nSeqs : Nat
  /-- Positions of a token. -/
  nPos : Nat
  /-- Token ids. -/
  token : Option (List Int)
  embd : Option (List E)
  /-- Positions, all first ones before all second ones. -/
  pos : List Int
  /-- Sequences of the tokens. -/
  seqId : List (List Int)
  /-- Sequences that occur. -/
  seqIdUnq : List Nat
  /-- Output flags. -/
  output : List Int

/-- Position `j` of token `i`: text repeats its only position. -/
def Allocr.posAt (b : Allocr E) (i j : Nat) : Int :=
  b.pos ((if b.token.isSome then 0 else j * b.nTokens) + i)

/-- Some output is wanted of the token. -/
def Allocr.isOutput (b : Allocr E) (i : Nat) : Bool := decide (b.logits i ≠ 0)

/-- The ubatch that `ubatch_add` returns. -/
def Allocr.ubatch (b : Allocr E) (c : Cut) : UBatch E :=
  { equalSeqs := c.equalSeqs
    nTokens := c.idxs.length
    nSeqTokens := c.idxs.length / c.nSeqs
    nSeqs := c.nSeqs
    nPos := b.nPosPerEmbd
    token := b.token.map fun t => c.idxs.map t
    embd := b.embd.map fun e => c.idxs.map e
    pos := (List.range b.nPosPerEmbd).flatMap fun j => c.idxs.map fun i => b.posAt i j
    seqId := c.idxs.map b.seqs
    seqIdUnq := (List.range b.nSeqMax).filter fun s => c.idxs.any fun i => decide (s ∈ b.seqSet i)
    output := c.idxs.map b.logits }

/-- What `ubatch_add` keeps: the indices of the outputs. -/
def Allocr.addOutputs (b : Allocr E) (p : Progress) (idxs : List Nat) : Progress :=
  { p with outIds := p.outIds ++ idxs.filter b.isOutput }

/-- The first unused token, or the number of tokens. -/
def Allocr.firstUnused (b : Allocr E) (p : Progress) : Nat :=
  ((List.range b.nTokens).find? fun i => !p.used i).getD b.nTokens

/-- The loop of `split_simple` from token `cur` on. -/
def Allocr.simpleLoop (b : Allocr E) (nUbatch : Nat) :
    Nat → Nat → List Nat → Progress → List Nat × Progress
  | 0, _, idxs, p => (idxs, p)
  | fuel + 1, cur, idxs, p =>
    let idxs := idxs ++ [cur]
    let p := p.use cur
    if b.nTokens ≤ cur + 1 then (idxs, p)
    else if nUbatch ≤ idxs.length then (idxs, p)
    else b.simpleLoop nUbatch fuel (cur + 1) idxs p

def Allocr.splitSimple (b : Allocr E) (nUbatch : Nat) (p : Progress) : Option (Cut × Progress) :=
  let cur := b.firstUnused p
  if b.nTokens ≤ cur then none
  else
    let (idxs, p) := b.simpleLoop nUbatch b.nTokens cur [] p
    some ({ idxs := idxs, nSeqs := idxs.length, equalSeqs := false }, b.addOutputs p idxs)

/-- The next token that is unused and whose set is inside `cur`, among the given ones. -/
def Allocr.nextInside (b : Allocr E) (p : Progress) (cur : Finset Nat) (l : List Nat) :
    Option Nat :=
  l.find? fun i => !p.used i && decide (cur ∩ b.seqSet i = b.seqSet i)

/-- The loop of `split_seq` from token `cur` on. -/
def Allocr.seqLoop (b : Allocr E) (nUbatch : Nat) :
    Nat → Nat → List Nat → Progress → List Nat × Progress
  | 0, _, idxs, p => (idxs, p)
  | fuel + 1, cur, idxs, p =>
    let idxs := idxs ++ [cur]
    let p := p.use cur
    if nUbatch ≤ idxs.length then (idxs, p)
    else
      match b.nextInside p (b.seqSet cur) (List.range' (cur + 1) (b.nTokens - (cur + 1))) with
      | none => (idxs, p)
      | some next => b.seqLoop nUbatch fuel next idxs p

def Allocr.splitSeq (b : Allocr E) (nUbatch : Nat) (p : Progress) : Option (Cut × Progress) :=
  let cur := b.firstUnused p
  if b.nTokens ≤ cur then none
  else
    let (idxs, p) := b.seqLoop nUbatch b.nTokens cur [] p
    some ({ idxs := idxs, nSeqs := 1, equalSeqs := true }, b.addOutputs p idxs)

/-- The set of token `i` joins the chosen ones: no overlap, and in a sequential split only
increasing sequence ids. -/
def Allocr.joins (b : Allocr E) (sequential : Bool) (cur : List (Finset Nat)) (last : Int)
    (i : Nat) : Bool :=
  (cur.all fun set => decide (set ∩ b.seqSet i = ∅)) &&
    (!sequential || (cur.isEmpty || decide (b.seqId i 0 = last + 1)))

/-- The loop that determines the non-overlapping sets of this ubatch. -/
def Allocr.chooseSets (b : Allocr E) (p : Progress) (nUbatch : Nat) (sequential : Bool) :
    List Nat → List (Finset Nat) → Int → List (Finset Nat)
  | [], cur, _ => cur
  | i :: is, cur, last =>
    if p.used i then b.chooseSets p nUbatch sequential is cur last
    else if b.joins sequential cur last i then
      if nUbatch < (cur ++ [b.seqSet i]).length then cur ++ [b.seqSet i]
      else b.chooseSets p nUbatch sequential is (cur ++ [b.seqSet i]) (b.seqId i 0)
    else b.chooseSets p nUbatch sequential is cur last

/-- A sequence set with its current index and the tokens taken from it. -/
structure Lane where
  /-- `cur_seq_set[s]`. -/
  set : Finset Nat
  /-- `cur_idx[s]`. -/
  cur : Nat
  /-- `idxs_per_seq[s]`. -/
  idxs : List Nat

/-- The first unused index of a set. -/
def Allocr.lane (b : Allocr E) (p : Progress) (set : Finset Nat) : Lane :=
  { set := set, cur := (b.seqSetMap set).findIdx fun i => !p.used i, idxs := [] }

/-- The token at the current index. -/
def Allocr.laneToken (b : Allocr E) (l : Lane) : Nat := (b.seqSetMap l.set).getD l.cur 0

/-- The set has one more token. -/
def Allocr.laneOpen (b : Allocr E) (l : Lane) : Bool := decide (l.cur < (b.seqSetMap l.set).length)

/-- Take a token of the set. -/
def Allocr.laneStep (b : Allocr E) (l : Lane) : Lane :=
  { l with cur := l.cur + 1, idxs := l.idxs ++ [b.laneToken l] }

/-- The loop that takes one token of every set per turn. -/
def Allocr.expandLoop (b : Allocr E) (nUbatch : Nat) :
    Nat → List Lane → Progress → List Lane × Progress
  | 0, lanes, p => (lanes, p)
  | fuel + 1, lanes, p =>
    if lanes.all b.laneOpen then
      let p := lanes.foldl (fun p l => p.use (b.laneToken l)) p
      let lanes := lanes.map b.laneStep
      if nUbatch < ((lanes.head?.map fun l => l.idxs.length).getD 0 + 1) * lanes.length then
        (lanes, p)
      else b.expandLoop nUbatch fuel lanes p
    else (lanes, p)

def Allocr.splitEqual (b : Allocr E) (nUbatch : Nat) (sequential : Bool) (p : Progress) :
    Option (Cut × Progress) :=
  if sequential && b.hasCpl then none
  else
    let sets := b.chooseSets p nUbatch sequential (List.range b.nTokens) [] (-1)
    if sets = [] then none
    else
      let (lanes, p) := b.expandLoop nUbatch (b.nTokens + 1) (sets.map (b.lane p)) p
      let idxs := lanes.flatMap Lane.idxs
      some ({ idxs := idxs, nSeqs := sets.length, equalSeqs := true }, b.addOutputs p idxs)

/-- The ways to split. -/
inductive Mode where
  | simple
  | equal (sequential : Bool)
  | seq
  deriving DecidableEq, Repr

/-- One call. -/
def Allocr.split (b : Allocr E) (mode : Mode) (nUbatch : Nat) (p : Progress) :
    Option (Cut × Progress) :=
  match mode with
  | .simple => b.splitSimple nUbatch p
  | .equal sequential => b.splitEqual nUbatch sequential p
  | .seq => b.splitSeq nUbatch p

/-- Calls until the ubatch is empty; `none` if that takes more than the given number of calls. -/
def Allocr.splitAll (b : Allocr E) (mode : Mode) (nUbatch : Nat) :
    Nat → Progress → Option (List Cut × Progress)
  | 0, _ => none
  | calls + 1, p =>
    match b.split mode nUbatch p with
    | none => some ([], p)
    | some (c, p) => do
      let (cs, p) ← b.splitAll mode nUbatch calls p
      some (c :: cs, p)

end Llama.Batch
