import Mathlib.Data.Finset.Basic

/-!
# Batches

`llama_batch_allocr::init`: the checks of an input batch and the fields it fills in. Arrays are
functions of the index, a null pointer is `none`, what is computed from positions is kept in an
`int32_t`, and the type of an embedding is a parameter.
-/

namespace Llama.Batch

variable {E : Type}

/-- `LLAMA_MAX_SEQ`. -/
def maxSeq : Nat := 256

/-- `llama_batch`, as a caller gives it. -/
structure Input (E : Type) where
  nTokens : Nat
  /-- Token ids. -/
  token : Option (Nat → Int)
  embd : Option (Nat → E)
  pos : Option (Nat → Int)
  /-- Numbers of sequences of the tokens. -/
  nSeqId : Option (Nat → Nat)
  /-- Sequences of the tokens. -/
  seqId : Option (Nat → Nat → Int)
  /-- Output flags. -/
  logits : Option (Nat → Int)

/-- The positions that a memory module reports. -/
structure Memory where
  /-- `seq_pos_min`. -/
  posMin : Nat → Int
  /-- `seq_pos_max`. -/
  posMax : Nat → Int

/-- The other arguments of `init`. -/
structure Args where
  /-- `vocab.n_tokens()`. -/
  vocab : Nat
  /-- The memory module. -/
  memory : Option Memory
  nSeqMax : Nat
  nPosPerEmbd : Nat
  outputAll : Bool

/-- A batch with all fields, and what the allocator keeps beside it. -/
structure Allocr (E : Type) where
  nTokens : Nat
  /-- Token ids. -/
  token : Option (Nat → Int)
  embd : Option (Nat → E)
  pos : Nat → Int
  /-- Numbers of sequences of the tokens. -/
  nSeqId : Nat → Nat
  /-- Sequences of the tokens. -/
  seqId : Nat → Nat → Int
  /-- Output flags. -/
  logits : Nat → Int
  nSeqMax : Nat
  nPosPerEmbd : Nat

/-- The sequences of a token, as listed. -/
def Allocr.seqs (b : Allocr E) (i : Nat) : List Int := (List.range (b.nSeqId i)).map (b.seqId i)

def Allocr.seqSet (b : Allocr E) (i : Nat) : Finset Nat := ((b.seqs i).map Int.toNat).toFinset

/-- `seq_set_map[set]`: the tokens with this set, in order. -/
def Allocr.seqSetMap (b : Allocr E) (set : Finset Nat) : List Nat :=
  (List.range b.nTokens).filter fun i => b.seqSet i = set

/-- `has_cpl`: some token has a second sequence. -/
def Allocr.hasCpl (b : Allocr E) : Bool :=
  (List.range b.nTokens).any fun i => decide (1 < b.nSeqId i)

/-- `seq_cpl[s1][s0]`. -/
def Allocr.coupled (b : Allocr E) (s1 s0 : Nat) : Bool :=
  (List.range b.nTokens).any fun i => decide (b.seqId i 0 = s0) &&
    ((b.seqs i).drop 1).any fun s => decide (s = s1)

/-- `seq_pos[s]`: distinct positions of a sequence. -/
def Allocr.seqPos (b : Allocr E) (s : Nat) : List Int :=
  (((List.range b.nTokens).filter fun i => s ∈ b.seqSet i).map b.pos).dedup

def Allocr.seqPosMin (b : Allocr E) (s : Nat) : Int := (b.seqPos s).min?.getD (-1)

def Allocr.seqPosMax (b : Allocr E) (s : Nat) : Int := (b.seqPos s).max?.getD (-1)

/-- A sum of positions, as an `int32_t` holds it. -/
def wrapPos (p : Int) : Int := p.bmod UInt32.size

/-- The loop that generates missing positions, from the next position of each sequence. -/
def genPos (nTokens : Nat) (seqId : Nat → Nat → Int) (nSeqId : Nat → Nat) (start : Int → Int) :
    List Int :=
  ((List.range nTokens).foldl (fun (st : (Int → Int) × List Int) i =>
    let p := st.1 (seqId i 0)
    (fun s => if s ∈ (List.range (nSeqId i)).map (seqId i) then wrapPos (p + 1) else st.1 s,
      st.2 ++ [p]))
    (start, [])).2

/-- Output flags: missing ones are generated, and with `output_all` a zero overrides all. -/
def genOutput (nTokens : Nat) (logits : Option (Nat → Int)) (outputAll : Bool) : Nat → Int :=
  match logits with
  | none => if outputAll then fun _ => 1 else fun i => if i + 1 = nTokens then 1 else 0
  | some l =>
    if outputAll && (List.range nTokens).any fun i => decide (l i = 0) then fun _ => 1 else l

/-- The batch after the missing fields are generated. The default list of sequences has the
single entry 0. -/
def fill (a : Args) (inp : Input E) : Allocr E :=
  let nSeqId := inp.nSeqId.getD fun _ => 1
  let seqId := inp.seqId.getD fun _ _ => 0
  let start : Int → Int := match a.memory with
    | none => fun _ => 0
    | some m => fun s => wrapPos (m.posMax s.toNat + 1)
  { nTokens := inp.nTokens, token := inp.token, embd := inp.embd
    pos := inp.pos.getD fun i => (genPos inp.nTokens seqId nSeqId start).getD i 0
    nSeqId := nSeqId, seqId := seqId, logits := genOutput inp.nTokens inp.logits a.outputAll
    nSeqMax := a.nSeqMax, nPosPerEmbd := a.nPosPerEmbd }

/-- The checks of token ids and sequence ids. -/
def Input.valid (a : Args) (inp : Input E) : Bool :=
  decide (a.nSeqMax ≤ maxSeq) &&
  (match inp.token with
    | none => true
    | some t => (List.range inp.nTokens).all fun i => decide (0 ≤ t i ∧ t i < a.vocab)) &&
  (match inp.seqId with
    | none => true
    | some q => (List.range inp.nTokens).all fun i =>
      (List.range ((inp.nSeqId.getD fun _ => 1) i)).all fun s =>
        decide (0 ≤ q i s ∧ q i s < a.nSeqMax))

/-- The positions of a sequence fit to the memory and to each other. -/
def Allocr.consistent (b : Allocr E) (memory : Option Memory) (s : Nat) : Bool :=
  if b.seqPos s = [] then true
  else
    let p0 := match memory with
      | none => -1
      | some m => m.posMax s
    if 1 < b.nPosPerEmbd then
      if b.token.isSome then !decide (0 ≤ p0 ∧ b.seqPosMin s ≤ p0)
      else !decide (0 ≤ p0 ∧ b.seqPosMin s < p0)
    else
      (decide (p0 < 0) || decide (b.seqPosMin s = wrapPos (p0 + 1))) &&
        decide (wrapPos (b.seqPosMax s - b.seqPosMin s + 1) ≤ (b.seqPos s).length)

/-- Coupled sequences have the same positions in the memory. -/
def Allocr.coupledAgree (b : Allocr E) (memory : Option Memory) : Bool :=
  match memory with
  | none => true
  | some m => (List.range b.nSeqMax).all fun s0 => (List.range b.nSeqMax).all fun s1 =>
      !b.coupled s0 s1 || decide (m.posMin s0 = m.posMin s1 ∧ m.posMax s0 = m.posMax s1)

/-- The check against partial sub-sets and decreasing positions for one sequence of token `i`.
The current position of a sequence stays -1: it is never updated. -/
def Allocr.checkSet (b : Allocr E) (i : Nat) (cur : Nat → Finset Nat) (s : Int) :
    Option (Nat → Finset Nat) :=
  let set := cur s.toNat ∩ b.seqSet i
  if set = ∅ then none
  else if b.pos i < -1 then none
  else some fun t => if t = s.toNat then set else cur t

/-- The loop of these checks. -/
def Allocr.checkSets (b : Allocr E) : Option (Nat → Finset Nat) :=
  (List.range b.nTokens).foldlM (fun cur i => (b.seqs i).foldlM (b.checkSet i) cur)
    fun s => if s < b.nSeqMax then Finset.range maxSeq else ∅

/-- `llama_batch_allocr::init`; `none` is a rejected batch, or no token at all. -/
def init (a : Args) (inp : Input E) : Option (Allocr E) :=
  let b := fill a inp
  if 0 < inp.nTokens ∧ inp.valid a = true ∧
      (List.range a.nSeqMax).all (b.consistent a.memory) = true ∧
      b.coupledAgree a.memory = true ∧ b.checkSets.isSome = true then
    some b
  else none

end Llama.Batch
