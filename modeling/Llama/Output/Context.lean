import Llama.Batch.Partition
import Llama.Lib.Swaps

/-!
# The outputs of a context

The part of `llama_context::decode` that hands out logits and embeddings, and the functions that a
caller reads them with, for a context without pooling. The rows of each ubatch are copied behind
those of the ubatches before it; the exchanges that bring them into the order of the batch are only
recorded, and made when an output is read. Backend samplers have output buffers of their own, which
these functions do not read. -/

namespace Llama.Output

open Batch Swaps

variable {E α : Type}

/-- Sizes and settings of the context. -/
structure Params where
  /-- `vocab.n_tokens()`. -/
  nVocab : Nat
  /-- `hparams.n_embd`. -/
  nEmbd : Nat
  /-- `hparams.n_embd_out_impl`. -/
  nEmbdOutImpl : Nat
  /-- `cparams.n_batch`. -/
  nBatch : Nat
  nSeqMax : Nat
  /-- `cparams.embeddings`. -/
  embeddings : Bool
  /-- The architecture is T5. -/
  t5 : Bool
  /-- `sampling.samplers`: the sequences with a backend sampler. -/
  samplers : List Int

def Params.nEmbdOut (P : Params) : Nat := if 0 < P.nEmbdOutImpl then P.nEmbdOutImpl else P.nEmbd

/-- `buffer_view`; no data is a null pointer. -/
structure View (α : Type) where
  data : Option (Nat → α)
  /-- Number of elements. -/
  size : Nat

/-- What `llama_context` keeps for the outputs. -/
structure Context (α : Type) where
  logits : View α
  embd : View α
  /-- `output_ids`, an array of size `n_batch`. -/
  outputIds : Nat → Int
  nOutputs : Nat
  outputSwaps : List (Nat × Nat)

/-- Tokens of the batch that are flagged for output, in order. -/
def flagged (b : Allocr E) : List Nat := (List.range b.nTokens).filter b.isOutput

def nOutputsAll (b : Allocr E) : Nat := (flagged b).length

/-- `has_embd` of `output_reserve`: there is a buffer for embeddings. -/
def Params.hasEmbd (P : Params) : Bool := P.embeddings || P.t5

/-- `output_reserve`, with whatever the output buffer contains. -/
def outputReserve (P : Params) (n : Nat) (memLogits memEmbd : Nat → α) : Context α :=
  let nMax := max n P.nSeqMax
  { logits := { data := some memLogits, size := P.nVocab * nMax }
    embd :=
      if P.hasEmbd then { data := some memEmbd, size := P.nEmbdOut * nMax }
      else { data := none, size := 0 }
    outputIds := fun _ => -1
    nOutputs := 0
    outputSwaps := [] }

/-- The tensors that the graph of a ubatch computes: the row of each of its tokens. -/
structure Result (α : Type) where
  /-- Logits of the tokens. -/
  logits : Nat → Nat → α
  /-- Embeddings of the tokens. -/
  embd : Nat → Nat → α

/-- Places of the flagged tokens in a ubatch. -/
def flaggedAt (b : Allocr E) (c : Cut) : List Nat :=
  (List.range c.idxs.length).filter fun r => b.isOutput (c.idxs.getD r 0)

/-- The number of outputs of a ubatch. -/
def newOutputs (b : Allocr E) (c : Cut) : Nat :=
  if nOutputsAll b = b.nTokens then c.idxs.length else (flaggedAt b c).length

/-- The input `out_ids` of the graph: which rows it returns. -/
def outIdsInput (b : Allocr E) (c : Cut) : List Nat :=
  if newOutputs b c = c.idxs.length then List.range c.idxs.length else flaggedAt b c

/-- `needs_raw_logits`: some output token has a sequence without a backend sampler. -/
def needsRawLogits (samplers : List Int) (b : Allocr E) (c : Cut) : Bool :=
  c.idxs.any fun i => b.isOutput i && (b.seqs i).any fun s => decide (s ∉ samplers)

/-- `ggml_backend_tensor_get_async`: copy `len` elements to the address `off`. -/
def copyTo (off len : Nat) (src d : Nat → α) : Nat → α := fun a =>
  if off ≤ a ∧ a < off + len then src (a - off) else d a

/-- A tensor of rows of width `w` in memory. -/
def flat (w : Nat) (rows : Nat → Nat → α) : Nat → α := fun a => rows (a / w) (a % w)

/-- Extract the rows of one ubatch behind `prev` rows; an assertion that fails gives `none`. -/
def extract (w : Nat) (b : Allocr E) (c : Cut) (rows : Nat → Nat → α) (prev : Nat) (v : View α) :
    Option (View α) :=
  match v.data with
  | none => some v
  | some d =>
    let n := newOutputs b c
    if n = 0 then some v
    else if prev + n ≤ nOutputsAll b ∧ (prev + n) * w ≤ v.size then
      some { v with
        data := some (copyTo (prev * w) (n * w)
          (flat w fun j => rows ((outIdsInput b c).getD j 0)) d) }
    else none

/-- Extract the logits of a ubatch. -/
def extractLogits (P : Params) (b : Allocr E) (c : Cut) (r : Result α) (prev : Nat) (v : View α) :
    Option (View α) :=
  if needsRawLogits P.samplers b c then extract P.nVocab b c r.logits prev v else some v

/-- Extract the embeddings of a ubatch, if any are to be computed. -/
def extractEmbd (P : Params) (b : Allocr E) (c : Cut) (r : Result α) (prev : Nat) (v : View α) :
    Option (View α) :=
  if P.embeddings then extract P.nEmbdOut b c r.embd prev v else some v

/-- The loop over the ubatches, from ubatch `k` on. -/
def decodeLoop (P : Params) (b : Allocr E) (res : Nat → Result α) :
    List Cut → Nat → Nat → Context α → Option (Context α)
  | [], _, _, ctx => some ctx
  | c :: cs, k, prev, ctx => do
    let logits ← extractLogits P b c (res k) prev ctx.logits
    let embd ← extractEmbd P b c (res k) prev ctx.embd
    decodeLoop P b res cs (k + 1) (prev + newOutputs b c)
      { ctx with logits := logits, embd := embd }

/-- `output_ids[ids[i]] = i` for the first `n` outputs. -/
def assignIds (ids : Nat → Nat) (n : Nat) (outputIds : Nat → Int) : Nat → Int :=
  (List.range n).foldl (fun o i => Function.update o (ids i) (i : Int)) outputIds

/-- The output mappings that `decode` sets at its end. -/
def setMappings (ids : Nat → Nat) (n : Nat) (ctx : Context α) : Context α :=
  let outputIds := assignIds ids n ctx.outputIds
  if (List.range n).all (fun i => decide (ids i = i)) || decide (n ≤ 1) then
    { ctx with nOutputs := n, outputIds := outputIds }
  else
    -- make the outputs have the same order they had in the user-provided batch
    let (ids, swaps) := selectionSort ids n
    { ctx with
      nOutputs := n
      outputIds := assignIds ids n fun _ => -1
      outputSwaps := ctx.outputSwaps ++ swaps }

/-- `seq_output_count`: the sequences of the tokens that a caller flags, with repetitions. -/
def outputSeqs (inp : Input E) (logits : Nat → Int) : List Int :=
  ((List.range inp.nTokens).filter fun i => decide (logits i ≠ 0)).flatMap fun i =>
    (List.range ((inp.nSeqId.getD fun _ => 1) i)).map ((inp.seqId.getD fun _ _ => 0) i)

/-- Backend sampling requires at most one output token per sequence. -/
def samplersAllow (P : Params) (inp : Input E) : Bool :=
  match inp.logits with
  | none => true
  | some l => decide (P.samplers = []) || decide (outputSeqs inp l).Nodup

/-- `llama_context::decode` of a batch that `init` turns into `b`, whose ubatches `res` are
computed: the batch is split, and the memory refuses a split that does not use all tokens. -/
def decode (P : Params) (inp : Input E) (b : Allocr E) (mode : Mode) (nUbatch : Nat)
    (res : Nat → Result α) (memLogits memEmbd : Nat → α) : Option (Context α) := do
  guard (samplersAllow P inp)
  let (cuts, p) ← b.splitAll mode nUbatch (b.nTokens + 1) Progress.reset
  let n := nOutputsAll b
  -- when computing embeddings, all tokens are output
  if P.embeddings ∧ n ≠ b.nTokens then none
  else if p.nUsed < b.nTokens ∨ P.nBatch < b.nTokens then none
  else
    let ctx ← decodeLoop P b res cuts 0 0 (outputReserve P n memLogits memEmbd)
    if n = 0 then some { ctx with nOutputs := 0 }
    else if p.outIds.length ≠ n then none
    else some (setMappings (fun i => p.outIds.getD i 0) n ctx)

def outputReorder (P : Params) (ctx : Context α) : Context α :=
  { ctx with
    logits :=
      if 0 < ctx.logits.size then
        { ctx.logits with data := ctx.logits.data.map (swapAllRows P.nVocab ctx.outputSwaps) }
      else ctx.logits
    embd :=
      if 0 < ctx.embd.size then
        { ctx.embd with data := ctx.embd.data.map (swapAllRows P.nEmbd ctx.outputSwaps) }
      else ctx.embd
    outputSwaps := [] }

def outputResolveRow (P : Params) (ctx : Context α) (i : Int) : Except String Nat :=
  let check (j : Int) : Except String Nat :=
    if j < 0 then .error s!"batch.logits[{i}] != true"
    else if (ctx.nOutputs : Int) ≤ j then
      .error s!"corrupt output buffer (j={j}, n_outputs={ctx.nOutputs})"
    else .ok j.toNat
  if i < 0 then
    if ctx.nOutputs + i < 0 then
      .error s!"negative index out of range [0, {ctx.nOutputs})"
    else check (ctx.nOutputs + i)
  else if (P.nBatch : Int) ≤ i then .error s!"out of range [0, {P.nBatch})"
  else check (ctx.outputIds i.toNat)

/-- A row of width `w`. -/
def rowAt (w : Nat) (d : Nat → α) (j : Nat) : List α := (List.range w).map fun x => d (j * w + x)

/-- `get_logits_ith`, or `get_embeddings_ith`: the row behind the pointer, `none` for null. -/
def getIth (P : Params) (ctx : Context α) (w : Nat) (v : View α) (i : Int) : Option (List α) :=
  match v.data with
  | none => none
  | some d =>
    match outputResolveRow P ctx i with
    | .error _ => none
    | .ok j => some (rowAt w d j)

/-- The functions that read outputs. -/
inductive Call where
  | getLogits
  | getEmbeddings
  | getLogitsIth (i : Int)
  | getEmbeddingsIth (i : Int)

/-- The context after a call: every one of them reorders first. -/
def Call.after (P : Params) (_ : Call) (ctx : Context α) : Context α := outputReorder P ctx

/-- The context after several calls. -/
def afterCalls (P : Params) (calls : List Call) (ctx : Context α) : Context α :=
  calls.foldl (fun ctx call => call.after P ctx) ctx

def getLogits (P : Params) (ctx : Context α) : Option (Nat → α) := (outputReorder P ctx).logits.data

def getEmbeddings (P : Params) (ctx : Context α) :
    Option (Nat → α) :=
  (outputReorder P ctx).embd.data

def getLogitsIth (P : Params) (ctx : Context α) (i : Int) : Option (List α) :=
  let ctx := outputReorder P ctx
  getIth P ctx P.nVocab ctx.logits i

def getEmbeddingsIth (P : Params) (ctx : Context α) (i : Int) : Option (List α) :=
  let ctx := outputReorder P ctx
  getIth P ctx P.nEmbdOut ctx.embd i

end Llama.Output
