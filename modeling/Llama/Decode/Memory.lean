import Llama.Kv.Content
import Llama.Recurrent.Memory

/-!
# Decoding a batch into the memory

The part of `llama_context::decode` that changes the memory module, for `llama_kv_cache` and for
`llama_memory_hybrid`, which joins such a cache with a recurrent memory. The batch is checked and
split, slots are found in a dry run, and the ubatches are applied one after the other. When the
computation of one fails, `decode` removes the ubatch from the memory again.
-/

namespace Llama.Decode

variable {E : Type}

/-- A sequence id as an index of the bitset of a cell. -/
def seqIdOf (id : Int) : Kv.SeqId := Fin.ofNat Kv.maxSeq id.toNat

/-- What the attention cache reads of an ubatch. -/
def kvUbatch (u : Batch.UBatch E) : Kv.Ubatch :=
  { nTokens := u.nTokens
    nPos := u.nPos
    pos := fun i => u.pos.getD i 0
    seqId := fun i => (u.seqId.getD i []).map seqIdOf
    seqIdUnq := u.seqIdUnq.map fun (s : Nat) => seqIdOf s }

/-- The memory module of a context: `llama_kv_cache`, or `llama_memory_hybrid` when there is a
recurrent part. -/
structure Memory where
  /-- The attention cache. -/
  attn : Kv.Cache
  recr : Option Recurrent.Memory

namespace Memory

def clear (m : Memory) : Memory :=
  { attn := m.attn.clear, recr := m.recr.map Recurrent.Memory.clear }

/-- `seq_rm`. A hybrid memory tries the recurrent part first, since that may refuse. -/
def seqRm (m : Memory) (id p0 p1 : Int) : Bool × Memory :=
  let attn := m.attn.seqRm (if id < 0 then none else some (seqIdOf id)) p0 p1
  match m.recr with
  | none => (true, { m with attn := attn })
  | some r =>
    match r.seqRm id p0 p1 with
    | (false, r) => (false, { m with recr := some r })
    | (true, r) => (true, { attn := attn, recr := some r })

def seqCp (m : Memory) (src dst p0 p1 : Int) : Memory :=
  { attn := m.attn.seqCp (seqIdOf src) (seqIdOf dst) p0 p1, recr := m.recr.map (·.seqCp src dst) }

def seqKeep (m : Memory) (id : Int) : Memory :=
  { attn := m.attn.seqKeep (seqIdOf id), recr := m.recr.map (·.seqKeep id) }

def seqAdd (m : Memory) (id p0 p1 shift : Int) : Memory :=
  { attn := m.attn.seqAdd (seqIdOf id) p0 p1 shift, recr := m.recr.map (·.seqAdd id p0 p1 shift) }

def seqDiv (m : Memory) (id p0 p1 d : Int) : Memory :=
  { attn := m.attn.seqDiv (seqIdOf id) p0 p1 d, recr := m.recr.map (·.seqDiv id p0 p1 d) }

end Memory

/-- The positions of a sequence in the recurrent memory. -/
def recrPositions (r : Recurrent.Memory) (s : Nat) : List Int :=
  ((List.range r.size).filter fun c => (r.cells c).hasSeqId s).map fun c => (r.cells c).pos

/-- `llama_memory_recurrent::seq_pos_min`. -/
def recrPosMin (r : Recurrent.Memory) (s : Nat) : Int :=
  let p := (recrPositions r s).foldl min Recurrent.maxPos
  if p = Recurrent.maxPos then -1 else p

/-- `llama_memory_recurrent::seq_pos_max`. -/
def recrPosMax (r : Recurrent.Memory) (s : Nat) : Int := (recrPositions r s).foldl max (-1)

/-- `seq_pos_min` and `seq_pos_max`, as the batch allocator reads them. -/
def Memory.positions (m : Memory) : Batch.Memory :=
  { posMin := fun s => match m.recr with
      | none => m.attn.seqPosMin (seqIdOf s)
      | some r => max (m.attn.seqPosMin (seqIdOf s)) (recrPosMin r s)
    posMax := fun s => match m.recr with
      | none => m.attn.seqPosMax (seqIdOf s)
      | some r => min (m.attn.seqPosMax (seqIdOf s)) (recrPosMax r s) }

/-- Some shift or copy is pending. -/
def Memory.hasUpdate (m : Memory) : Bool :=
  ((List.range m.attn.cfg.nStream).any fun t => (m.attn.cells t).hasShift) || !m.attn.scInfo.isEmpty

/-- The memory after `memory_update`; the flag tells whether the shift was computed. -/
def Memory.update (m : Memory) (shifted : Bool) : Memory :=
  if m.hasUpdate then
    let attn := { m.attn with scInfo := [] }
    { m with attn := if shifted then attn.resetShift else attn }
  else m

/-- How the memory module splits a batch. -/
def Memory.mode (m : Memory) (embdAll : Bool) : Batch.Mode :=
  match m.recr with
  | none => if m.attn.cfg.nStream = 1 then .simple else .equal true
  | some _ => if embdAll then .seq else .equal true

/-- `find_slot` meets a failing `GGML_ASSERT` in its loop over the streams: the first token of a
block does not belong to exactly the sequence of the block. -/
def blockAborts (c : Kv.Cache) (u : Kv.Ubatch) (n : Nat) : List Kv.SeqId → Nat → Bool
  | [], _ => false
  | q :: qs, s =>
    if u.seqId (s * n) = [q] then
      match c.streamSlot false n q with
      | none => false
      | some _ => blockAborts c u n qs (s + 1)
    else true

/-- `find_slot` aborts. -/
def slotAborts (c : Kv.Cache) (u : Kv.Ubatch) : Bool :=
  decide (1 < c.cfg.nStream) && (decide (u.nTokens % u.seqIdUnq.length ≠ 0) ||
    blockAborts c u (u.nTokens / u.seqIdUnq.length) u.seqIdUnq 0)

/-- The dry run of the attention cache aborts. -/
def prepareAborts (c : Kv.Cache) : List Kv.Ubatch → Bool
  | [] => false
  | u :: us => slotAborts c u ||
    match c.findSlot u false with
    | (none, _) => false
    | (some si, ok) => prepareAborts ((c.assert ok).applyUbatch si u) us

/-- The loop of `llama_memory_recurrent::prepare`; `none` if an assertion fails. -/
def findSlots (r : Recurrent.Memory) : List (Batch.UBatch E) → Option (Bool × Recurrent.Memory)
  | [] => some (true, r)
  | u :: us =>
    match r.findSlot u with
    | none => none
    | some (false, r) => some (false, r)
    | some (true, r) => findSlots r us

/-- `llama_memory_recurrent::prepare`: cells, head and number of used cells are restored. -/
def prepareRecr (r : Recurrent.Memory) (us : List (Batch.UBatch E)) :
    Option (Bool × Recurrent.Memory) :=
  (findSlots r us).map fun x => (x.1, { x.2 with cells := r.cells, used := r.used, head := r.head })

/-- The dry run of the attention cache. The slots are `none` if one was not found. -/
def Memory.prepareAttn (m : Memory) (us : List (Batch.UBatch E)) :
    Option (Option (List Kv.SlotInfo) × Memory) :=
  if prepareAborts m.attn (us.map kvUbatch) then none
  else
    match m.attn.prepare (us.map kvUbatch) with
    | (attn, []) => some (none, { m with attn := attn })
    | (attn, sinfos) => some (some sinfos, { m with attn := attn })

/-- `init_batch` after the split. -/
def Memory.prepare (m : Memory) (us : List (Batch.UBatch E)) :
    Option (Option (List Kv.SlotInfo) × Memory) :=
  match m.recr with
  | none => m.prepareAttn us
  | some r =>
    match prepareRecr r us with
    | none => none
    | some (false, r) => some (none, { m with recr := some r })
    | some (true, r) => Memory.prepareAttn { m with recr := some r } us

/-- `init_batch`: the slots with their ubatches, or `none` if the batch does not fit. -/
def Memory.initBatch (m : Memory) (b : Batch.Allocr E) (nUbatch : Nat) (embdAll : Bool) :
    Option (Option (List (Kv.SlotInfo × Batch.UBatch E)) × Memory) :=
  match b.splitAll (m.mode embdAll) nUbatch (b.nTokens + 1) Batch.Progress.reset with
  | none => none
  | some (cuts, p) =>
    if p.nUsed < b.nTokens then some (none, m)
    else (m.prepare (cuts.map b.ubatch)).map fun r =>
      (r.1.map fun sinfos => sinfos.zip (cuts.map b.ubatch), r.2)

/-- `apply`: the ubatch goes to its slot, and to the recurrent memory. -/
def Memory.applyUbatch (m : Memory) (si : Kv.SlotInfo) (u : Batch.UBatch E) : Option Memory :=
  let attn := m.attn.applyUbatch si (kvUbatch u)
  match m.recr with
  | none => some { m with attn := attn }
  | some r => (r.findSlot u).map fun x => { attn := attn, recr := some x.2 }

/-- `ubatch.seq_id[i][0]`. -/
def firstSeq (u : Batch.UBatch E) (i : Nat) : Nat := ((u.seqId.getD i []).headD 0).toNat

/-- `pos_min[s]`: the least position among the tokens whose first sequence is `s`. -/
def posMins (u : Batch.UBatch E) : Nat → Int :=
  (List.range u.nTokens).foldl (fun t i =>
    Function.update t (firstSeq u i) (min (t (firstSeq u i)) (u.pos.getD i 0))) fun _ => Kv.posMax

/-- The positions of a failed ubatch are removed. -/
def Memory.rollback (m : Memory) (u : Batch.UBatch E) : Memory :=
  (List.range Kv.maxSeq).foldl (fun m s =>
    if posMins u s = Kv.posMax then m else (m.seqRm s (posMins u s) (-1)).2) m

/-- `ggml_status`. -/
inductive Status where
  | success
  | aborted
  | allocFailed
  | failed
  deriving DecidableEq, Repr

/-- The parameters of the context that `decode` reads here. -/
structure Params where
  /-- `cparams.kv_unified`. -/
  unified : Bool
  /-- `cparams.n_ubatch`. -/
  nUbatch : Nat
  /-- `cparams.embeddings`: all tokens are output. -/
  embeddings : Bool
  /-- `vocab.n_tokens()`. -/
  vocab : Nat

/-- What happens outside of the memory module. -/
structure Env where
  /-- The K-shift of an update is computed. -/
  shifted : Nat → Bool
  /-- The output buffer can be reserved. -/
  reserved : Bool
  /-- The status of `process_ubatch`. -/
  compute : Nat → Status

/-- How `decode` returns. -/
inductive Outcome where
  /-- Before any ubatch was applied, with this code. -/
  | refused (code : Int) (m : Memory)
  /-- The computation of ubatch `k` failed. -/
  | failed (k : Nat) (status : Status) (m : Memory)
  /-- All ubatches were computed. -/
  | finished (m : Memory)

/-- The memory that a call leaves. -/
def Outcome.memory : Outcome → Memory
  | refused _ m => m
  | failed _ _ m => m
  | finished m => m

/-- The arguments of `balloc->init`. -/
def Params.args (P : Params) (m : Memory) : Batch.Args :=
  { vocab := P.vocab
    memory := some m.positions
    nSeqMax := if P.unified then Kv.maxSeq else m.attn.cfg.nSeqMax
    nPosPerEmbd := m.attn.cfg.nPosPerEmbd
    outputAll := P.embeddings }

/-- The loop over the ubatches, from number `k` on; `none` if an assertion fails. -/
def decodeLoop (compute : Nat → Status) :
    Nat → List (Kv.SlotInfo × Batch.UBatch E) → Memory → Option Outcome
  | _, [], m => some (.finished m)
  | k, (si, u) :: rest, m =>
    match m.applyUbatch si u with
    | none => none
    | some m =>
      match compute k with
      | .success => decodeLoop compute (k + 1) rest m
      | status => some (.failed k status (m.rollback u))

/-- The memory and the slots, with one more try after an update. -/
def initRetry (P : Params) (env : Env) (m : Memory) (b : Batch.Allocr E) :
    Option (Option (List (Kv.SlotInfo × Batch.UBatch E)) × Memory) :=
  match m.initBatch b P.nUbatch P.embeddings with
  | some (none, m) =>
    if m.hasUpdate then (m.update (env.shifted 1)).initBatch b P.nUbatch P.embeddings
    else some (none, m)
  | r => r

/-- `llama_context::decode`, as far as the memory is concerned. -/
def decode (P : Params) (env : Env) (m : Memory) (inp : Batch.Input E) : Option Outcome :=
  match Batch.init (P.args m) inp with
  | none => some (.refused (-1) m)
  | some b =>
    match initRetry P env (m.update (env.shifted 0)) b with
    | none => none
    | some (none, m) => some (.refused 1 m)
    | some (some work, m) =>
      if env.reserved then decodeLoop env.compute 0 work m else some (.refused (-2) m)

end Llama.Decode
