import Llama.Server.Slots

/-!
# One round of inference

`update_slots` of the server context, as far as it moves slots between their states: context
shifts that are refused, the batch of sampled tokens, the prompt checks and the prompt tokens,
the count of empty batches, and the views of the batch that are decoded one after another.
Sampled tokens, the prompt cache and the answers of the decoder are an input.
-/

namespace Llama.Server

/-- What happens to a prompt that passed its checks. -/
inductive Feed where
  /-- `process_chunk` fails on an image. -/
  | imageError
  /-- Tokens go to the batch; `done` says that the prompt ends with them. -/
  | fill (n : Nat) (done : Bool)

/-- One part of the batch that `llama_decode` accepts. -/
structure View where
  /-- Slots whose logits lie in the view. -/
  logits : List Nat := []
  /-- Slots among them for which `process_token` stops the generation. -/
  stops : List Nat := []
  /-- Slots that stop while their accepted drafts are processed. -/
  draftStops : List Nat := []

/-- What a round depends on besides the slots. -/
structure Round where
  /-- The id of the `NEXT_RESPONSE` task. -/
  nextId : Nat
  /-- Generating slots at the end of their context that cannot be shifted. -/
  shiftFails : List Nat := []
  /-- Slots whose task or adapters differ from those of the batch. -/
  unlike : List Nat := []
  /-- Draft tokens of the generating slots. -/
  drafts : Nat → Nat := fun _ => 0
  feed : Nat → Feed := fun _ => .fill 1 true
  views : List View := []
  /-- After the views `llama_decode` fails for good. -/
  decodeFails : Bool := false

/-- The batch while it is filled. -/
structure Batching where
  pool : Pool
  nTokens : Nat := 0
  /-- `slot_batched` is set. -/
  batched : Bool := false
  /-- The loop over the prompts was left. -/
  full : Bool := false

/-- Drops the sampled token and the drafts of a generating slot into the batch. -/
def addSampled (r : Round) (b : Batching) (i : Nat) : Batching :=
  match b.pool.slots i with
  | .busy .generating _ =>
    if b.batched && r.unlike.contains i then b
    else { b with nTokens := b.nTokens + 1 + r.drafts i, batched := true }
  | _ => b

def canSplit (cfg : Config) (t : Task) : Bool := !t.needEmbd || (cfg.hasMemory && cfg.poolingLast)

/-- The checks on a new prompt that release its slot. -/
def promptError (cfg : Config) (t : Task) : Bool :=
  t.nTokens == 0 || (t.needLogits && !cfg.hasMemory) ||
    if canSplit cfg t then cfg.nCtx ≤ t.nTokens else cfg.nUbatch < t.nTokens || cfg.nCtx < t.nTokens

/-- A slot of the prompt loop that is not skipped. -/
def Batching.close (cfg : Config) (b : Batching) : Batching :=
  { b with batched := true, full := cfg.nBatch ≤ b.nTokens }

def Batching.release (cfg : Config) (b : Batching) (i : Nat) : Batching :=
  { b with pool := b.pool.releaseIf cfg.nSlots fun j _ => j == i }

/-- Tokens of a prompt that passed its checks. -/
def fillPrompt (cfg : Config) (r : Round) (b : Batching) (i : Nat) (t : Task) : Batching :=
  if !canSplit cfg t && cfg.nBatch < b.nTokens + t.nTokens then
    { b with pool := b.pool.put i (.busy .processingPrompt t) }
  else
    match r.feed i with
    | .imageError => b.release cfg i
    | .fill n done =>
      { b with
        pool := b.pool.put i (.busy (if done then .donePrompt else .processingPrompt) t)
        nTokens := b.nTokens + min n (cfg.nBatch - b.nTokens) }.close cfg

/-- One turn of the loop over pending prompts. -/
def addPrompt (cfg : Config) (r : Round) (b : Batching) (i : Nat) : Batching :=
  if b.full then b
  else
    match b.pool.slots i with
    | .idle => b
    | .busy state t =>
      if b.batched && r.unlike.contains i then b
      else
        match state with
        | .waitOther => b
        | .started => if promptError cfg t then b.release cfg i else fillPrompt cfg r b i t
        | .processingPrompt => fillPrompt cfg r b i t
        | .donePrompt | .generating => b.close cfg

/-- The slot has the whole prompt of the child's parent in the batch. -/
def copiesTo (c : Task) : Slot → Bool
  | .busy .donePrompt p => p.isParent && c.idParent == some p.id
  | _ => false

/-- A waiting child whose parent has its prompt in the batch gets a copy of its state. -/
def activate (n : Nat) (slots : Nat → Slot) (i : Nat) : Slot :=
  match slots i with
  | .busy .waitOther c =>
    if (List.range n).any fun j => copiesTo c (slots j) then .busy .donePrompt c else slots i
  | s => s

/-- Embeddings are sent when the prompt is done; a sampled token may stop the slot. -/
def leaves (v : View) (i : Nat) : Slot → Bool
  | .busy .donePrompt t => v.logits.contains i && (t.needEmbd || v.stops.contains i)
  | .busy .generating _ => v.logits.contains i && v.stops.contains i
  | _ => false

/-- The first sampled token follows the prompt. -/
def sampled (v : View) (i : Nat) : Slot → Slot
  | .busy .donePrompt t => if v.logits.contains i then .busy .generating t else .busy .donePrompt t
  | s => s

def leavesDraft (v : View) (i : Nat) : Slot → Bool
  | .busy .generating _ => v.draftStops.contains i
  | _ => false

/-- What a decoded view does to the slots. -/
def decodeView (cfg : Config) (p : Pool) (v : View) : Pool :=
  let p : Pool := { p with slots := activate cfg.nSlots p.slots }
  let p := p.releaseIf cfg.nSlots (leaves v)
  let p : Pool := { p with slots := fun i => sampled v i (p.slots i) }
  p.releaseIf cfg.nSlots (leavesDraft v)

/-- A slot that cannot go on at the end of its context. -/
def cannotShift (r : Round) (i : Nat) : Slot → Bool
  | .busy .generating _ => r.shiftFails.contains i
  | _ => false

def fillBatch (cfg : Config) (r : Round) (slots : Nat → Slot) : Batching :=
  let p := Pool.releaseIf cfg.nSlots { slots := slots } (cannotShift r)
  let b := (List.range cfg.nSlots).foldl (addSampled r) { pool := p }
  if cfg.contBatching || b.nTokens == 0 then
    (List.range cfg.nSlots).foldl (addPrompt cfg r) b
  else b

/-- The batch is decoded view by view; a fatal error releases every slot. -/
def decodeBatch (cfg : Config) (r : Round) (p : Pool) : Pool :=
  let p := r.views.foldl (decodeView cfg) p
  if r.decodeFails then p.releaseIf cfg.nSlots fun _ _ => true else p

def allIdle (cfg : Config) (slots : Nat → Slot) : Bool :=
  (List.range cfg.nSlots).all fun i => !(slots i).isProcessing

/-- The views of the decoder cover the batch, unless it fails. -/
def Round.Valid (cfg : Config) (r : Round) (slots : Nat → Slot) : Prop :=
  (fillBatch cfg r slots).nTokens = 0 ↔ r.views = [] ∧ r.decodeFails = false

instance (cfg : Config) (r : Round) (slots : Nat → Slot) : Decidable (r.Valid cfg slots) := by
  unfold Round.Valid
  infer_instance

section Evolves

variable {cfg : Config} {r : Round}

theorem addSampled_frame (b : Batching) (i : Nat) :
    (addSampled r b i).pool = b.pool ∧ (addSampled r b i).full = b.full := by
  unfold addSampled
  split
  · split
    · exact ⟨rfl, rfl⟩
    · exact ⟨rfl, rfl⟩
  · exact ⟨rfl, rfl⟩

theorem foldl_addSampled_frame (l : List Nat) (b : Batching) :
    (l.foldl (addSampled r) b).pool = b.pool ∧ (l.foldl (addSampled r) b).full = b.full := by
  induction l generalizing b with
  | nil => exact ⟨rfl, rfl⟩
  | cons i l ih =>
    rw [List.foldl_cons, (ih _).1, (ih _).2]
    exact addSampled_frame b i

theorem release_evolves (b : Batching) (i : Nat) : Pool.Evolves b.pool (b.release cfg i).pool :=
  Pool.Evolves.releaseIf cfg.nSlots b.pool fun j _ => j == i

theorem fillPrompt_evolves {b : Batching} {i : Nat} {t : Task}
    (ht : (b.pool.slots i).task = some t) : Pool.Evolves b.pool (fillPrompt cfg r b i t).pool := by
  unfold fillPrompt
  split
  · exact .put ht.symm
  · split
    · exact release_evolves b i
    · exact .put ht.symm

theorem addPrompt_evolves (b : Batching) (i : Nat) :
    Pool.Evolves b.pool (addPrompt cfg r b i).pool := by
  unfold addPrompt
  split
  · exact .refl _
  · split
    · exact .refl _
    · rename_i state t hs
      have ht : (b.pool.slots i).task = some t := by rw [hs, Slot.task]
      split
      · exact .refl _
      · split
        · exact .refl _
        · split
          · exact release_evolves b i
          · exact fillPrompt_evolves ht
        · exact fillPrompt_evolves ht
        · exact .refl _
        · exact .refl _

theorem foldl_addPrompt_evolves (l : List Nat) (b : Batching) :
    Pool.Evolves b.pool (l.foldl (addPrompt cfg r) b).pool := by
  induction l generalizing b with
  | nil => exact .refl _
  | cons i l ih => exact (addPrompt_evolves b i).trans (ih _)

theorem fillBatch_evolves (cfg : Config) (r : Round) (slots : Nat → Slot) :
    Pool.Evolves { slots := slots } (fillBatch cfg r slots).pool := by
  have h1 := Pool.Evolves.releaseIf cfg.nSlots { slots := slots } (cannotShift r)
  have hpool := (foldl_addSampled_frame (r := r) (List.range cfg.nSlots)
    { pool := Pool.releaseIf cfg.nSlots { slots := slots } (cannotShift r) }).1
  unfold fillBatch
  dsimp only at hpool ⊢
  rw [← hpool] at h1
  split
  · exact h1.trans (foldl_addPrompt_evolves _ _)
  · exact h1

/-- Slots that only change their states. -/
theorem Pool.Evolves.map {p : Pool} {slots : Nat → Slot}
    (h : ∀ i, (slots i).task = (p.slots i).task) : Evolves p { p with slots := slots } where
  kept i _ ht := .inl ((h i).trans ht)
  old i _ ht := (h i).symm.trans ht
  released := List.Subset.refl _

theorem activate_task (n : Nat) (slots : Nat → Slot) (i : Nat) :
    (activate n slots i).task = (slots i).task := by
  unfold activate
  split
  · rename_i c hs
    split
    · rw [hs]
      rfl
    · rfl
  · rfl

theorem sampled_task (v : View) (i : Nat) (s : Slot) : (sampled v i s).task = s.task := by
  unfold sampled
  split
  · split
    · rfl
    · rfl
  · rfl

theorem decodeView_evolves (p : Pool) (v : View) : Pool.Evolves p (decodeView cfg p v) := by
  unfold decodeView
  dsimp only
  apply (Pool.Evolves.map fun i => activate_task cfg.nSlots p.slots i).trans
  apply (Pool.Evolves.releaseIf cfg.nSlots _ (leaves v)).trans
  apply (Pool.Evolves.map fun i => sampled_task v i _).trans
  apply Pool.Evolves.releaseIf cfg.nSlots _ (leavesDraft v)

theorem decodeBatch_evolves (p : Pool) : Pool.Evolves p (decodeBatch cfg r p) := by
  unfold decodeBatch
  dsimp only
  have h : Pool.Evolves p (r.views.foldl (decodeView cfg) p) := .foldl decodeView_evolves r.views p
  split
  · exact h.trans (.releaseIf ..)
  · exact h

/-- What a whole round does to the tasks. -/
theorem round_evolves (cfg : Config) (r : Round) (slots : Nat → Slot) :
    Pool.Evolves { slots := slots } (decodeBatch cfg r (fillBatch cfg r slots).pool) :=
  (fillBatch_evolves cfg r slots).trans (decodeBatch_evolves _)

end Evolves

end Llama.Server
