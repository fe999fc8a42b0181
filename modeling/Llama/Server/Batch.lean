import Mathlib.Algebra.BigOperators.Group.List.Basic
import Mathlib.Algebra.Order.Group.Nat
import Llama.Lib.Loop
import Llama.Server.Slots

/-!
# The shared batch

How `update_slots` fills the batch that all slots share: first the sampled tokens of the
generating slots and their drafts, then the prompts as far as `n_batch` allows. Only the slots and
the output flags of the tokens are kept; how long the drafts are, where a prompt stops early and
which prompts fail their checks is an input.
-/

namespace Llama.Server

open List Function

/-- What the shared batch depends on, of the server and its context. -/
structure BatchConfig where
  /-- `n_parallel`, the number of slots. -/
  nParallel : Nat
  /-- `llama_n_batch(ctx)`. -/
  nBatch : Nat
  contBatching : Bool := true
  kvUnified : Bool := true

/-- The tokens that `llama_batch_init` allocates. -/
def BatchConfig.capacity (cfg : BatchConfig) : Nat := max cfg.nBatch cfg.nParallel

/-- A token of the batch: its sequence and whether its output is wanted. -/
structure BatchToken where
  slot : Nat
  output : Bool
deriving DecidableEq

/-- `server_slot`, as far as the batch goes. -/
structure BatchSlot where
  /-- The state and the task. -/
  slot : Slot := .idle
  /-- The adapters, which are only compared. -/
  lora : Nat := 0
  /-- `prompt.n_tokens()`. -/
  nPrompt : Nat := 0
  iBatch : Int := -1
  iBatchDft : List Nat := []
  /-- `drafted.size()`. -/
  drafted : Nat := 0
  canSpeculate : Bool := false
  /-- `speculative.n_max` of the task. -/
  nMax : Int := 16
  /-- `speculative.n_min` of the task. -/
  nMin : Int := 0
  nCtx : Int := 0
  nRemaining : Int := -1
deriving DecidableEq

namespace BatchSlot

def isGenerating (s : BatchSlot) : Bool :=
  match s.slot with
  | .busy .generating _ => true
  | _ => false

def canBatchWith (s other : BatchSlot) : Bool :=
  s.slot.task.map Task.type = other.slot.task.map Task.type ∧ s.lora = other.lora

def getNDraftMax (s : BatchSlot) : Int :=
  if s.canSpeculate then
    let nDraftMax := min s.nMax (s.nCtx - s.nPrompt - 2)
    let nDraftMax := if 0 < s.nRemaining then min nDraftMax (s.nRemaining - 1) else nDraftMax
    if nDraftMax < s.nMin then 0 else nDraftMax
  else 0

/-- The draft without the tokens that are too many. -/
def truncateDraft (s : BatchSlot) (draft : Nat) : Nat := min draft s.getNDraftMax.toNat

/-- A draft is added to the batch. -/
def usesDraft (s : BatchSlot) (draft : Nat) : Bool :=
  0 < s.getNDraftMax ∧ s.nMin ≤ s.truncateDraft draft

/-- The tokens that a generating slot adds: the sampled one, and its draft. -/
def width (s : BatchSlot) (draft : Nat) : Nat :=
  if s.usesDraft draft then 1 + s.truncateDraft draft else 1

/-- The slot after its tokens were added behind `n` others. -/
def sampleInto (s : BatchSlot) (draft n : Nat) : BatchSlot :=
  if 0 < s.getNDraftMax then
    if s.truncateDraft draft < s.nMin then
      { s with
        nPrompt := s.nPrompt + 1
        iBatch := ((s.iBatchDft ++ [n]).headD 0 : Nat)
        iBatchDft := []
        drafted := 0 }
    else
      { s with
        nPrompt := s.nPrompt + 1 + s.truncateDraft draft
        iBatchDft := s.iBatchDft ++ range' n (1 + s.truncateDraft draft)
        drafted := s.truncateDraft draft }
  else { s with nPrompt := s.nPrompt + 1, iBatch := n }

end BatchSlot

/-- What happens to a prompt in this update. -/
inductive Prompting where
  /-- A check fails, and the slot is released. -/
  | fail
  /-- The prompt may not be split and does not fit. -/
  | wait
  /-- `past` tokens are there, and `limit` ones are added before something else than the end of the
  prompt or the size of the batch stops the loop. The adapters are `lora` meanwhile. -/
  | fill (past limit lora : Nat)
deriving DecidableEq

/-- The batch while it is filled. -/
structure Filling where
  slots : Nat → BatchSlot
  batch : List BatchToken := []
  /-- `slot_batched`. -/
  batched : Option Nat := none
  /-- The loop over the prompts was left. -/
  full : Bool := false
  /-- Ghost: no prompt was done with an empty batch, which is asserted. -/
  ok : Bool := true

namespace Filling

/-- Whether the slot can be batched with the ones before it. -/
def compatible (f : Filling) (i : Nat) : Bool :=
  match f.batched with
  | none => true
  | some b => (f.slots b).canBatchWith (f.slots i)

def setSlot (f : Filling) (i : Nat) (s : BatchSlot) : Filling :=
  { f with slots := update f.slots i s }

/-- The sampled token of a generating slot, with its draft. -/
def addSampled (drafts : Nat → Nat) (f : Filling) (i : Nat) : Filling :=
  if (f.slots i).isGenerating ∧ f.compatible i then
    { f.setSlot i ((f.slots i).sampleInto (drafts i) f.batch.length) with
      batch := f.batch ++ replicate ((f.slots i).width (drafts i)) ⟨i, true⟩
      batched := f.batched <|> some i }
  else f

/-- The number of prompt tokens that are added. -/
def fillCount (cfg : BatchConfig) (f : Filling) (t : Task) (past limit : Nat) : Nat :=
  min limit (min (t.nTokens - past) (cfg.nBatch - f.batch.length))

/-- Adds tokens of a prompt. The last token of the prompt is marked for output. -/
def fillPrompt (cfg : BatchConfig) (f : Filling) (i : Nat) (t : Task) (past limit lora : Nat) :
    Filling :=
  let n := f.fillCount cfg t past limit
  let batch := f.batch ++ replicate n ⟨i, t.needEmbd⟩
  let s := { f.slots i with nPrompt := past + n, lora := lora }
  if past + n = t.nTokens then
    { f.setSlot i { s with slot := .busy .donePrompt t, iBatch := (batch.length : Int) - 1 } with
      batch := batch.modify (batch.length - 1) fun tok => { tok with output := true }
      ok := f.ok && !batch.isEmpty }
  else
    { f.setSlot i { s with slot := .busy .processingPrompt t } with
      batch := batch }

/-- `release`, without the queue. -/
def released (s : BatchSlot) : BatchSlot :=
  match s.slot with
  | .idle => s
  | .busy _ t =>
    { s with
      slot := .idle
      nPrompt := if t.isChild then 0 else s.nPrompt
      iBatchDft := []
      drafted := 0 }

/-- The end of the loop body over the prompts. -/
def close (cfg : BatchConfig) (f : Filling) (i : Nat) : Filling :=
  { f with batched := f.batched <|> some i, full := cfg.nBatch ≤ f.batch.length }

/-- One turn of the loop over the prompts. -/
def addPrompt (cfg : BatchConfig) (feed : Nat → Prompting) (f : Filling) (i : Nat) : Filling :=
  if f.full then f
  else
    match (f.slots i).slot with
    | .idle => f
    | .busy state t =>
      if f.compatible i then
        match state with
        | .waitOther => f
        | .started | .processingPrompt =>
          match feed i with
          | .fail => f.setSlot i (released (f.slots i))
          | .wait => f.setSlot i { f.slots i with slot := .busy .processingPrompt t }
          | .fill past limit lora => (f.fillPrompt cfg i t past limit lora).close cfg i
        | .donePrompt | .generating => f.close cfg i
      else f

end Filling

/-- The sampled tokens and drafts of all slots. -/
def fillSampled (cfg : BatchConfig) (drafts : Nat → Nat) (slots : Nat → BatchSlot) : Filling :=
  (range cfg.nParallel).foldl (Filling.addSampled drafts) { slots := slots }

/-- The whole batch. -/
def fillShared (cfg : BatchConfig) (drafts : Nat → Nat) (feed : Nat → Prompting)
    (slots : Nat → BatchSlot) : Filling :=
  let f := fillSampled cfg drafts slots
  if cfg.contBatching ∨ f.batch = [] then
    (range cfg.nParallel).foldl (Filling.addPrompt cfg feed) f
  else f

section Size

variable {cfg : BatchConfig} {drafts : Nat → Nat} {feed : Nat → Prompting}
  {slots : Nat → BatchSlot} {f : Filling} {i n : Nat}

/-- The first generating slot, which decides which others are batched. -/
def firstGenerating (cfg : BatchConfig) (slots : Nat → BatchSlot) : Option Nat :=
  (range cfg.nParallel).find? fun i => (slots i).isGenerating

/-- The slot generates and is like the first generating one. -/
def samples (cfg : BatchConfig) (slots : Nat → BatchSlot) (i : Nat) : Bool :=
  (slots i).isGenerating &&
    (firstGenerating cfg slots).all fun b => (slots b).canBatchWith (slots i)

/-- The sampled tokens and used drafts of the first slots. -/
def sampledWidth (cfg : BatchConfig) (drafts : Nat → Nat) (slots : Nat → BatchSlot) (n : Nat) :
    Nat :=
  ((range n).map fun i => if samples cfg slots i then (slots i).width (drafts i) else 0).sum

theorem canBatchWith_self (s : BatchSlot) : s.canBatchWith s = true := by
  simp [BatchSlot.canBatchWith]

@[simp] theorem setSlot_slots_self (f : Filling) (i : Nat) (s : BatchSlot) :
    (f.setSlot i s).slots i = s := update_self ..

theorem setSlot_slots_of_ne {j : Nat} (h : j ≠ i) (f : Filling) (s : BatchSlot) :
    (f.setSlot i s).slots j = f.slots j := update_of_ne h ..

/-- Only the numbers of a slot change when its tokens are added. -/
theorem sampleInto_frame (s : BatchSlot) (draft n : Nat) :
    (s.sampleInto draft n).slot = s.slot ∧ (s.sampleInto draft n).lora = s.lora := by
  unfold BatchSlot.sampleInto
  split
  · split <;> exact ⟨rfl, rfl⟩
  · exact ⟨rfl, rfl⟩

/-- The first `n` slots have added their sampled tokens. -/
structure Sampling (cfg : BatchConfig) (drafts : Nat → Nat) (slots : Nat → BatchSlot) (n : Nat)
    (f : Filling) : Prop where
  slot : ∀ i, (f.slots i).slot = (slots i).slot ∧ (f.slots i).lora = (slots i).lora
  rest : ∀ i, n ≤ i → f.slots i = slots i
  batched : f.batched = (range n).find? fun i => (slots i).isGenerating
  length : f.batch.length = sampledWidth cfg drafts slots n
  open_ : f.full = false
  ok : f.ok = true

theorem find?_range_succ (p : Nat → Bool) (n : Nat) :
    (range (n + 1)).find? p = ((range n).find? p <|> if p n then some n else none) := by
  rw [range_succ, find?_append]
  cases hp : p n <;> simp [hp]

/-- Whether the next slot is compatible depends on the first generating slot only. -/
theorem Sampling.compatible (h : Sampling cfg drafts slots n f) (hn : n < cfg.nParallel)
    (hgen : (slots n).isGenerating = true) : f.compatible n = samples cfg slots n := by
  have hsame : ∀ b, (f.slots b).canBatchWith (f.slots n) = (slots b).canBatchWith (slots n) := by
    intro b
    simp only [BatchSlot.canBatchWith, (h.slot b).1, (h.slot b).2, (h.slot n).1, (h.slot n).2]
  -- the first of all generating slots is among the ones before, or is this one
  have hfirst : firstGenerating cfg slots =
      ((range n).find? (fun i => (slots i).isGenerating) <|> some n) := by
    obtain ⟨k, hk⟩ : ∃ k, cfg.nParallel = n + 1 + k := ⟨cfg.nParallel - (n + 1), by omega⟩
    rw [firstGenerating, hk, range_add, find?_append, find?_range_succ, if_pos hgen]
    cases (range n).find? fun i => (slots i).isGenerating <;> rfl
  rw [Filling.compatible, samples, hgen, hfirst, h.batched, Bool.true_and]
  cases (range n).find? fun i => (slots i).isGenerating with
  | none => exact (canBatchWith_self _).symm
  | some b => exact hsame b

theorem sampledWidth_succ (n : Nat) : sampledWidth cfg drafts slots (n + 1) =
    sampledWidth cfg drafts slots n +
      if samples cfg slots n then (slots n).width (drafts n) else 0 := by
  rw [sampledWidth, range_succ, map_append, sum_append]
  simp [sampledWidth]

theorem Sampling.addSampled (h : Sampling cfg drafts slots n f) (hn : n < cfg.nParallel) :
    Sampling cfg drafts slots (n + 1) (f.addSampled drafts n) := by
  have hrest := h.rest n le_rfl
  rw [Filling.addSampled]
  by_cases hgen : (slots n).isGenerating = true
  · have hcompat := h.compatible hn hgen
    rw [hrest]
    by_cases hs : samples cfg slots n = true
    · rw [if_pos ⟨hgen, hcompat.trans hs⟩]
      constructor
      · intro i
        by_cases hi : i = n
        · subst hi
          simp only [setSlot_slots_self]
          exact sampleInto_frame _ _ _
        · simp only [setSlot_slots_of_ne hi]
          exact h.slot i
      · intro i hi
        have hne : i ≠ n := by omega
        simp only [setSlot_slots_of_ne hne]
        exact h.rest i (by omega)
      · rw [find?_range_succ, if_pos hgen, ← h.batched]
      · rw [sampledWidth_succ, if_pos hs, length_append, length_replicate, h.length]
      · exact h.open_
      · exact h.ok
    · rw [if_neg (fun hboth => hs (hcompat.symm.trans hboth.2))]
      constructor
      · exact h.slot
      · exact fun i hi => h.rest i (by omega)
      · rw [find?_range_succ, if_pos hgen, ← h.batched]
        cases hb : f.batched with
        | some b => rfl
        | none =>
          rw [Filling.compatible, hb] at hcompat
          exact absurd hcompat.symm hs
      · rw [sampledWidth_succ, if_neg hs, h.length, Nat.add_zero]
      · exact h.open_
      · exact h.ok
  · have hs : samples cfg slots n = false := by
      rw [samples, Bool.not_eq_true _ |>.mp hgen, Bool.false_and]
    rw [hrest, if_neg (fun hboth => hgen hboth.1)]
    constructor
    · exact h.slot
    · exact fun i hi => h.rest i (by omega)
    · rw [find?_range_succ, if_neg hgen, h.batched]
      cases (range n).find? fun i => (slots i).isGenerating <;> rfl
    · rw [sampledWidth_succ, hs, h.length]
      rfl
    · exact h.open_
    · exact h.ok

/-- The loop over the generating slots. -/
theorem sampling_fillSampled (cfg : BatchConfig) (drafts : Nat → Nat) (slots : Nat → BatchSlot) :
    Sampling cfg drafts slots cfg.nParallel (fillSampled cfg drafts slots) :=
  Loop.foldl_range_induction ⟨fun _ => ⟨rfl, rfl⟩, fun _ _ => rfl, rfl, rfl, rfl, rfl⟩
    fun _ hn _ h => h.addSampled hn

/-- Room is only taken while there is some. -/
structure Grows (cfg : BatchConfig) (f f' : Filling) : Prop where
  mono : f.batch.length ≤ f'.batch.length
  room : f'.batch.length ≤ max f.batch.length cfg.nBatch

protected theorem Grows.refl (f : Filling) : Grows cfg f f := ⟨le_rfl, Nat.le_max_left ..⟩

protected theorem Grows.trans {f' f'' : Filling} (h : Grows cfg f f') (h' : Grows cfg f' f'') :
    Grows cfg f f'' := by
  have hroom := h.room
  have hroom' := h'.room
  constructor
  · exact Nat.le_trans h.mono h'.mono
  · omega

/-- A prompt takes no more than the room that is left. -/
theorem grows_fillPrompt (cfg : BatchConfig) (f : Filling) (i : Nat) (t : Task)
    (past limit lora : Nat) : Grows cfg f (f.fillPrompt cfg i t past limit lora) := by
  have hlen : (f.fillPrompt cfg i t past limit lora).batch.length =
      f.batch.length + f.fillCount cfg t past limit := by
    simp only [Filling.fillPrompt]
    split <;> simp
  have hcount : f.fillCount cfg t past limit ≤ cfg.nBatch - f.batch.length := by
    unfold Filling.fillCount
    omega
  constructor <;> omega

theorem grows_addPrompt (feed : Nat → Prompting) (i : Nat) :
    Grows cfg f (f.addPrompt cfg feed i) := by
  unfold Filling.addPrompt
  split
  · exact .refl f
  · split
    · exact .refl f
    · next state t _ =>
      split
      · cases state with
        | waitOther => exact .refl f
        | donePrompt => exact ⟨le_rfl, Nat.le_max_left ..⟩
        | generating => exact ⟨le_rfl, Nat.le_max_left ..⟩
        | started | processingPrompt =>
          simp only
          cases feed i with
          | fail => exact ⟨le_rfl, Nat.le_max_left ..⟩
          | wait => exact ⟨le_rfl, Nat.le_max_left ..⟩
          | fill past limit lora =>
            have h := grows_fillPrompt cfg f i t past limit lora
            exact ⟨h.mono, h.room⟩
      · exact .refl f

theorem grows_fillShared (cfg : BatchConfig) (drafts : Nat → Nat) (feed : Nat → Prompting)
    (slots : Nat → BatchSlot) :
    Grows cfg (fillSampled cfg drafts slots) (fillShared cfg drafts feed slots) := by
  simp only [fillShared]
  split
  · exact Loop.foldl_range_induction
      (motive := fun _ f => Grows cfg (fillSampled cfg drafts slots) f) (.refl _)
      fun _ _ f h => h.trans (grows_addPrompt feed _)
  · exact .refl _

/-- The allocated batch is large enough exactly when the sampled tokens and drafts alone fit: the
prompts only fill what is left of `n_batch`. -/
theorem fillShared_fits_iff (cfg : BatchConfig) (drafts : Nat → Nat) (feed : Nat → Prompting)
    (slots : Nat → BatchSlot) :
    (fillShared cfg drafts feed slots).batch.length ≤ cfg.capacity ↔
      sampledWidth cfg drafts slots cfg.nParallel ≤ cfg.capacity := by
  have hsampled := (sampling_fillSampled cfg drafts slots).length
  have hgrows := grows_fillShared cfg drafts feed slots
  have hroom := hgrows.room
  have hmono := hgrows.mono
  have hcap : cfg.nBatch ≤ cfg.capacity := Nat.le_max_left ..
  constructor
  · intro h
    omega
  · intro h
    omega

/-- A single slot with a batch of 8 tokens and the default draft of 16 tokens. -/
theorem fillShared_overflows :
    let task : Task := { id := 0, type := .completion, nTokens := 1 }
    let s : BatchSlot :=
      { slot := .busy .generating task, nPrompt := 1, canSpeculate := true, nCtx := 100 }
    let cfg : BatchConfig := { nParallel := 1, nBatch := 8 }
    (fillShared cfg (fun _ => 16) (fun _ => .wait) fun _ => s).batch.length = 17 ∧
      cfg.capacity = 8 := by
  decide

end Size

end Llama.Server
