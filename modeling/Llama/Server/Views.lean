import Mathlib.Data.List.Flatten
import Llama.Server.Batch

/-!
# Decoding the shared batch

The loop of `update_slots` that decodes the batch in views of at most `n_batch` tokens, and samples
from the views. A call of `llama_decode` that fails is tried again after an idle slot was cleared,
or with half of `n_batch`. What the calls return and what is sampled is an input.
-/

namespace Llama.Server

open List Function

/-- A view of the batch: its first token and the number of its tokens. -/
structure BatchView where
  start : Nat
  len : Nat
deriving DecidableEq

/-- The tokens of the batch that are in the view. -/
def BatchView.rows (v : BatchView) : List Nat := range' v.start v.len

/-- An output that is sampled: the slot, the index that is passed, and the view decoded last. -/
structure Read where
  slot : Nat
  index : Int
  view : BatchView
deriving DecidableEq

/-- What the calls answer: the number of the call comes first. -/
structure Answers where
  /-- `llama_decode` on a view of that length. -/
  decode : Nat → Nat → Int
  /-- The drafted tokens of the slot that are accepted. -/
  accepted : Nat → Nat → Nat
  /-- `process_token` for all tokens of the slot. -/
  processToken : Nat → Nat → Bool
  /-- `n_remaining` of the slot behind these tokens. -/
  nRemaining : Nat → Nat → Int

/-- The state of the loop. -/
structure Decoding where
  slots : Nat → BatchSlot
  /-- `i`, the head of the batch. -/
  start : Nat := 0
  nBatch : Nat
  calls : Nat := 0
  /-- Ghost: the calls of `llama_decode` so far, each with its view and its answer. -/
  log : List (BatchView × Int) := []
  /-- Ghost: the outputs that were sampled. -/
  reads : List Read := []

/-- The message about a failed call, which is empty when the call is tried again. -/
def decodeError (nBatch : Nat) (ret : Int) : String :=
  let err := if nBatch = 1 ∧ ret = 1 then "Context size has been exceeded." else ""
  let err := if ret = -1 then "Invalid input batch." else err
  if ret < -1 then "Compute error." else err

/-- The slot is idle and has tokens in the memory. -/
def BatchSlot.clearable (s : BatchSlot) : Bool := !s.slot.isProcessing && 0 < s.nPrompt

/-- The first idle slot with a prompt is cleared. -/
def tryClearIdleSlots (cfg : BatchConfig) (slots : Nat → BatchSlot) : Option (Nat → BatchSlot) :=
  if cfg.kvUnified then
    ((range cfg.nParallel).find? fun i => (slots i).clearable).map fun i =>
      update slots i { slots i with nPrompt := 0 }
  else none

/-- `copy_state_to`, and the new state of the child. -/
def BatchSlot.copyStateTo (s other : BatchSlot) : BatchSlot :=
  { other with
    slot := match other.slot with
      | .idle => .idle
      | .busy _ t => .busy .donePrompt t
    nPrompt := s.nPrompt
    iBatch := s.iBatch
    nRemaining := s.nRemaining }

/-- The slot waits for the task. -/
def BatchSlot.waitsFor (s : BatchSlot) (id : Nat) : Bool :=
  match s.slot with
  | .busy .waitOther t => t.idParent = some id
  | _ => false

/-- The children of a slot whose prompt is done get its state. -/
def copyToChildren (cfg : BatchConfig) (slots : Nat → BatchSlot) (i j : Nat) : BatchSlot :=
  match (slots i).slot with
  | .busy .donePrompt t =>
    if t.isParent ∧ j < cfg.nParallel ∧ (slots j).waitsFor t.id then
      (slots i).copyStateTo (slots j)
    else slots j
  | _ => slots j

/-- Samples one token. A slot with a draft is left to the second loop. -/
def sampleOne (a : Answers) (call : Nat) (v : BatchView) (i : Nat) (s : BatchSlot) :
    BatchSlot × List Read :=
  if s.iBatchDft = [] then
    let s' := { s with iBatch := -1, nRemaining := a.nRemaining call i }
    (if a.processToken call i then s' else Filling.released s', [⟨i, s.iBatch - v.start, v⟩])
  else (s, [])

/-- The first loop over the slots, behind a decoded view. -/
def samplePlain (a : Answers) (call : Nat) (v : BatchView) (i : Nat) (s : BatchSlot) :
    BatchSlot × List Read :=
  if s.iBatch < v.start ∨ ((v.start + v.len : Nat) : Int) ≤ s.iBatch then (s, [])
  else
    match s.slot with
    | .busy .donePrompt t =>
      if t.needEmbd then ({ Filling.released s with iBatch := -1 }, [])
      else sampleOne a call v i { s with slot := .busy .generating t }
    | .busy .generating _ => sampleOne a call v i s
    | _ => (s, [])

/-- The second loop: the drafts. The indices are passed as they are. -/
def sampleDraft (a : Answers) (call : Nat) (v : BatchView) (i : Nat) (s : BatchSlot) :
    BatchSlot × List Read :=
  if s.isGenerating ∧ s.iBatchDft ≠ [] then
    let s' := { s with
      nPrompt := s.nPrompt - s.drafted + min (a.accepted call i) s.drafted
      iBatchDft := []
      drafted := 0
      nRemaining := a.nRemaining call i }
    (if a.processToken call i then s' else Filling.released s',
      s.iBatchDft.map fun (k : Nat) => ⟨i, k, v⟩)
  else (s, [])

namespace Decoding

/-- A loop over the slots whose turns do not depend on each other. -/
def forSlots (cfg : BatchConfig) (body : Nat → BatchSlot → BatchSlot × List Read)
    (d : Decoding) : Decoding :=
  { d with
    slots := fun i => if i < cfg.nParallel then (body i (d.slots i)).1 else d.slots i
    reads := d.reads ++ (range cfg.nParallel).flatMap fun i => (body i (d.slots i)).2 }

/-- `llama_decode` was called on the next `n` tokens. -/
def answered (n : Nat) (ret : Int) (d : Decoding) : Decoding :=
  { d with log := d.log ++ [(⟨d.start, n⟩, ret)] }

/-- The views that were decoded. -/
def views (d : Decoding) : List BatchView := (d.log.filter fun c => c.2 == 0).map Prod.fst

/-- Behind a successful call. -/
def succeed (cfg : BatchConfig) (a : Answers) (n : Nat) (d : Decoding) : Decoding :=
  let v : BatchView := ⟨d.start, n⟩
  let copied := { d with slots := (range cfg.nParallel).foldl (copyToChildren cfg) d.slots }
  let d' := (copied.forSlots cfg (samplePlain a d.calls v)).forSlots cfg (sampleDraft a d.calls v)
  { d' with
    start := d.start + n
    nBatch := cfg.nBatch
    calls := d.calls + 1 }

/-- Behind a failed call that is tried again. -/
def retry (cfg : BatchConfig) (d : Decoding) : Decoding :=
  match tryClearIdleSlots cfg d.slots with
  | some slots => { d with slots := slots, calls := d.calls + 1 }
  | none => { d with nBatch := d.nBatch / 2, calls := d.calls + 1 }

end Decoding

/-- How the loop is left. -/
inductive Ended where
  | done (d : Decoding)
  /-- The error branch is taken, with that message. -/
  | failed (d : Decoding) (err : String)

/-- A turn of the loop over a batch of `len` tokens. -/
def decodeTurn (cfg : BatchConfig) (a : Answers) (len : Nat) (d : Decoding) : Decoding ⊕ Ended :=
  if d.start < len then
    let n := min d.nBatch (len - d.start)
    let ret := a.decode d.calls n
    let d := d.answered n ret
    if ret = 0 then .inl (d.succeed cfg a n)
    else
      let err := decodeError d.nBatch ret
      if err ≠ "" then .inr (.failed d err) else .inl (d.retry cfg)
  else .inr (.done d)

/-- The error branch: every processing slot is released and its prompt is cleared. -/
def failSlots (cfg : BatchConfig) (slots : Nat → BatchSlot) (i : Nat) : BatchSlot :=
  if i < cfg.nParallel ∧ (slots i).slot.isProcessing then
    { Filling.released (slots i) with nPrompt := 0 }
  else slots i

/-- The slots behind the loop. -/
def Ended.slots (cfg : BatchConfig) : Ended → Nat → BatchSlot
  | .done d => d.slots
  | .failed d _ => failSlots cfg d.slots

/-- The outputs that were sampled. -/
def Ended.reads : Ended → List Read
  | .done d => d.reads
  | .failed d _ => d.reads

/-- The calls of `llama_decode`. -/
def Ended.log : Ended → List (BatchView × Int)
  | .done d => d.log
  | .failed d _ => d.log

/-- The answer to every logged call is that of `llama_decode` to the call of that number, on a view
of that length. -/
def Ended.Logged (a : Answers) (e : Ended) : Prop :=
  ∀ k c, e.log[k]? = some c → c.2 = a.decode k c.1.len

/-- Turns that are enough for a batch of `len` tokens. -/
def decodeFuel (cfg : BatchConfig) (len : Nat) : Nat := (len + 1) * (cfg.nParallel + cfg.nBatch + 1)

/-- The loop over a batch of `len` tokens. -/
def decodeShared (cfg : BatchConfig) (a : Answers) (slots : Nat → BatchSlot) (len : Nat) :
    Option Ended :=
  Loop.untilDone (decodeTurn cfg a len) (decodeFuel cfg len)
    { slots := slots, nBatch := cfg.nBatch }

section Ends

variable {cfg : BatchConfig} {a : Answers} {len : Nat} {d d' : Decoding}

/-- The head of the batch is behind the decoded views. -/
structure Decoding.Covering (cfg : BatchConfig) (a : Answers) (len : Nat) (d : Decoding) :
    Prop where
  rows : d.views.flatMap BatchView.rows = range d.start
  start_le : d.start ≤ len
  nBatch_le : d.nBatch ≤ cfg.nBatch
  calls : d.log.length = d.calls
  logged : (Ended.done d).Logged a

/-- The slots that can still be cleared. -/
def clearableCount (cfg : BatchConfig) (slots : Nat → BatchSlot) : Nat :=
  (range cfg.nParallel).countP fun i => (slots i).clearable

/-- Tokens weigh more than slots to clear and halvings together. -/
def Decoding.measure (cfg : BatchConfig) (len : Nat) (d : Decoding) : Nat :=
  (len - d.start) * (cfg.nParallel + cfg.nBatch + 1) + clearableCount cfg d.slots + d.nBatch

theorem clearableCount_le (cfg : BatchConfig) (slots : Nat → BatchSlot) :
    clearableCount cfg slots ≤ cfg.nParallel := by
  have h := countP_le_length (p := fun i => (slots i).clearable) (l := range cfg.nParallel)
  rwa [length_range] at h

/-- Clearing a slot leaves one slot less to clear. -/
theorem clearableCount_clear {slots slots' : Nat → BatchSlot}
    (h : tryClearIdleSlots cfg slots = some slots') :
    cfg.kvUnified = true ∧ clearableCount cfg slots' + 1 = clearableCount cfg slots := by
  unfold tryClearIdleSlots at h
  split at h
  · next hkv =>
    refine ⟨hkv, ?_⟩
    obtain ⟨i, hfind, rfl⟩ := Option.map_eq_some_iff.mp h
    have hi : i < cfg.nParallel := mem_range.mp (mem_of_find?_eq_some hfind)
    have hclear : (slots i).clearable = true := by simpa using find?_some hfind
    obtain ⟨k, hk⟩ : ∃ k, cfg.nParallel = i + 1 + k := ⟨cfg.nParallel - (i + 1), by omega⟩
    -- the slots in front of the cleared one and behind it are as before
    have hrest : ∀ l : List Nat, i ∉ l →
        (l.countP fun j => (update slots i { slots i with nPrompt := 0 } j).clearable) =
          l.countP fun j => (slots j).clearable := by
      intro l hl
      apply countP_congr
      intro j hj
      rw [update_of_ne (ne_of_mem_of_not_mem hj hl)]
    have hself : BatchSlot.clearable { slots i with nPrompt := 0 } = false := by
      simp [BatchSlot.clearable]
    rw [clearableCount, clearableCount, hk, range_add, range_succ]
    simp only [countP_append, countP_singleton, update_self, hself, hclear]
    rw [hrest _ not_mem_range_self, hrest]
    · simp only [Bool.false_eq_true, if_false, if_true]
      omega
    · intro hmem
      obtain ⟨j, -, hj⟩ := mem_map.mp hmem
      omega
  · cases h

/-- A call with a negative result is not tried again. -/
theorem decodeError_of_neg {nBatch : Nat} {ret : Int} (h : ret < 0) :
    decodeError nBatch ret ≠ "" := by
  unfold decodeError
  by_cases hret : ret < -1
  · simp [hret]
  · have hret' : ret = -1 := by omega
    simp [hret']

/-- What a turn does that goes on: a view that is not empty is decoded, or a slot is cleared, or
`n_batch` is halved. -/
theorem decodeTurn_inl (hempty : ∀ t, a.decode t 0 < 0) (h : decodeTurn cfg a len d = .inl d') :
    d.start < len ∧
      ((0 < min d.nBatch (len - d.start) ∧ a.decode d.calls (min d.nBatch (len - d.start)) = 0 ∧
          d' = (d.answered (min d.nBatch (len - d.start)) 0).succeed cfg a
            (min d.nBatch (len - d.start))) ∨
        (0 < d.nBatch ∧ a.decode d.calls (min d.nBatch (len - d.start)) ≠ 0 ∧
          decodeError d.nBatch (a.decode d.calls (min d.nBatch (len - d.start))) = "" ∧
          d' = (d.answered (min d.nBatch (len - d.start))
            (a.decode d.calls (min d.nBatch (len - d.start)))).retry cfg)) := by
  unfold decodeTurn at h
  split at h
  · next hlt =>
    have hpos : 0 ≤ a.decode d.calls (min d.nBatch (len - d.start)) → 0 < d.nBatch := by
      intro hret
      by_contra hzero
      have hmin : min d.nBatch (len - d.start) = 0 := by omega
      have := hempty d.calls
      rw [hmin] at hret
      omega
    refine ⟨hlt, ?_⟩
    simp only at h
    split at h
    · next hret =>
      have := hpos (by omega)
      exact .inl ⟨by omega, hret, by rw [← hret]; exact (Sum.inl.inj h).symm⟩
    · next hret =>
      split at h
      · cases h
      · next herr =>
        have herr' := not_not.mp herr
        have hnonneg : ¬ a.decode d.calls (min d.nBatch (len - d.start)) < 0 := fun hneg =>
          decodeError_of_neg hneg herr'
        exact .inr ⟨hpos (by omega), hret, herr', (Sum.inl.inj h).symm⟩
  · cases h

theorem decodeTurn_inr {e : Ended} (h : decodeTurn cfg a len d = .inr e) :
    (d.start < len ∧ ∃ err, a.decode d.calls (min d.nBatch (len - d.start)) ≠ 0 ∧
      decodeError d.nBatch (a.decode d.calls (min d.nBatch (len - d.start))) = err ∧ err ≠ "" ∧
      e = .failed (d.answered (min d.nBatch (len - d.start))
        (a.decode d.calls (min d.nBatch (len - d.start)))) err) ∨ len ≤ d.start ∧ e = .done d := by
  unfold decodeTurn at h
  split at h
  · next hlt =>
    simp only at h
    split at h
    · cases h
    · next hret =>
      split at h
      · next herr => exact .inl ⟨hlt, _, hret, rfl, herr, (Sum.inr.inj h).symm⟩
      · cases h
  · next hge => exact .inr ⟨Nat.le_of_not_lt hge, (Sum.inr.inj h).symm⟩

theorem retry_frame (cfg : BatchConfig) (d : Decoding) : (d.retry cfg).start = d.start ∧
    (d.retry cfg).log = d.log ∧ (d.retry cfg).reads = d.reads ∧
    (d.retry cfg).calls = d.calls + 1 ∧ (d.retry cfg).nBatch ≤ d.nBatch := by
  unfold Decoding.retry
  split
  · exact ⟨rfl, rfl, rfl, rfl, le_rfl⟩
  · exact ⟨rfl, rfl, rfl, rfl, Nat.div_le_self ..⟩

/-- A failed call leaves fewer slots to clear, or a smaller `n_batch`. -/
theorem retry_less (cfg : BatchConfig) (h : 0 < d.nBatch) :
    clearableCount cfg (d.retry cfg).slots + (d.retry cfg).nBatch <
      clearableCount cfg d.slots + d.nBatch := by
  unfold Decoding.retry
  split
  · next slots hclear =>
    have hcount := (clearableCount_clear hclear).2
    change clearableCount cfg slots + d.nBatch < _
    omega
  · exact Nat.add_lt_add_left (Nat.div_lt_self h (by omega)) _

@[simp] theorem answered_start (n : Nat) (ret : Int) : (d.answered n ret).start = d.start := rfl

@[simp] theorem answered_slots (n : Nat) (ret : Int) : (d.answered n ret).slots = d.slots := rfl

@[simp] theorem answered_nBatch (n : Nat) (ret : Int) : (d.answered n ret).nBatch = d.nBatch := rfl

@[simp] theorem answered_reads (n : Nat) (ret : Int) : (d.answered n ret).reads = d.reads := rfl

theorem views_answered {n : Nat} {ret : Int} (h : ret ≠ 0) :
    (d.answered n ret).views = d.views := by
  rw [Decoding.views, Decoding.answered, filter_append, filter_singleton,
    beq_eq_false_iff_ne.mpr h, cond_false, append_nil]
  rfl

theorem views_answered_zero {n : Nat} : (d.answered n 0).views = d.views ++ [⟨d.start, n⟩] := by
  rw [Decoding.views, Decoding.answered, filter_append, map_append]
  rfl

/-- The next call is logged with its answer. -/
theorem Decoding.Covering.answered_logged {n : Nat} (hd : d.Covering cfg a len) :
    (Ended.done (d.answered n (a.decode d.calls n))).Logged a := by
  intro k c hc
  change (d.log ++ [_])[k]? = some c at hc
  by_cases hk : k < d.log.length
  · rw [getElem?_append_left hk] at hc
    exact hd.logged k c hc
  · rw [getElem?_append_right (Nat.le_of_not_lt hk)] at hc
    obtain ⟨hk', rfl⟩ := List.getElem?_eq_some_iff.mp hc
    have hkc : k = d.calls := by
      rw [length_singleton] at hk'
      have := hd.calls
      omega
    subst hkc
    simp only [hd.calls, Nat.sub_self, getElem_singleton]

theorem Decoding.Covering.turn (hempty : ∀ t, a.decode t 0 < 0) (hd : d.Covering cfg a len)
    (h : decodeTurn cfg a len d = .inl d') : d'.Covering cfg a len := by
  obtain ⟨hlt, ⟨-, hret, rfl⟩ | ⟨-, hret, -, rfl⟩⟩ := decodeTurn_inl hempty h
  · constructor
    · change (Decoding.views (d.answered _ 0)).flatMap BatchView.rows = range (d.start + _)
      rw [views_answered_zero, flatMap_append, hd.rows, range_add, flatMap_singleton]
      congr 1
      exact range'_eq_map_range ..
    · change d.start + _ ≤ len
      omega
    · exact le_rfl
    · change (d.log ++ [_]).length = d.calls + 1
      rw [length_append, hd.calls, length_singleton]
    · have := hd.answered_logged (n := min d.nBatch (len - d.start))
      rwa [hret] at this
  · obtain ⟨hstart, hlog, -, hcalls, hbatch⟩ := retry_frame cfg (d.answered
      (min d.nBatch (len - d.start)) (a.decode d.calls (min d.nBatch (len - d.start))))
    constructor
    · rw [Decoding.views, hlog, hstart]
      exact (congrArg _ (views_answered hret)).trans hd.rows
    · rw [hstart]
      exact hd.start_le
    · exact Nat.le_trans hbatch hd.nBatch_le
    · rw [hlog, hcalls, Decoding.answered, length_append, hd.calls, length_singleton]
    · rw [Ended.Logged, Ended.log, hlog]
      exact hd.answered_logged

theorem measure_lt (hempty : ∀ t, a.decode t 0 < 0) (h : decodeTurn cfg a len d = .inl d') :
    d'.measure cfg len < d.measure cfg len := by
  obtain ⟨hlt, ⟨hpos, -, rfl⟩ | ⟨hpos, -, -, rfl⟩⟩ := decodeTurn_inl hempty h
  · have hcount := clearableCount_le cfg
      ((d.answered (min d.nBatch (len - d.start)) 0).succeed cfg a
        (min d.nBatch (len - d.start))).slots
    have htokens : len - (d.start + min d.nBatch (len - d.start)) + 1 ≤ len - d.start := by omega
    have hweight := Nat.mul_le_mul_right (cfg.nParallel + cfg.nBatch + 1) htokens
    rw [Nat.add_mul, Nat.one_mul] at hweight
    change (len - (d.start + _)) * _ + _ + cfg.nBatch < _
    unfold Decoding.measure
    omega
  · have hless := retry_less cfg (show 0 < (d.answered (min d.nBatch (len - d.start))
      (a.decode d.calls (min d.nBatch (len - d.start)))).nBatch from hpos)
    rw [answered_slots, answered_nBatch] at hless
    rw [Decoding.measure, Decoding.measure, (retry_frame cfg _).1, answered_start]
    omega

/-- The error branch leaves every slot that was processing idle and empty. -/
theorem failSlots_spec {slots : Nat → BatchSlot} {i : Nat} (hi : i < cfg.nParallel) :
    (failSlots cfg slots i).slot = .idle ∧
      ((slots i).slot.isProcessing = true → (failSlots cfg slots i).nPrompt = 0) := by
  unfold failSlots
  by_cases hp : (slots i).slot.isProcessing = true
  · rw [if_pos ⟨hi, hp⟩]
    cases hs : (slots i).slot with
    | idle =>
      rw [hs] at hp
      cases hp
    | busy st t => simp [Filling.released, hs]
  · rw [if_neg (fun h => hp h.2)]
    refine ⟨?_, fun h => absurd h hp⟩
    cases hs : (slots i).slot with
    | idle => rfl
    | busy st t =>
      rw [hs] at hp
      exact absurd rfl hp

/-- The loop ends. Every call of `llama_decode` is logged with its answer, the views that were
decoded are the first tokens of the batch, each once and in their order, and either these are all
tokens, or the last call failed, and the error branch leaves no slot processing. -/
theorem decodeShared_ends (cfg : BatchConfig) (a : Answers) (hempty : ∀ t, a.decode t 0 < 0)
    (slots : Nat → BatchSlot) (len : Nat) :
    ∃ e, decodeShared cfg a slots len = some e ∧ e.Logged a ∧
      match e with
      | .done d => d.views.flatMap BatchView.rows = range len
      | .failed d err => err ≠ "" ∧ (∃ n < len, d.views.flatMap BatchView.rows = range n) ∧
          (∃ v ret, d.log.getLast? = some (v, ret) ∧ ret ≠ 0) ∧
          ∀ i < cfg.nParallel, (e.slots cfg i).slot = .idle ∧
            ((d.slots i).slot.isProcessing = true → (e.slots cfg i).nPrompt = 0) := by
  have hstart : Decoding.Covering cfg a len { slots := slots, nBatch := cfg.nBatch } :=
    ⟨rfl, Nat.zero_le _, le_rfl, rfl, fun k c hc => nomatch hc⟩
  obtain ⟨e, he⟩ : ∃ e, decodeShared cfg a slots len = some e := by
    apply Loop.untilDone_total (I := Decoding.Covering cfg a len) (m := Decoding.measure cfg len)
    · exact fun d d' hd hturn => hd.turn hempty hturn
    · exact fun d d' _ hturn => measure_lt hempty hturn
    · exact hstart
    · have hcount := clearableCount_le cfg slots
      change (len - 0) * _ + clearableCount cfg slots + cfg.nBatch < _
      rw [decodeFuel, Nat.add_mul, Nat.sub_zero]
      omega
  refine ⟨e, he, ?_⟩
  refine Loop.untilDone_invariant (I := Decoding.Covering cfg a len)
    (Q := fun e => e.Logged a ∧ match e with
      | .done d => d.views.flatMap BatchView.rows = range len
      | .failed d err => err ≠ "" ∧ (∃ n < len, d.views.flatMap BatchView.rows = range n) ∧
          (∃ v ret, d.log.getLast? = some (v, ret) ∧ ret ≠ 0) ∧
          ∀ i < cfg.nParallel, (e.slots cfg i).slot = .idle ∧
            ((d.slots i).slot.isProcessing = true → (e.slots cfg i).nPrompt = 0))
    (fun d d' hd hturn => hd.turn hempty hturn) (fun d r hd hturn => ?_) hstart he
  obtain ⟨hlt, err, hret, -, herr, rfl⟩ | ⟨hge, rfl⟩ := decodeTurn_inr hturn
  · have hviews := views_answered (n := min d.nBatch (len - d.start)) (d := d) hret
    refine ⟨hd.answered_logged, herr, ⟨d.start, hlt, ?_⟩, ⟨_, _, getLast?_concat, hret⟩, fun i hi =>
      failSlots_spec hi⟩
    rw [hviews]
    exact hd.rows
  · have hlen : d.start = len := Nat.le_antisymm hd.start_le hge
    exact ⟨hd.logged, hlen ▸ hd.rows⟩

/-- The memory has room for one token at a time: the first calls fail until the view is small. -/
theorem decodeShared_ends_halving :
    let a : Answers :=
      { decode := fun _ n => if n = 0 then -1 else if n = 1 then 0 else 1
        accepted := fun _ _ => 0, processToken := fun _ _ => true, nRemaining := fun _ _ => -1 }
    let cfg : BatchConfig := { nParallel := 1, nBatch := 4 }
    ∃ e, decodeShared cfg a (fun _ => {}) 2 = some e ∧ e.Logged a ∧
      match e with
      | .done d => d.views.flatMap BatchView.rows = range 2
      | .failed d err => err ≠ "" ∧ (∃ n < 2, d.views.flatMap BatchView.rows = range n) ∧
          (∃ v ret, d.log.getLast? = some (v, ret) ∧ ret ≠ 0) ∧
          ∀ i < 1, (e.slots cfg i).slot = .idle ∧
            ((d.slots i).slot.isProcessing = true → (e.slots cfg i).nPrompt = 0) :=
  decodeShared_ends _ _ (fun _ => show (-1 : Int) < 0 by decide) _ _

end Ends

end Llama.Server
