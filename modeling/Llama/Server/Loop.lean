import Llama.Lib.Run
import Llama.Server.Update

/-!
# The server loop

The main loop pops a task, processes it, and runs a round of inference when the queue is empty;
HTTP threads post tasks and cancellations between any two of its steps. Slots belong to the main
loop alone, so a call changes them at once; the callbacks of the slots that it released take the
lock of the queue one after another and are steps of their own.
-/

namespace Llama.Server

open List

/-- Where the main loop stands in `start_loop`. -/
inductive Phase where
  /-- About to pop the next task. -/
  | tasks
  /-- Holds a task outside both queues. -/
  | process (t : Task)
  /-- About to run `update_slots`. -/
  | update
  /-- Waiting for new tasks. -/
  | wait
deriving DecidableEq

/-- The task that the main loop holds. -/
def Phase.hand : Phase → List Task
  | .process t => [t]
  | _ => []

structure State where
  queue : Queue := {}
  slots : Nat → Slot := fun _ => .idle
  phase : Phase := .tasks
  /-- Released slots whose `callback_on_release` has not run yet. -/
  pending : List Nat := []
  /-- `n_empty_consecutive`. -/
  empties : Nat := 0
  aborted : Bool := false
  /-- Ids that were given to tasks. -/
  used : List Nat := []
  /-- The ids of each posted request, as its reader keeps them. -/
  readers : List (List Nat) := []

/-- A step of an HTTP thread or of the main loop. -/
inductive Action where
  /-- `server_response_reader::post_tasks`. -/
  | post (ts : List Task) (front : Bool)
  /-- `server_response_reader::stop`: one cancellation for each id of the reader. -/
  | stop (targets ids : List Nat)
  | pop
  | process (h : Handling)
  /-- The queue was found empty. -/
  | noTasks
  | update (r : Round)
  /-- A task arrived. -/
  | wake
  /-- `pop_deferred_task` for the next released slot. -/
  | callback

def requestIds (ts : List Task) : List Nat := ts.flatMap Task.ids

/-- What HTTP threads post: no internal task, no child by itself, fresh ids, and no more
completions than slots (checked in `params_from_json_cmpl`). -/
def Postable (cfg : Config) (used : List Nat) (ts : List Task) : Prop :=
  (requestIds ts).Nodup ∧ (∀ i ∈ requestIds ts, i ∉ used) ∧
    ∀ t ∈ ts, t.type ≠ .cancel ∧ t.type ≠ .nextResponse ∧ t.idParent = none ∧
      t.childIds.length < cfg.nSlots

/-- A reader cancels all its ids at once, in any order. -/
def Stoppable (s : State) (targets ids : List Nat) : Prop :=
  (∃ r ∈ s.readers, targets.Perm r) ∧ ids.length = targets.length ∧ ids.Nodup ∧
    ∀ i ∈ ids, i ∉ s.used

instance (cfg : Config) (used : List Nat) (ts : List Task) : Decidable (Postable cfg used ts) := by
  unfold Postable
  infer_instance

instance (s : State) (targets ids : List Nat) : Decidable (Stoppable s targets ids) := by
  unfold Stoppable
  infer_instance

def updateSlots (cfg : Config) (r : Round) (s : State) : State :=
  if allIdle cfg s.slots then { s with phase := .wait }
  else
    let b := fillBatch cfg r s.slots
    let p := decodeBatch cfg r b.pool
    let next : Task := { id := r.nextId, type := .nextResponse }
    { s with
      queue := s.queue.post [next] false
      slots := p.slots
      phase := .wait
      pending := p.released
      empties := if b.nTokens == 0 then s.empties + 1 else 0
      aborted := b.nTokens == 0 && 3 < s.empties + 1
      used := r.nextId :: s.used }

def step (cfg : Config) (s : State) (a : Action) : Option State :=
  if s.aborted then none
  else
    match a with
    | .post ts front =>
      if Postable cfg s.used ts then
        some { s with
          queue := s.queue.post ts front
          used := requestIds ts ++ s.used
          readers := requestIds ts :: s.readers }
      else none
    | .stop targets ids =>
      if Stoppable s targets ids then
        some { s with
          queue := s.queue.post (cancelTasks ids targets) true
          used := ids ++ s.used }
      else none
    | .callback =>
      match s.pending with
      | [] => none
      | i :: rest => some { s with queue := s.queue.popDeferredTask i, pending := rest }
    -- the other steps come after the callbacks of the call before
    | .pop =>
      match s.phase, s.pending, s.queue.tasks with
      | .tasks, [], t :: rest =>
        some { s with queue := { s.queue with tasks := rest }, phase := .process t }
      | _, _, _ => none
    | .noTasks =>
      match s.phase, s.pending, s.queue.tasks with
      | .tasks, [], [] => some { s with phase := .update }
      | _, _, _ => none
    | .process h =>
      match s.phase, s.pending with
      | .process t, [] =>
        if h.Valid cfg s.slots then
          let (q, p) := processSingleTask cfg h s.queue s.slots t
          some { s with queue := q, slots := p.slots, pending := p.released, phase := .tasks }
        else none
      | _, _ => none
    | .update r =>
      match s.phase, s.pending with
      | .update, [] =>
        if r.Valid cfg s.slots ∧ r.nextId ∉ s.used then some (updateSlots cfg r s) else none
      | _, _ => none
    | .wake =>
      match s.phase, s.pending, s.queue.tasks with
      | .wait, [], _ :: _ => some { s with phase := .tasks }
      | _, _, _ => none

/-- The state that a sequence of steps reaches from the start. -/
def run (cfg : Config) (as : List Action) : Option State := Run.exec (step cfg) {} as

section Step

variable {cfg : Config} {s s' : State} {a : Action}

/-- The steps, with their guards. -/
inductive Step (cfg : Config) (s : State) : Action → State → Prop
  | post {ts : List Task} {front : Bool} (h : Postable cfg s.used ts) :
      Step cfg s (.post ts front) { s with
        queue := s.queue.post ts front
        used := requestIds ts ++ s.used
        readers := requestIds ts :: s.readers }
  | stop {targets ids : List Nat} (h : Stoppable s targets ids) :
      Step cfg s (.stop targets ids) { s with
        queue := s.queue.post (cancelTasks ids targets) true
        used := ids ++ s.used }
  | callback {i : Nat} {rest : List Nat} (h : s.pending = i :: rest) :
      Step cfg s .callback { s with queue := s.queue.popDeferredTask i, pending := rest }
  | pop {t : Task} {rest : List Task} (hp : s.phase = .tasks) (hq : s.pending = [])
      (ht : s.queue.tasks = t :: rest) :
      Step cfg s .pop { s with queue := { s.queue with tasks := rest }, phase := .process t }
  | noTasks (hp : s.phase = .tasks) (hq : s.pending = []) (ht : s.queue.tasks = []) :
      Step cfg s .noTasks { s with phase := .update }
  | process {h : Handling} {t : Task} {q : Queue} {p : Pool} (hp : s.phase = .process t)
      (hq : s.pending = []) (hv : h.Valid cfg s.slots)
      (hr : processSingleTask cfg h s.queue s.slots t = (q, p)) :
      Step cfg s (.process h)
        { s with queue := q, slots := p.slots, pending := p.released, phase := .tasks }
  | update {r : Round} (hp : s.phase = .update) (hq : s.pending = []) (hv : r.Valid cfg s.slots)
      (hn : r.nextId ∉ s.used) : Step cfg s (.update r) (updateSlots cfg r s)
  | wake {t : Task} {rest : List Task} (hp : s.phase = .wait) (hq : s.pending = [])
      (ht : s.queue.tasks = t :: rest) : Step cfg s .wake { s with phase := .tasks }

theorem step_cases (h : step cfg s a = some s') : s.aborted = false ∧ Step cfg s a s' := by
  unfold step at h
  split at h
  · contradiction
  · rename_i hab
    refine ⟨by simpa using hab, ?_⟩
    cases a with
    | post ts front =>
      dsimp only at h
      split at h
      · obtain rfl := Option.some.inj h
        exact .post (by assumption)
      · contradiction
    | stop targets ids =>
      dsimp only at h
      split at h
      · obtain rfl := Option.some.inj h
        exact .stop (by assumption)
      · contradiction
    | callback =>
      dsimp only at h
      split at h
      · contradiction
      · obtain rfl := Option.some.inj h
        exact .callback (by assumption)
    | pop =>
      dsimp only at h
      split at h
      · obtain rfl := Option.some.inj h
        exact .pop (by assumption) (by assumption) (by assumption)
      · contradiction
    | noTasks =>
      dsimp only at h
      split at h
      · obtain rfl := Option.some.inj h
        exact .noTasks (by assumption) (by assumption) (by assumption)
      · contradiction
    | process hd =>
      dsimp only at h
      split at h
      · split at h
        · obtain rfl := Option.some.inj h
          exact .process (by assumption) (by assumption) (by assumption) rfl
        · contradiction
      · contradiction
    | update r =>
      dsimp only at h
      split at h
      · split at h
        · rename_i hv
          obtain rfl := Option.some.inj h
          exact .update (by assumption) (by assumption) hv.1 hv.2
        · contradiction
      · contradiction
    | wake =>
      dsimp only at h
      split at h
      · obtain rfl := Option.some.inj h
        exact .wake (by assumption) (by assumption) (by assumption)
      · contradiction

/-- The ids of a reader were given to tasks. -/
def State.Accounted (s : State) : Prop := ∀ r ∈ s.readers, ∀ i ∈ r, i ∈ s.used

theorem accounted_step (hs : s.Accounted) (h : Step cfg s a s') : s'.Accounted := by
  cases h with
  | post =>
    intro r hr i hi
    rcases mem_cons.mp hr with rfl | hr
    · exact mem_append_left _ hi
    · exact mem_append_right _ (hs r hr i hi)
  | stop => exact fun r hr i hi => mem_append_right _ (hs r hr i hi)
  | callback => exact hs
  | pop => exact hs
  | noTasks => exact hs
  | process => exact hs
  | update =>
    unfold updateSlots
    split
    · exact hs
    · exact fun r hr i hi => mem_cons_of_mem _ (hs r hr i hi)
  | wake => exact hs

/-- The ids of new cancellations are none of those cancelled. -/
theorem Stoppable.notMem {targets ids : List Nat} (h : Stoppable s targets ids)
    (hs : s.Accounted) : ∀ i ∈ ids, i ∉ targets := by
  obtain ⟨⟨r, hr, hperm⟩, -, -, hfresh⟩ := h
  intro i hi hmem
  exact hfresh i hi (hs r hr i (hperm.mem_iff.mp hmem))

/-- Tasks on their way to a slot are no children, and their family fits into the slots. -/
def State.Rooted (cfg : Config) (s : State) : Prop :=
  ∀ t, t ∈ s.phase.hand ∨ t ∈ s.queue.all → t.idParent = none ∧ t.childIds.length < cfg.nSlots

/-- The queues and the hand of the loop only get tasks that were posted. -/
theorem rooted_step (hs : s.Accounted) (ht : s.Rooted cfg) (h : Step cfg s a s') :
    s'.Rooted cfg := by
  cases h with
  | @post ts front h =>
    have hcancel : ∀ t ∈ ts, t.type ≠ .cancel := fun t ht => (h.2.2 t ht).1
    rintro t (hmem | hmem)
    · exact ht t (.inl hmem)
    · rw [Queue.mem_all, s.queue.mem_post front hcancel,
        (s.queue.post_perm front hcancel).1] at hmem
      rcases hmem with (hmem | hmem) | hmem
      · exact ht t (.inr (Queue.mem_all.mpr (.inl hmem)))
      · exact (h.2.2 t hmem).2.2
      · exact ht t (.inr (Queue.mem_all.mpr (.inr hmem)))
  | stop h =>
    obtain ⟨hd, hm⟩ := Queue.mem_postCancel (q := s.queue) h.2.1 (h.notMem hs)
    rintro t (hmem | hmem)
    · exact ht t (.inl hmem)
    · rw [Queue.mem_all, hm, hd] at hmem
      rcases hmem with (hmem | hmem) | hmem
      · exact ht t (.inr (Queue.mem_all.mpr (.inl hmem.1)))
      · obtain ⟨i, -, x, -, rfl⟩ := mem_cancelTasks hmem
        exact ⟨rfl, cfg.nSlots_pos⟩
      · exact ht t (.inr (Queue.mem_all.mpr (.inr hmem.1)))
  | callback h =>
    rintro t (hmem | hmem)
    · exact ht t (.inl hmem)
    · exact ht t (.inr (Queue.mem_all_popDeferredTask.mp hmem))
  | pop hp hq hl =>
    rintro t (hmem | hmem)
    · refine ht t (.inr (Queue.mem_all.mpr (.inl ?_)))
      rw [hl, mem_singleton.mp hmem]
      exact mem_cons_self
    · refine ht t (.inr (Queue.mem_all.mpr ?_))
      rw [hl]
      exact (Queue.mem_all.mp hmem).imp_left (mem_cons_of_mem _)
  | noTasks =>
    rintro t (hmem | hmem)
    · simp [Phase.hand] at hmem
    · exact ht t (.inr hmem)
  | @process h t q p hp hq hv hr =>
    have hpr : Processed cfg h s.queue s.slots t (q, p) := hr ▸ processSingleTask_processed hv
    rintro u (hmem | hmem)
    · simp [Phase.hand] at hmem
    · cases hpr with
      | deferred =>
        rcases Queue.mem_all_defer.mp hmem with hmem | rfl
        · exact ht u (.inr hmem)
        · exact ht u (.inl (by simp [hp, Phase.hand]))
      | launched => exact ht u (.inr hmem)
      | failed => exact ht u (.inr hmem)
      | dropped => exact ht u (.inr hmem)
      | cancelled => exact ht u (.inr hmem)
      | other => exact ht u (.inr hmem)
  | @update r =>
    unfold updateSlots
    split
    · rintro t (hmem | hmem)
      · simp [Phase.hand] at hmem
      · exact ht t (.inr hmem)
    · have hnext : ∀ t ∈ [({ id := r.nextId, type := .nextResponse } : Task)],
          t.type ≠ .cancel := by
        simp
      rintro t (hmem | hmem)
      · simp [Phase.hand] at hmem
      · rw [Queue.mem_all, s.queue.mem_post false hnext, (s.queue.post_perm false hnext).1] at hmem
        rcases hmem with (hmem | hmem) | hmem
        · exact ht t (.inr (Queue.mem_all.mpr (.inl hmem)))
        · rw [mem_singleton.mp hmem]
          exact ⟨rfl, cfg.nSlots_pos⟩
        · exact ht t (.inr (Queue.mem_all.mpr (.inr hmem)))
  | wake =>
    rintro t (hmem | hmem)
    · simp [Phase.hand] at hmem
    · exact ht t (.inr hmem)

end Step

/-- One slot, a context of 64 tokens. -/
def oneSlot : Config where
  nSlots := 1
  nCtx := 64
  nBatch := 32
  nUbatch := 32
  nSlots_pos := by decide
  nBatch_pos := by decide

/-- A completion of four tokens. -/
def completion (id : Nat) : Task := { id := id, type := .completion, nTokens := 4 }

end Llama.Server
