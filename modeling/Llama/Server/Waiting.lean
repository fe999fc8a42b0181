import Llama.Server.Loop
import Mathlib.Data.List.Flatten
import Mathlib.Data.List.Nodup
import Mathlib.Data.List.Perm.Basic

/-!
# Where tasks are

A posted task waits in one of the queues or with the main loop until it reaches a slot, together
with its children. No id occurs twice, and the ids of a task and its children belong to the reader
that posted them.
-/

namespace Llama.Server

open List

/-- The tasks that have not reached a slot. -/
def State.waiting (s : State) : List Task := (s.phase.hand ++ s.queue.all).filter Task.usesSlot

/-- Ids occur once: among the waiting tasks with their children, and in the slots. -/
structure State.Distinct (s : State) : Prop where
  waiting : (s.waiting.flatMap Task.ids).Nodup
  apart : ∀ i u, (s.slots i).task = some u → ∀ t ∈ s.waiting, u.id ∉ t.ids
  slots : ∀ i j u v, (s.slots i).task = some u → (s.slots j).task = some v → u.id = v.id → i = j
  family : ∀ t ∈ s.waiting, ∃ r ∈ s.readers, t.ids ⊆ r
  slotUsed : ∀ i u, (s.slots i).task = some u → u.id ∈ s.used
  accounted : s.Accounted
  readers : ∀ r ∈ s.readers, ∀ r' ∈ s.readers, ∀ i ∈ r, i ∈ r' → r = r'

section Distinct

variable {cfg : Config} {s s' : State} {a : Action}

variable {t : Task} {h : Handling} {q : Queue} {p : Pool}

theorem State.mem_waiting :
    t ∈ s.waiting ↔ (t ∈ s.phase.hand ∨ t ∈ s.queue.all) ∧ t.usesSlot = true := by
  rw [State.waiting, mem_filter, mem_append]

theorem State.Distinct.used (h : s.Distinct) (ht : t ∈ s.waiting) {i : Nat} (hi : i ∈ t.ids) :
    i ∈ s.used := by
  obtain ⟨r, hr, hsub⟩ := h.family t ht
  exact h.accounted r hr i (hsub hi)

/-- A step that brings no waiting task and no task to a slot. -/
structure Shrinks (s s' : State) : Prop where
  waiting : s'.waiting <+~ s.waiting
  slots : ∀ i u, (s'.slots i).task = some u → (s.slots i).task = some u
  readers : s'.readers = s.readers
  used : s.used ⊆ s'.used

theorem State.Distinct.shrinks (h : s.Distinct) (hs : Shrinks s s') : s'.Distinct where
  waiting := by
    obtain ⟨l, hl, hsub⟩ := hs.waiting
    have hnd := (hsub.flatMap Task.ids).nodup h.waiting
    exact (hl.flatMap_right Task.ids).nodup_iff.mp hnd
  apart i u hiu t ht := h.apart i u (hs.slots i u hiu) t (hs.waiting.subset ht)
  slots i j u v hiu hjv := h.slots i j u v (hs.slots i u hiu) (hs.slots j v hjv)
  family t ht := by
    rw [hs.readers]
    exact h.family t (hs.waiting.subset ht)
  slotUsed i u hiu := hs.used (h.slotUsed i u (hs.slots i u hiu))
  accounted r hmem i hi := by
    rw [hs.readers] at hmem
    exact hs.used (h.accounted r hmem i hi)
  readers := by
    rw [hs.readers]
    exact h.readers

theorem distinct_post {ts : List Task} {front : Bool} (h : s.Distinct)
    (hp : Postable cfg s.used ts) : State.Distinct { s with
      queue := s.queue.post ts front
      used := requestIds ts ++ s.used
      readers := requestIds ts :: s.readers } := by
  obtain ⟨hnd, hfresh, hts⟩ := hp
  obtain ⟨hd, hperm⟩ := s.queue.post_perm front fun t ht => (hts t ht).1
  have hw : ((s.phase.hand ++ (s.queue.post ts front).all).filter Task.usesSlot).Perm
      (ts.filter Task.usesSlot ++ s.waiting) := by
    rw [State.waiting, ← filter_append]
    apply List.Perm.filter
    rw [Queue.all, Queue.all, hd]
    calc s.phase.hand ++ ((s.queue.post ts front).tasks ++ s.queue.deferred)
      _ ~ s.phase.hand ++ ((ts ++ s.queue.tasks) ++ s.queue.deferred) :=
          (hperm.append_right _).append_left _
      _ = s.phase.hand ++ ts ++ (s.queue.tasks ++ s.queue.deferred) := by simp
      _ ~ ts ++ s.phase.hand ++ (s.queue.tasks ++ s.queue.deferred) :=
          perm_append_comm.append_right _
      _ = ts ++ (s.phase.hand ++ (s.queue.tasks ++ s.queue.deferred)) := by simp
  have hnew : ∀ t ∈ ts.filter Task.usesSlot, ∀ i ∈ t.ids, i ∈ requestIds ts := fun t ht i hi =>
    mem_flatMap.mpr ⟨t, mem_of_mem_filter ht, hi⟩
  constructor
  · rw [State.waiting, (hw.flatMap_right Task.ids).nodup_iff, flatMap_append, nodup_append']
    refine ⟨hnd.sublist (filter_sublist.flatMap _), h.waiting, ?_⟩
    intro i hi hold
    obtain ⟨t, ht, hi⟩ := mem_flatMap.mp hi
    obtain ⟨u, hu, hiu⟩ := mem_flatMap.mp hold
    exact hfresh i (hnew t ht i hi) (h.used hu hiu)
  · intro i u hiu t ht hmem
    rcases mem_append.mp (hw.mem_iff.mp ht) with ht | ht
    · exact hfresh _ (hnew t ht _ hmem) (h.slotUsed i u hiu)
    · exact h.apart i u hiu t ht hmem
  · exact h.slots
  · intro t ht
    rcases mem_append.mp (hw.mem_iff.mp ht) with ht | ht
    · exact ⟨_, mem_cons_self, fun i hi => hnew t ht i hi⟩
    · obtain ⟨r, hr, hsub⟩ := h.family t ht
      exact ⟨r, mem_cons_of_mem _ hr, hsub⟩
  · exact fun i u hiu => mem_append_right _ (h.slotUsed i u hiu)
  · intro r hr i hi
    rcases mem_cons.mp hr with rfl | hr
    · exact mem_append_left _ hi
    · exact mem_append_right _ (h.accounted r hr i hi)
  · intro r hr r' hr' i hi hi'
    rcases mem_cons.mp hr with rfl | hr
    · rcases mem_cons.mp hr' with rfl | hr'
      · rfl
      · exact absurd (h.accounted r' hr' i hi') (hfresh i hi)
    · rcases mem_cons.mp hr' with rfl | hr'
      · exact absurd (h.accounted r hr i hi) (hfresh i hi')
      · exact h.readers r hr r' hr' i hi hi'

/-- Neither queue loses or gains a task when one comes back. -/
theorem Queue.popDeferredTask_perm (q : Queue) (i : Nat) : (q.popDeferredTask i).all ~ q.all := by
  rcases q.popDeferredTask_cases i with ⟨-, h⟩ | ⟨l, t, r, hd, -, h⟩
  · rw [h]
  · rw [h, Queue.all, Queue.all, hd]
    calc t :: q.tasks ++ (l ++ r)
      _ = t :: (q.tasks ++ l ++ r) := by simp
      _ ~ q.tasks ++ l ++ t :: r := perm_middle.symm
      _ = q.tasks ++ (l ++ t :: r) := by simp

theorem Queue.defer_perm (q : Queue) (t : Task) : (q.defer t).all ~ t :: q.all := by
  rw [Queue.all, Queue.defer, ← append_assoc]
  exact perm_append_singleton t _

theorem Queue.filter_postNext (q : Queue) (n : Nat) :
    (q.post [{ id := n, type := .nextResponse }] false).all.filter Task.usesSlot =
      q.all.filter Task.usesSlot := by
  have hall : (q.post [{ id := n, type := .nextResponse }] false).all =
      q.tasks ++ [{ id := n, type := .nextResponse }] ++ q.deferred := rfl
  have hnext : [({ id := n, type := .nextResponse } : Task)].filter Task.usesSlot = [] := rfl
  rw [hall, Queue.all, filter_append, filter_append, filter_append, hnext, append_nil]

/-- A task that is processed leaves the hand of the loop, at most for the deferred queue. -/
theorem waiting_process (hp : s.phase = .process t)
    (hpr : Processed cfg h s.queue s.slots t (q, p)) :
    q.all.filter Task.usesSlot <+~ s.waiting := by
  have hw : s.waiting = (t :: s.queue.all).filter Task.usesSlot := by
    rw [State.waiting, hp]
    rfl
  have hsub : s.queue.all.filter Task.usesSlot <+~ s.waiting := by
    rw [hw]
    exact ((sublist_cons_self t _).filter _).subperm
  cases hpr with
  | deferred =>
    rw [hw]
    exact ((s.queue.defer_perm t).filter _).subperm
  | launched => exact hsub
  | failed => exact hsub
  | dropped => exact hsub
  | cancelled => exact hsub
  | other => exact hsub

theorem distinct_process (hs : s.Distinct) (hp : s.phase = .process t)
    (hpr : Processed cfg h s.queue s.slots t (q, p)) :
    State.Distinct
      { s with queue := q, slots := p.slots, pending := p.released, phase := .tasks } := by
  have hsub := waiting_process hp hpr
  obtain ⟨jobs, hnd, hjobs, hplaced⟩ := hpr.placed
  -- a launched task was in the hand of the loop
  have hmem : ∀ j ∈ jobs, t ∈ s.waiting := by
    intro j hj
    rw [State.mem_waiting, hp]
    exact ⟨.inl mem_cons_self, (hjobs j hj).1⟩
  have hhand : ∀ j ∈ jobs, (t.ids ++ (q.all.filter Task.usesSlot).flatMap Task.ids).Nodup := by
    intro j hj
    have hw : s.waiting = t :: q.all.filter Task.usesSlot := by
      rw [State.waiting, hp, (hjobs j hj).2.2.1]
      exact filter_cons_of_pos (hjobs j hj).1
    have := hs.waiting
    rwa [hw, flatMap_cons] at this
  have hnew : ∀ i u, (i, u) ∈ jobs → ∀ j v, (s.slots j).task = some v → v.id ≠ u.id := by
    intro i u hu j v hv heq
    exact hs.apart j v hv t (hmem _ hu) (heq ▸ (hjobs _ hu).2.1)
  constructor
  · obtain ⟨l, hl, hsl⟩ := hsub
    exact (hl.flatMap_right Task.ids).nodup_iff.mp ((hsl.flatMap Task.ids).nodup hs.waiting)
  · intro i u hu w hw hid
    rcases hplaced i u hu with hold | hj
    · exact hs.apart i u hold w (hsub.subset hw) hid
    · have hdis := (nodup_append'.mp (hhand _ hj)).2.2
      exact hdis (hjobs _ hj).2.1 (mem_flatMap.mpr ⟨w, hw, hid⟩)
  · intro i j u v hu hv heq
    rcases hplaced i u hu with hu | hu
    · rcases hplaced j v hv with hv | hv
      · exact hs.slots i j u v hu hv heq
      · exact absurd heq (hnew j v hv i u hu)
    · rcases hplaced j v hv with hv | hv
      · exact absurd heq.symm (hnew i u hu j v hv)
      · have hid := (nodup_append'.mp (hhand _ hu)).1
        have := inj_on_of_nodup_map (hnd hid) hu hv heq
        exact congrArg Prod.fst this
  · exact fun w hw => hs.family w (hsub.subset hw)
  · intro i u hu
    rcases hplaced i u hu with hold | hj
    · exact hs.slotUsed i u hold
    · exact hs.used (hmem _ hj) (hjobs _ hj).2.1
  · exact hs.accounted
  · exact hs.readers

/-- New tasks come with a post and reach slots when they are processed. -/
theorem step_waiting (h : Step cfg s a s') :
    (∃ ts front, a = .post ts front) ∨ (∃ hd, a = .process hd) ∨ Shrinks s s' := by
  cases h with
  | post hp => exact .inl ⟨_, _, rfl⟩
  | process hp hq hv hr => exact .inr (.inl ⟨_, rfl⟩)
  | stop hp =>
    right
    right
    refine ⟨?_, fun i u hu => hu, rfl, subset_append_right _ _⟩
    rw [State.waiting, State.waiting, filter_append, filter_append]
    exact ((s.queue.postCancel_sublist _ _).append_left _).subperm
  | callback hp =>
    right
    right
    refine ⟨?_, fun i u hu => hu, rfl, List.Subset.refl _⟩
    exact (((s.queue.popDeferredTask_perm _).append_left _).filter _).subperm
  | pop hp hq ht =>
    right
    right
    refine ⟨List.Perm.subperm ?_, fun i u hu => hu, rfl, List.Subset.refl _⟩
    rw [State.waiting, State.waiting, hp, Queue.all, Queue.all, ht]
    rfl
  | noTasks hp =>
    right
    right
    refine ⟨List.Perm.subperm ?_, fun i u hu => hu, rfl, List.Subset.refl _⟩
    rw [State.waiting, State.waiting, hp]
    rfl
  | @update r hp =>
    right
    right
    unfold updateSlots
    split
    · refine ⟨List.Perm.subperm ?_, fun i u hu => hu, rfl, List.Subset.refl _⟩
      rw [State.waiting, State.waiting, hp]
      rfl
    · refine ⟨List.Perm.subperm ?_, (round_evolves cfg r s.slots).old, rfl, subset_cons_self _ _⟩
      rw [State.waiting, State.waiting, hp]
      exact .of_eq (s.queue.filter_postNext r.nextId)
  | wake hp =>
    right
    right
    refine ⟨List.Perm.subperm ?_, fun i u hu => hu, rfl, List.Subset.refl _⟩
    rw [State.waiting, State.waiting, hp]
    rfl

theorem distinct_step (hs : s.Distinct) (h : Step cfg s a s') : s'.Distinct := by
  rcases step_waiting h with ⟨ts, front, rfl⟩ | ⟨hd, rfl⟩ | hsh
  · cases h with
    | post hp => exact distinct_post hs hp
  · cases h with
    | process hp hq hv hr => exact distinct_process hs hp (hr ▸ processSingleTask_processed hv)
  · exact hs.shrinks hsh

/-- Tasks are in slots of the server. -/
def State.Within (cfg : Config) (s : State) : Prop :=
  ∀ i u, (s.slots i).task = some u → i < cfg.nSlots

theorem within_step (hs : s.Within cfg) (h : Step cfg s a s') : s'.Within cfg := by
  rcases step_waiting h with ⟨ts, front, rfl⟩ | ⟨hd, rfl⟩ | hsh
  · cases h with
    | post hp => exact hs
  · cases h with
    | @process _ t q p hp hq hv hr =>
      have hpr : Processed cfg hd s.queue s.slots t (q, p) := hr ▸ processSingleTask_processed hv
      intro i u hu
      obtain ⟨jobs, -, hjobs, hplaced⟩ := hpr.placed
      rcases hplaced i u hu with hold | hj
      · exact hs i u hold
      · exact (hjobs _ hj).2.2.2
  · exact fun i u hu => hs i u (hsh.slots i u hu)

end Distinct

end Llama.Server
