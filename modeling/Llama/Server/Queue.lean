import Mathlib.Data.List.Basic
import Mathlib.Algebra.Order.Ring.Int

/-!
# The task queue

`server_queue` holds the tasks that the main loop has not taken yet and the tasks that found no
slot. HTTP threads post to it; the main loop pops, defers and moves deferred tasks back.
-/

namespace Llama.Server

open List

/-- `server_task_type`. -/
inductive TaskType where
  | completion
  | embedding
  | rerank
  | infill
  | cancel
  | nextResponse
  | metrics
  | slotSave
  | slotRestore
  | slotErase
  | getLora
  | setLora
deriving DecidableEq

/-- `server_task`. The sentinel `-1` of `id_target` and `id_parent` is `none`. -/
structure Task where
  id : Nat
  type : TaskType
  idTarget : Option Nat := none
  idSlot : Int := -1
  idParent : Option Nat := none
  /-- Ids of `child_tasks`; everything else of a child is copied from its parent. -/
  childIds : List Nat := []
  /-- `tokens.size()`. -/
  nTokens : Nat := 0
  cli : Bool := false
  /-- `slot_action.id_slot`. -/
  actionSlot : Int := 0
deriving DecidableEq

namespace Task

/-- Types that run in a slot. -/
def usesSlot (t : Task) : Bool :=
  match t.type with
  | .completion | .infill | .embedding | .rerank => true
  | _ => false

/-- Types that read or write the context of a slot without running in it. -/
def isSlotAction (t : Task) : Bool :=
  match t.type with
  | .slotSave | .slotRestore | .slotErase => true
  | _ => false

def needEmbd (t : Task) : Bool :=
  match t.type with
  | .embedding | .rerank => true
  | _ => false

def needLogits (t : Task) : Bool :=
  match t.type with
  | .completion | .infill => true
  | _ => false

def isParent (t : Task) : Bool := !t.childIds.isEmpty

def isChild (t : Task) : Bool := t.idParent.isSome

/-- The child that `add_child` builds. -/
def child (t : Task) (c : Nat) : Task where
  id := c
  type := t.type
  idParent := some t.id
  nTokens := t.nTokens

def childTasks (t : Task) : List Task := t.childIds.map t.child

/-- The ids that `get_list_id` collects from one task. -/
def ids (t : Task) : List Nat := t.id :: t.childIds

theorem id_mem_ids (t : Task) : t.id ∈ t.ids := mem_cons_self

end Task

/-- `server_queue`. -/
structure Queue where
  tasks : List Task := []
  deferred : List Task := []

namespace Queue

def cleanupPendingTask (q : Queue) (target : Nat) : Queue where
  tasks := q.tasks.filter fun t => t.id ≠ target
  deferred := q.deferred.filter fun t => t.id ≠ target

/-- One turn of `post`. -/
def postOne (front : Bool) (q : Queue) (t : Task) : Queue :=
  let q := match t.type, t.idTarget with
    | .cancel, some target => q.cleanupPendingTask target
    | _, _ => q
  { q with tasks := if front then t :: q.tasks else q.tasks ++ [t] }

def post (q : Queue) (ts : List Task) (front : Bool) : Queue := ts.foldl (postOne front) q

def defer (q : Queue) (t : Task) : Queue := { q with deferred := q.deferred ++ [t] }

/-- A deferred task that asks for the slot, else the oldest one. -/
def nextDeferred (q : Queue) (idSlot : Nat) : Option Task :=
  (q.deferred.find? fun t => t.idSlot = (idSlot : Int)).or q.deferred.head?

/-- The next deferred task for the slot goes to the front. -/
def popDeferredTask (q : Queue) (idSlot : Nat) : Queue :=
  match q.deferred.find? (fun t => t.idSlot = (idSlot : Int)) with
  | some t =>
    { tasks := t :: q.tasks, deferred := q.deferred.eraseP fun t => t.idSlot = (idSlot : Int) }
  | none =>
    match q.deferred with
    | [] => q
    | t :: rest => { tasks := t :: q.tasks, deferred := rest }

theorem popDeferredTask_cases (q : Queue) (i : Nat) :
    q.deferred = [] ∧ q.popDeferredTask i = q ∨
      ∃ l t r, q.deferred = l ++ t :: r ∧ q.nextDeferred i = some t ∧
        q.popDeferredTask i = { tasks := t :: q.tasks, deferred := l ++ r } := by
  cases hf : q.deferred.find? (fun t => t.idSlot = (i : Int)) with
  | some t =>
    right
    obtain ⟨hp, l, r, hd, hl⟩ := find?_eq_some_iff_append.mp hf
    have he : q.deferred.eraseP (fun t => t.idSlot = (i : Int)) = l ++ r := by
      rw [hd, eraseP_append_right _ (fun u hu => by simpa using hl u hu),
        eraseP_cons_of_pos (by exact hp)]
    refine ⟨l, t, r, hd, ?_, ?_⟩
    · simp only [nextDeferred, hf, Option.some_or]
    · simp only [popDeferredTask, hf, he]
  | none =>
    have hq : q.popDeferredTask i = match q.deferred with
        | [] => q
        | t :: rest => { tasks := t :: q.tasks, deferred := rest } := by
      simp only [popDeferredTask, hf]
    cases hd : q.deferred with
    | nil =>
      left
      refine ⟨rfl, ?_⟩
      rw [hq, hd]
    | cons t rest =>
      right
      refine ⟨[], t, rest, rfl, ?_, ?_⟩
      · rw [nextDeferred, hf, hd]
        rfl
      · rw [hq, hd]
        rfl

/-- The tasks of both queues. -/
def all (q : Queue) : List Task := q.tasks ++ q.deferred

variable {q : Queue} {t : Task} {ts : List Task}

theorem mem_all : t ∈ q.all ↔ t ∈ q.tasks ∨ t ∈ q.deferred := mem_append

theorem mem_all_popDeferredTask {i : Nat} : t ∈ (q.popDeferredTask i).all ↔ t ∈ q.all := by
  rcases q.popDeferredTask_cases i with ⟨-, h⟩ | ⟨l, u, r, hd, -, h⟩
  · rw [h]
  · rw [h]
    simp only [mem_all, hd, mem_cons, mem_append]
    tauto

theorem mem_all_defer {u : Task} : t ∈ (q.defer u).all ↔ t ∈ q.all ∨ t = u := by
  simp only [mem_all, defer, mem_append, mem_singleton, or_assoc]

/-- Posting tasks other than cancellations only adds them. -/
theorem post_perm (q : Queue) (front : Bool) (h : ∀ t ∈ ts, t.type ≠ .cancel) :
    (q.post ts front).deferred = q.deferred ∧ (q.post ts front).tasks.Perm (ts ++ q.tasks) := by
  induction ts generalizing q with
  | nil => exact ⟨rfl, .refl _⟩
  | cons u ts ih =>
    have hu := h u mem_cons_self
    have hone : (postOne front q u).deferred = q.deferred ∧
        (postOne front q u).tasks.Perm (u :: q.tasks) := by
      unfold postOne
      split
      · contradiction
      · cases front
        · exact ⟨rfl, perm_append_singleton u q.tasks⟩
        · exact ⟨rfl, .refl _⟩
    obtain ⟨hd, hm⟩ := ih (postOne front q u) fun t ht => h t (mem_cons_of_mem u ht)
    have hpost : q.post (u :: ts) front = (postOne front q u).post ts front := rfl
    rw [hpost]
    exact ⟨hd.trans hone.1, hm.trans ((hone.2.append_left ts).trans perm_middle)⟩

theorem mem_post (q : Queue) (front : Bool) (h : ∀ t ∈ ts, t.type ≠ .cancel) :
    t ∈ (q.post ts front).tasks ↔ t ∈ q.tasks ∨ t ∈ ts := by
  rw [(q.post_perm front h).2.mem_iff, mem_append, or_comm]

end Queue

/-- The cancellation of one id. -/
def cancelTask (id target : Nat) : Task where
  id := id
  type := .cancel
  idTarget := some target

/-- The tasks that `server_response_reader::stop` posts. -/
def cancelTasks (ids targets : List Nat) : List Task := List.zipWith cancelTask ids targets

theorem mem_cancelTasks {ids targets : List Nat} {t : Task} (h : t ∈ cancelTasks ids targets) :
    ∃ i ∈ ids, ∃ x ∈ targets, t = cancelTask i x := by
  rw [cancelTasks, ← map_uncurry_zip_eq_zipWith] at h
  obtain ⟨⟨i, x⟩, hmem, rfl⟩ := mem_map.mp h
  exact ⟨i, (of_mem_zip hmem).1, x, (of_mem_zip hmem).2, rfl⟩

namespace Queue

/-- Cancellations clean both queues and stand in the main queue afterwards. -/
theorem mem_postCancel {q : Queue} {ids targets : List Nat} (hlen : ids.length = targets.length)
    (hnew : ∀ i ∈ ids, i ∉ targets) :
    (∀ t, t ∈ (q.post (cancelTasks ids targets) true).deferred ↔ t ∈ q.deferred ∧ t.id ∉ targets) ∧
    ∀ t, t ∈ (q.post (cancelTasks ids targets) true).tasks ↔
      (t ∈ q.tasks ∧ t.id ∉ targets) ∨ t ∈ cancelTasks ids targets := by
  induction ids generalizing q targets with
  | nil =>
    obtain rfl : targets = [] := length_eq_zero_iff.mp hlen.symm
    simp [cancelTasks, post]
  | cons i ids ih =>
    cases targets with
    | nil => simp at hlen
    | cons x targets =>
      have hlen' : ids.length = targets.length := by simpa using hlen
      have hnew' : ∀ j ∈ ids, j ∉ targets := fun j hj hmem =>
        hnew j (mem_cons_of_mem i hj) (mem_cons_of_mem x hmem)
      have hix : i ∉ targets := fun hmem => hnew i mem_cons_self (mem_cons_of_mem x hmem)
      obtain ⟨hd, ht⟩ := ih (q := postOne true q (cancelTask i x)) hlen' hnew'
      have hpost : q.post (cancelTasks (i :: ids) (x :: targets)) true =
          (postOne true q (cancelTask i x)).post (cancelTasks ids targets) true := rfl
      have htasks : (postOne true q (cancelTask i x)).tasks =
          cancelTask i x :: q.tasks.filter fun t => t.id ≠ x := rfl
      have hdef : (postOne true q (cancelTask i x)).deferred =
          q.deferred.filter fun t => t.id ≠ x := rfl
      have hcons : cancelTasks (i :: ids) (x :: targets) =
          cancelTask i x :: cancelTasks ids targets := rfl
      rw [hpost]
      constructor
      · intro t
        rw [hd, hdef, mem_filter, mem_cons, not_or, decide_eq_true_eq, and_assoc]
      · intro t
        rw [ht, htasks, hcons]
        simp only [mem_cons, mem_filter, decide_eq_true_eq, not_or]
        constructor
        · rintro (⟨rfl | ⟨hq, hx⟩, hno⟩ | hc)
          · exact .inr (.inl rfl)
          · exact .inl ⟨hq, hx, hno⟩
          · exact .inr (.inr hc)
        · rintro (⟨hq, hx, hno⟩ | rfl | hc)
          · exact .inl ⟨.inr ⟨hq, hx⟩, hno⟩
          · exact .inl ⟨.inl rfl, hix⟩
          · exact .inr hc

/-- Cancellations only take tasks away from those that run in slots. -/
theorem postCancel_sublist (q : Queue) (ids targets : List Nat) :
    ((q.post (cancelTasks ids targets) true).all.filter Task.usesSlot).Sublist
      (q.all.filter Task.usesSlot) := by
  induction ids generalizing q targets with
  | nil => exact .refl _
  | cons i ids ih =>
    cases targets with
    | nil => exact .refl _
    | cons x targets =>
      have hone : ((postOne true q (cancelTask i x)).all.filter Task.usesSlot).Sublist
          (q.all.filter Task.usesSlot) := by
        have hall : (postOne true q (cancelTask i x)).all =
            cancelTask i x :: ((q.tasks.filter fun t => t.id ≠ x) ++
              q.deferred.filter fun t => t.id ≠ x) := rfl
        rw [hall, filter_cons_of_neg (by simp [Task.usesSlot, cancelTask])]
        exact (List.Sublist.append filter_sublist filter_sublist).filter _
      exact (ih (postOne true q (cancelTask i x)) targets).trans hone

end Queue

end Llama.Server
