import Llama.Server.Queue

/-!
# Slots and scheduling

`process_single_task` of the server context. A slot holds a task exactly while it is not idle:
`launch_slot_with_task` sets both and `release` clears both.
-/

namespace Llama.Server

open List Function

/-- The states of a slot that is not idle. -/
inductive SlotState where
  | waitOther
  | started
  | processingPrompt
  | donePrompt
  | generating
deriving DecidableEq

/-- `server_slot`, its state and its task. -/
inductive Slot where
  | idle
  | busy (state : SlotState) (task : Task)
deriving DecidableEq

namespace Slot

def isProcessing : Slot → Bool
  | idle => false
  | busy _ _ => true

def task : Slot → Option Task
  | idle => none
  | busy _ t => some t

/-- `slot.task && slot.task->id == id`. -/
def holds (id : Nat) : Slot → Bool
  | idle => false
  | busy _ t => t.id == id

/-- The slot after `launch_slot_with_task`. -/
def launch (t : Task) : Slot := busy (if t.isChild then .waitOther else .started) t

variable {s : Slot}

theorem isProcessing_iff : s.isProcessing = true ↔ ∃ t, s.task = some t := by
  cases s with
  | idle => simp [isProcessing, task]
  | busy st t => simp [isProcessing, task]

theorem holds_iff {id : Nat} : s.holds id = true ↔ ∃ t, s.task = some t ∧ t.id = id := by
  cases s with
  | idle => simp [holds, task]
  | busy st t => simp [holds, task]

end Slot

/-- What the slots and the checks of a request depend on. -/
structure Config where
  nSlots : Nat
  nCtx : Nat
  nBatch : Nat
  nUbatch : Nat
  /-- `llama_get_memory(ctx)` is not null. -/
  hasMemory : Bool := true
  /-- The pooling type is `LAST`. -/
  poolingLast : Bool := false
  contBatching : Bool := true
  /-- A multimodal projector is loaded. -/
  mctx : Bool := false
  nSlots_pos : 0 < nSlots
  nBatch_pos : 0 < nBatch

/-- The slots during one call, and the slots released so far, whose callback is still to run. -/
structure Pool where
  slots : Nat → Slot
  released : List Nat := []

namespace Pool

/-- Releases the processing slots with a property, in the order of the slots. -/
def releaseIf (n : Nat) (p : Pool) (P : Nat → Slot → Bool) : Pool where
  slots i := if i < n ∧ P i (p.slots i) then .idle else p.slots i
  released := p.released ++ (range n).filter fun i => (p.slots i).isProcessing && P i (p.slots i)

def put (p : Pool) (i : Nat) (s : Slot) : Pool := { p with slots := update p.slots i s }

@[simp] theorem put_self (p : Pool) (i : Nat) (s : Slot) : (p.put i s).slots i = s := by
  simp only [put, update_self]

variable {i n : Nat} {p : Pool} {P : Nat → Slot → Bool}

theorem put_of_ne {j : Nat} (h : j ≠ i) (p : Pool) (s : Slot) :
    (p.put i s).slots j = p.slots j := by
  simp only [put, update_of_ne h]

theorem releaseIf_of_pos (hi : i < n) (h : P i (p.slots i) = true) :
    (p.releaseIf n P).slots i = .idle :=
  if_pos ⟨hi, h⟩

theorem releaseIf_of_neg (h : ¬ (i < n ∧ P i (p.slots i) = true)) :
    (p.releaseIf n P).slots i = p.slots i :=
  if_neg h

theorem slots_of_releaseIf {st : SlotState} {t : Task}
    (h : (p.releaseIf n P).slots i = .busy st t) : p.slots i = .busy st t := by
  by_cases hP : i < n ∧ P i (p.slots i) = true
  · rw [releaseIf_of_pos hP.1 hP.2] at h
    contradiction
  · rwa [releaseIf_of_neg hP] at h

theorem mem_released_releaseIf :
    i ∈ (p.releaseIf n P).released ↔ i ∈ p.released ∨
      i < n ∧ (p.slots i).isProcessing = true ∧ P i (p.slots i) = true := by
  simp only [releaseIf, mem_append, mem_filter, mem_range, Bool.and_eq_true]

/-- A call that launches nothing: tasks stay in their slots or the slots are released. -/
structure Evolves (p p' : Pool) : Prop where
  kept : ∀ i t, (p.slots i).task = some t → (p'.slots i).task = some t ∨ i ∈ p'.released
  old : ∀ i t, (p'.slots i).task = some t → (p.slots i).task = some t
  released : p.released ⊆ p'.released

namespace Evolves

variable {p p' p'' : Pool}

protected theorem refl (p : Pool) : Evolves p p where
  kept _ _ h := .inl h
  old _ _ h := h
  released := List.Subset.refl _

protected theorem trans (h : Evolves p p') (h' : Evolves p' p'') : Evolves p p'' where
  kept i t ht := by
    rcases h.kept i t ht with hk | hr
    · exact h'.kept i t hk
    · exact .inr (h'.released hr)
  old i t ht := h.old i t (h'.old i t ht)
  released := List.Subset.trans h.released h'.released

theorem foldl {α : Type} {f : Pool → α → Pool} (hf : ∀ p a, Evolves p (f p a)) (l : List α)
    (p : Pool) : Evolves p (l.foldl f p) := by
  induction l generalizing p with
  | nil => exact .refl p
  | cons a l ih => exact (hf p a).trans (ih (f p a))

theorem releaseIf (n : Nat) (p : Pool) (P : Nat → Slot → Bool) : Evolves p (p.releaseIf n P) where
  kept i t ht := by
    by_cases h : i < n ∧ P i (p.slots i) = true
    · right
      have hp := Slot.isProcessing_iff.mpr ⟨t, ht⟩
      exact mem_released_releaseIf.mpr (.inr ⟨h.1, hp, h.2⟩)
    · left
      rwa [releaseIf_of_neg h]
  old i t ht := by
    by_cases h : i < n ∧ P i (p.slots i) = true
    · rw [releaseIf_of_pos h.1 h.2] at ht
      simp [Slot.task] at ht
    · rwa [releaseIf_of_neg h] at ht
  released := subset_append_left _ _

variable {i : Nat}

/-- A slot that only changes its state. -/
theorem put {s : Slot} (h : s.task = (p.slots i).task) : Evolves p (p.put i s) where
  kept j t ht := by
    left
    by_cases hj : j = i
    · subst hj
      rw [put_self, h, ht]
    · rwa [put_of_ne hj]
  old j t ht := by
    by_cases hj : j = i
    · subst hj
      rwa [put_self, h] at ht
    · rwa [put_of_ne hj] at ht
  released := List.Subset.refl _

/-- A processing slot goes on or is released. -/
theorem isProcessing (h : Evolves p p') (hi : (p.slots i).isProcessing = true) :
    (p'.slots i).isProcessing = true ∨ i ∈ p'.released := by
  obtain ⟨t, ht⟩ := Slot.isProcessing_iff.mp hi
  exact (h.kept i t ht).imp_left fun hk => Slot.isProcessing_iff.mpr ⟨t, hk⟩

end Evolves

end Pool

/-- `id_slot % slots.size()` in unsigned 64-bit arithmetic. -/
def getSlotById (cfg : Config) (idSlot : Int) : Nat := (idSlot % 2 ^ 64).toNat % cfg.nSlots

/-- The idle slots other than `exclude`, at most `needed` of them. -/
def getFreeSlots (cfg : Config) (slots : Nat → Slot) (needed exclude : Nat) : List Nat :=
  ((range cfg.nSlots).filter fun i => !(slots i).isProcessing && i != exclude).take needed

/-- What decides the fate of a task besides the slots. -/
structure Handling where
  /-- The result of `tokenize_cli_input`. -/
  tokenized : Bool := true
  /-- The slot that `get_available_slot` chooses, by similarity of prompts or by age. -/
  available : Option Nat := none
  /-- The first launch that fails: the children in their order, then the task itself. -/
  fails : Option Nat := none

/-- `get_available_slot` returns an idle slot whenever there is one. -/
def Handling.Valid (cfg : Config) (slots : Nat → Slot) (h : Handling) : Prop :=
  match h.available with
  | none => ∀ i < cfg.nSlots, (slots i).isProcessing = true
  | some i => i < cfg.nSlots ∧ (slots i).isProcessing = false

instance (cfg : Config) (slots : Nat → Slot) (h : Handling) : Decidable (h.Valid cfg slots) := by
  unfold Handling.Valid
  split <;> infer_instance

/-- The slot that the task asks for, or an available one. -/
def chooseSlot (cfg : Config) (h : Handling) (t : Task) : Option Nat :=
  if t.idSlot ≠ -1 then some (getSlotById cfg t.idSlot) else h.available

inductive Decision where
  | defer
  | drop
  | launch (slot : Nat) (childSlots : List Nat)
deriving DecidableEq

def Decision.isLaunch : Decision → Bool
  | .launch _ _ => true
  | _ => false

/-- The slot scheduling logic of `process_single_task`. -/
def schedule (cfg : Config) (h : Handling) (slots : Nat → Slot) (t : Task) : Decision :=
  if t.cli && !h.tokenized then .drop
  else
    match chooseSlot cfg h t with
    | none => .defer
    | some i =>
      if (slots i).isProcessing then .defer
      else if t.isParent then
        let childSlots := getFreeSlots cfg slots t.childIds.length i
        if childSlots.length < t.childIds.length then .defer else .launch i childSlots
      else .launch i []

/-- `launch_slot_with_task` for a list of slots and tasks. -/
def launchAll (slots : Nat → Slot) (jobs : List (Nat × Task)) : Nat → Slot :=
  jobs.foldl (fun s j => update s j.1 (.launch j.2)) slots

/-- The task or a child of it. -/
def inFamily (id : Nat) : Slot → Bool
  | .idle => false
  | .busy _ t => t.id == id || t.idParent == some id

/-- `launch_slot_with_task`, or `launch_slots_with_parent_task` for a parent: the children come
first, and a launch that fails releases those before it. -/
def launchTask (cfg : Config) (h : Handling) (slots : Nat → Slot) (t : Task) (i : Nat)
    (childSlots : List Nat) : Pool :=
  let jobs := childSlots.zip t.childTasks ++ [(i, t)]
  match h.fails with
  | none => { slots := launchAll slots jobs }
  | some k =>
    if jobs.length ≤ k then { slots := launchAll slots jobs }
    else if t.isParent then
      Pool.releaseIf cfg.nSlots { slots := launchAll slots (jobs.take k) } fun _ => inFamily t.id
    else { slots := slots }

/-- Releases the first slot that holds the target. -/
def cancelSlot (cfg : Config) (slots : Nat → Slot) (target : Nat) : Pool :=
  match (range cfg.nSlots).find? fun i => (slots i).holds target with
  | none => { slots := slots }
  | some i => Pool.releaseIf cfg.nSlots { slots := slots } fun j _ => j == i

def processSingleTask (cfg : Config) (h : Handling) (q : Queue) (slots : Nat → Slot) (t : Task) :
    Queue × Pool :=
  if t.usesSlot then
    match schedule cfg h slots t with
    | .defer => (q.defer t, { slots := slots })
    | .drop => (q, { slots := slots })
    | .launch i childSlots => (q, launchTask cfg h slots t i childSlots)
  else if t.isSlotAction then
    -- with a multimodal projector `check_no_mtmd` refuses the action
    if !cfg.mctx && (slots (getSlotById cfg t.actionSlot)).isProcessing then
      (q.defer t, { slots := slots })
    else (q, { slots := slots })
  else
    match t.type, t.idTarget with
    | .cancel, some target => (q, cancelSlot cfg slots target)
    | _, _ => (q, { slots := slots })

section Process

variable {cfg : Config} {h : Handling} {q : Queue} {slots : Nat → Slot} {t : Task}

theorem launchAll_cases (slots : Nat → Slot) (jobs : List (Nat × Task)) (i : Nat) :
    launchAll slots jobs i = slots i ∨ ∃ u, (i, u) ∈ jobs ∧ launchAll slots jobs i = .launch u := by
  induction jobs generalizing slots with
  | nil => exact .inl rfl
  | cons j jobs ih =>
    rcases ih (update slots j.1 (.launch j.2)) with hs | ⟨u, hu, hs⟩
    · by_cases hi : i = j.1
      · subst hi
        right
        refine ⟨j.2, mem_cons_self, ?_⟩
        rw [update_self] at hs
        exact hs
      · left
        rw [update_of_ne hi] at hs
        exact hs
    · exact .inr ⟨u, mem_cons_of_mem j hu, hs⟩

@[simp] theorem isProcessing_launch (t : Task) : (Slot.launch t).isProcessing = true := rfl

@[simp] theorem task_launch (t : Task) : (Slot.launch t).task = some t := rfl

variable {jobs : List (Nat × Task)} {i : Nat} {childSlots : List Nat} {u : Task}

/-- Launches make their slots processing and leave the others as they are. -/
theorem launchAll_isProcessing_iff :
    (launchAll slots jobs i).isProcessing = true ↔
      (slots i).isProcessing = true ∨ ∃ u, (i, u) ∈ jobs := by
  induction jobs generalizing slots with
  | nil => simp [launchAll]
  | cons j jobs ih =>
    have hcons : launchAll slots (j :: jobs) =
        launchAll (update slots j.1 (.launch j.2)) jobs := rfl
    rw [hcons, ih]
    by_cases hi : i = j.1
    · subst hi
      simp only [update_self, isProcessing_launch, true_or, true_iff]
      exact .inr ⟨j.2, mem_cons_self⟩
    · rw [update_of_ne hi]
      constructor
      · rintro (hp | ⟨u, hu⟩)
        · exact .inl hp
        · exact .inr ⟨u, mem_cons_of_mem j hu⟩
      · rintro (hp | ⟨u, hu⟩)
        · exact .inl hp
        · rcases mem_cons.mp hu with rfl | hu
          · exact absurd rfl hi
          · exact .inr ⟨u, hu⟩

theorem mem_getFreeSlots {needed exclude : Nat} (hi : i ∈ getFreeSlots cfg slots needed exclude) :
    i < cfg.nSlots ∧ (slots i).isProcessing = false ∧ i ≠ exclude := by
  have hmem := mem_of_mem_take hi
  simpa [mem_filter] using hmem

theorem launch_job {j : Nat} (hj : (j, u) ∈ childSlots.zip t.childTasks ++ [(i, t)]) :
    j ∈ childSlots ∧ u ∈ t.childTasks ∨ j = i ∧ u = t := by
  rcases mem_append.mp hj with hz | hs
  · exact .inl ⟨(of_mem_zip hz).1, (of_mem_zip hz).2⟩
  · exact .inr (Prod.mk.inj (mem_singleton.mp hs))

theorem id_mem_of_childTasks (hu : u ∈ t.childTasks) : u.id ∈ t.ids := by
  obtain ⟨c, hc, rfl⟩ := mem_map.mp hu
  exact mem_cons_of_mem t.id hc

theorem chooseSlot_lt (hv : h.Valid cfg slots) (hi : chooseSlot cfg h t = some i) :
    i < cfg.nSlots := by
  unfold chooseSlot at hi
  split at hi
  · rw [← Option.some.inj hi]
    exact Nat.mod_lt _ cfg.nSlots_pos
  · rw [Handling.Valid, hi] at hv
    exact hv.1

/-- The launches of a task: idle slots for the children, then one for the task. -/
structure Jobs (cfg : Config) (slots : Nat → Slot) (t : Task) (jobs : List (Nat × Task)) :
    Prop where
  idle : ∀ j ∈ jobs, j.1 < cfg.nSlots ∧ (slots j.1).isProcessing = false
  tasks : ∀ j ∈ jobs, j.2 ∈ t.childTasks ∨ j.2 = t
  own : ∃ i, (i, t) ∈ jobs ∧ launchAll slots jobs i = .launch t
  ids : t.ids.Nodup → (jobs.map fun j => j.2.id).Nodup

/-- A task that is launched finds idle slots. -/
theorem schedule_launch (hv : h.Valid cfg slots)
    (hs : schedule cfg h slots t = .launch i childSlots) :
    i < cfg.nSlots ∧ (slots i).isProcessing = false ∧
      (∀ j ∈ childSlots, j < cfg.nSlots ∧ (slots j).isProcessing = false ∧ j ≠ i) ∧
      t.childIds.length ≤ childSlots.length := by
  unfold schedule at hs
  split at hs
  · contradiction
  · split at hs
    · contradiction
    · rename_i k hk
      split at hs
      · contradiction
      · rename_i hidle
        have hidle : (slots k).isProcessing = false := by simpa using hidle
        split at hs
        · dsimp only at hs
          split at hs
          · contradiction
          · rename_i hfit
            obtain ⟨rfl, rfl⟩ := Decision.launch.inj hs
            exact ⟨chooseSlot_lt hv hk, hidle, fun j hj => mem_getFreeSlots hj, by omega⟩
        · rename_i hpar
          obtain ⟨rfl, rfl⟩ := Decision.launch.inj hs
          have hnone : t.childIds = [] := by simpa [Task.isParent] using hpar
          exact ⟨chooseSlot_lt hv hk, hidle, by simp, by simp [hnone]⟩

theorem launchAll_append (slots : Nat → Slot) (jobs jobs' : List (Nat × Task)) :
    launchAll slots (jobs ++ jobs') = launchAll (launchAll slots jobs) jobs' :=
  foldl_append

theorem jobs_of_launch (hv : h.Valid cfg slots)
    (hs : schedule cfg h slots t = .launch i childSlots) :
    Jobs cfg slots t (childSlots.zip t.childTasks ++ [(i, t)]) := by
  obtain ⟨hi, hidle, hchild, hlen⟩ := schedule_launch hv hs
  constructor
  · rintro ⟨j, u⟩ hj
    rcases launch_job hj with ⟨hc, -⟩ | ⟨rfl, -⟩
    · exact ⟨(hchild j hc).1, (hchild j hc).2.1⟩
    · exact ⟨hi, hidle⟩
  · rintro ⟨j, u⟩ hj
    rcases launch_job hj with ⟨-, hu⟩ | ⟨-, hu⟩
    · exact .inl hu
    · exact .inr hu
  · refine ⟨i, by simp, ?_⟩
    rw [launchAll_append]
    exact update_self ..
  · intro hnd
    have hmap : (childSlots.zip t.childTasks).map (fun j => j.2.id) = t.childIds := by
      calc (childSlots.zip t.childTasks).map (fun j => j.2.id)
          = ((childSlots.zip t.childTasks).map Prod.snd).map Task.id := by
            rw [map_map]
            rfl
        _ = t.childTasks.map Task.id := by
            rw [map_snd_zip (by rwa [Task.childTasks, length_map])]
        _ = t.childIds := by
            rw [Task.childTasks, map_map]
            exact map_id _
    rw [map_append, map_singleton, hmap]
    exact (perm_append_singleton t.id t.childIds).nodup_iff.mpr hnd

/-- With all slots idle every task whose family fits finds its slots. -/
theorem exists_isProcessing_of_defer (hv : h.Valid cfg slots)
    (hfit : t.childIds.length < cfg.nSlots) (hs : schedule cfg h slots t = .defer) :
    ∃ i < cfg.nSlots, (slots i).isProcessing = true := by
  unfold schedule at hs
  split at hs
  · contradiction
  · split at hs
    · rename_i hk
      unfold chooseSlot at hk
      split at hk
      · contradiction
      · rw [Handling.Valid, hk] at hv
        exact ⟨0, cfg.nSlots_pos, hv 0 cfg.nSlots_pos⟩
    · rename_i k hk
      split at hs
      · exact ⟨k, chooseSlot_lt hv hk, by assumption⟩
      · split at hs
        · dsimp only at hs
          split at hs
          · -- too few free slots, although all but `k` would do
            rename_i hfew
            by_contra hno
            simp only [not_exists, not_and, Bool.not_eq_true] at hno
            have hfree : ((range cfg.nSlots).filter
                fun i => !(slots i).isProcessing && i != k) = (range cfg.nSlots).erase k := by
              rw [nodup_range.erase_eq_filter]
              apply filter_congr
              intro i hi
              simp [hno i (mem_range.mp hi)]
            rw [getFreeSlots, hfree, length_take,
              length_erase_of_mem (mem_range.mpr (chooseSlot_lt hv hk)),
              length_range] at hfew
            omega
          · contradiction
        · contradiction

/-- The task is dropped without taking a slot, not even for a moment. -/
def Lost (cfg : Config) (h : Handling) (slots : Nat → Slot) (t : Task) : Prop :=
  t.usesSlot = true ∧
    (schedule cfg h slots t = .drop ∨ h.fails = some 0 ∧ (schedule cfg h slots t).isLaunch = true)

instance : Decidable (Lost cfg h slots t) := by
  unfold Lost
  infer_instance

/-- All that `process_single_task` can do. -/
inductive Processed (cfg : Config) (h : Handling) (q : Queue) (slots : Nat → Slot) (t : Task) :
    Queue × Pool → Prop
  | deferred (hw : t.usesSlot = true ∧ schedule cfg h slots t = .defer ∨
        t.usesSlot = false ∧ t.isSlotAction = true)
      (hbusy : t.childIds.length < cfg.nSlots → ∃ i < cfg.nSlots, (slots i).isProcessing = true) :
      Processed cfg h q slots t (q.defer t, { slots := slots })
  | launched {jobs : List (Nat × Task)} (hu : t.usesSlot = true) (hj : Jobs cfg slots t jobs) :
      Processed cfg h q slots t (q, { slots := launchAll slots jobs })
  | failed {jobs : List (Nat × Task)} {k : Nat} (hu : t.usesSlot = true)
      (hj : Jobs cfg slots t jobs) (hk : k < jobs.length) (hl : k = 0 → Lost cfg h slots t)
      (hc : ∀ j ∈ jobs.take k, j.2.idParent = some t.id) :
      Processed cfg h q slots t (q,
        Pool.releaseIf cfg.nSlots { slots := launchAll slots (jobs.take k) } fun _ => inFamily t.id)
  | dropped (hl : Lost cfg h slots t) : Processed cfg h q slots t (q, { slots := slots })
  | cancelled {target : Nat} (ht : t.type = .cancel) (htt : t.idTarget = some target) :
      Processed cfg h q slots t (q, cancelSlot cfg slots target)
  | other (hu : t.usesSlot = false) : Processed cfg h q slots t (q, { slots := slots })

theorem idParent_of_childTasks (hu : u ∈ t.childTasks) : u.idParent = some t.id := by
  obtain ⟨c, -, rfl⟩ := mem_map.mp hu
  rfl

theorem processSingleTask_processed (hv : h.Valid cfg slots) :
    Processed cfg h q slots t (processSingleTask cfg h q slots t) := by
  unfold processSingleTask
  split
  · rename_i hu
    split
    · rename_i hs
      exact .deferred (.inl ⟨hu, hs⟩) fun hfit => exists_isProcessing_of_defer hv hfit hs
    · rename_i hs
      exact .dropped ⟨hu, .inl hs⟩
    · rename_i i childSlots hs
      have hjobs := jobs_of_launch hv hs
      unfold launchTask
      dsimp only
      split
      · exact .launched hu hjobs
      · rename_i k hk
        have hl : k = 0 → Lost cfg h slots t := by
          rintro rfl
          exact ⟨hu, .inr ⟨hk, by rw [hs]; rfl⟩⟩
        split
        · exact .launched hu hjobs
        · rename_i hlt
          split
          · refine .failed hu hjobs (by omega) hl fun j hj => ?_
            -- the launch of the task itself comes last
            rw [take_append_of_le_length (by simp at hlt ⊢; omega)] at hj
            exact idParent_of_childTasks (of_mem_zip (mem_of_mem_take hj)).2
          · rename_i hpar
            have hchild : t.childTasks = [] := by
              simpa [Task.childTasks, Task.isParent] using hpar
            have hk0 : k = 0 := by
              simp [hchild] at hlt
              exact hlt
            exact .dropped (hl hk0)
  · rename_i hu
    have hu : t.usesSlot = false := by simpa using hu
    split
    · rename_i ha
      split
      · rename_i hp
        apply Processed.deferred (.inr ⟨hu, ha⟩)
        intro _
        exact ⟨getSlotById cfg t.actionSlot, Nat.mod_lt _ cfg.nSlots_pos,
          (Bool.and_eq_true_iff.mp hp).2⟩
      · exact .other hu
    · split
      · exact .cancelled (by assumption) (by assumption)
      · exact .other hu

/-- A family that is launched in part is released again. -/
theorem released_of_failed (hj : Jobs cfg slots t jobs) {k : Nat} (hk : k < jobs.length)
    (hk0 : k ≠ 0) (hc : ∀ j ∈ jobs.take k, j.2.idParent = some t.id) :
    (Pool.releaseIf cfg.nSlots { slots := launchAll slots (jobs.take k) }
      fun _ => inFamily t.id).released ≠ [] := by
  have hne : jobs.take k ≠ [] := by
    intro h
    rcases take_eq_nil_iff.mp h with h | h
    · exact hk0 h
    · rw [h] at hk
      exact Nat.not_lt_zero k hk
  obtain ⟨⟨i, u⟩, hmem⟩ := exists_mem_of_ne_nil _ hne
  have hidle := hj.idle _ (mem_of_mem_take hmem)
  apply ne_nil_of_mem
  apply Pool.mem_released_releaseIf.mpr
  right
  refine ⟨hidle.1, launchAll_isProcessing_iff.mpr (.inr ⟨u, hmem⟩), ?_⟩
  rcases launchAll_cases slots (jobs.take k) i with hs | ⟨v, hv, hs⟩
  · have hrun : (launchAll slots (jobs.take k) i).isProcessing = true :=
      launchAll_isProcessing_iff.mpr (.inr ⟨u, hmem⟩)
    rw [hs, hidle.2] at hrun
    contradiction
  · dsimp only
    have hpar : v.idParent = some t.id := hc _ hv
    rw [hs, Slot.launch]
    simp [inFamily, hpar]

theorem cancelSlot_evolves (target : Nat) :
    Pool.Evolves { slots := slots } (cancelSlot cfg slots target) := by
  unfold cancelSlot
  split
  · exact .refl _
  · exact .releaseIf ..

/-- A processing slot goes on or is released, whatever the task is. -/
theorem Processed.isProcessing {q' : Queue} {p : Pool} (hp : Processed cfg h q slots t (q', p))
    {i : Nat} (hi : (slots i).isProcessing = true) :
    (p.slots i).isProcessing = true ∨ i ∈ p.released := by
  cases hp with
  | deferred => exact .inl hi
  | launched => exact .inl (launchAll_isProcessing_iff.mpr (.inl hi))
  | failed =>
    apply (Pool.Evolves.releaseIf cfg.nSlots _ _).isProcessing
    exact launchAll_isProcessing_iff.mpr (.inl hi)
  | dropped => exact .inl hi
  | cancelled => exact (cancelSlot_evolves _).isProcessing hi
  | other => exact .inl hi

/-- Where the tasks in the slots come from. -/
theorem Processed.placed {q' : Queue} {p : Pool} (hp : Processed cfg h q slots t (q', p)) :
    ∃ jobs : List (Nat × Task), (t.ids.Nodup → (jobs.map fun j => j.2.id).Nodup) ∧
      (∀ j ∈ jobs, t.usesSlot = true ∧ j.2.id ∈ t.ids ∧ q' = q ∧ j.1 < cfg.nSlots) ∧
      ∀ i u, (p.slots i).task = some u → (slots i).task = some u ∨ (i, u) ∈ jobs := by
  have hids : ∀ {jobs : List (Nat × Task)}, Jobs cfg slots t jobs → ∀ j ∈ jobs, j.2.id ∈ t.ids := by
    intro jobs hj j hmem
    rcases hj.tasks j hmem with hc | ht
    · exact id_mem_of_childTasks hc
    · rw [ht]
      exact t.id_mem_ids
  have hlaunch : ∀ {jobs : List (Nat × Task)} {i : Nat} {u : Task},
      (launchAll slots jobs i).task = some u → (slots i).task = some u ∨ (i, u) ∈ jobs := by
    intro jobs i u hu
    rcases launchAll_cases slots jobs i with hs | ⟨v, hv, hs⟩
    · rw [hs] at hu
      exact .inl hu
    · rw [hs, task_launch] at hu
      rw [← Option.some.inj hu]
      exact .inr hv
  have hnone : ∀ {q' : Queue} {p : Pool}, Pool.Evolves { slots := slots } p →
      ∃ jobs : List (Nat × Task), (t.ids.Nodup → (jobs.map fun j => j.2.id).Nodup) ∧
        (∀ j ∈ jobs, t.usesSlot = true ∧ j.2.id ∈ t.ids ∧ q' = q ∧ j.1 < cfg.nSlots) ∧
        ∀ i u, (p.slots i).task = some u → (slots i).task = some u ∨ (i, u) ∈ jobs := by
    intro q' p he
    exact ⟨[], fun _ => nodup_nil, by simp, fun i u hu => .inl (he.old i u hu)⟩
  cases hp with
  | deferred => exact hnone (.refl _)
  | launched hu hj =>
    exact ⟨_, hj.ids, fun j hmem => ⟨hu, hids hj j hmem, rfl, (hj.idle j hmem).1⟩,
      fun i u ht => hlaunch ht⟩
  | @failed jobs k hu hj hk hl hc =>
    refine ⟨jobs.take k, fun hnd => (hj.ids hnd).sublist ((take_sublist _ _).map _), ?_, ?_⟩
    · intro j hmem
      have hmem := mem_of_mem_take hmem
      exact ⟨hu, hids hj j hmem, rfl, (hj.idle j hmem).1⟩
    · exact fun i u ht => hlaunch ((Pool.Evolves.releaseIf ..).old i u ht)
  | dropped => exact hnone (.refl _)
  | cancelled => exact hnone (cancelSlot_evolves _)
  | other => exact hnone (.refl _)

end Process

end Llama.Server
