import Mathlib
import Llama.Server.Waiting

/-!
# Cancelled tasks

A reader that stops removes its tasks from both queues and posts a cancellation for each id,
which releases the slot that holds it. The main loop may hold such a task at that moment. If
it then launches the task, the cancellation still finds it; if it defers the task, nothing does.
-/

namespace Llama.Server

open List Option

section Cancel

variable {cfg : Config} {s s' : State} {a : Action}

/-- The id is nowhere, and no later task gets it. -/
structure State.Gone (x : Nat) (s : State) : Prop where
  used : x ∈ s.used
  waiting : ∀ t ∈ s.waiting, x ∉ t.ids
  slots : ∀ i u, (s.slots i).task = some u → u.id ≠ x

/-- The id has left the queues, and no later task gets it. -/
structure State.Left (x : Nat) (s : State) : Prop where
  used : x ∈ s.used
  waiting : ∀ t ∈ s.waiting, x ∉ t.ids

theorem left_step {x : Nat} (hl : s.Left x) (h : Step cfg s a s') : s'.Left x := by
  rcases step_waiting h with ⟨ts, front, rfl⟩ | ⟨hd, rfl⟩ | hsh
  · cases h with
    | post hp =>
      have hcancel : ∀ t ∈ ts, t.type ≠ .cancel := fun t ht => (hp.2.2 t ht).1
      refine ⟨mem_append_right _ hl.used, fun t ht hmem => ?_⟩
      obtain ⟨ht, hu⟩ := State.mem_waiting.mp ht
      rw [Queue.mem_all, s.queue.mem_post front hcancel, (s.queue.post_perm front hcancel).1] at ht
      by_cases hnew : t ∈ ts
      · exact hp.2.1 x (mem_flatMap.mpr ⟨t, hnew, hmem⟩) hl.used
      · refine hl.waiting t (State.mem_waiting.mpr ⟨?_, hu⟩) hmem
        rw [Queue.mem_all]
        tauto
  · cases h with
    | @process _ t q p hp hq hv hr =>
      have hpr : Processed cfg hd s.queue s.slots t (q, p) := hr ▸ processSingleTask_processed hv
      exact ⟨hl.used, fun u hu => hl.waiting u ((waiting_process hp hpr).subset hu)⟩
  · exact ⟨hsh.used hl.used, fun t ht => hl.waiting t (hsh.waiting.subset ht)⟩

/-- An id that is gone never comes back. -/
theorem gone_step {x : Nat} (hg : s.Gone x) (h : Step cfg s a s') : s'.Gone x := by
  obtain ⟨hused, hwaiting⟩ := left_step ⟨hg.used, hg.waiting⟩ h
  refine ⟨hused, hwaiting, fun i u hu heq => ?_⟩
  rcases step_waiting h with ⟨ts, front, rfl⟩ | ⟨hd, rfl⟩ | hsh
  · cases h with
    | post hp => exact hg.slots i u hu heq
  · cases h with
    | @process _ t q p hp hq hv hr =>
      have hpr : Processed cfg hd s.queue s.slots t (q, p) := hr ▸ processSingleTask_processed hv
      obtain ⟨jobs, -, hjobs, hplaced⟩ := hpr.placed
      rcases hplaced i u hu with hold | hj
      · exact hg.slots i u hold heq
      · have ht : t ∈ s.waiting := by
          rw [State.mem_waiting, hp]
          exact ⟨.inl mem_cons_self, (hjobs _ hj).1⟩
        exact hg.waiting t ht (heq ▸ (hjobs _ hj).2.1)
  · exact hg.slots i u (hsh.slots i u hu) heq

/-- The loop does not defer a task while a cancellation of it, or of a child of it, waits in the
main queue. -/
def DefersClean (cfg : Config) (s : State) : Action → Prop
  | .process h =>
    ∀ t ∈ s.phase.hand, t.usesSlot = true → schedule cfg h s.slots t = .defer →
      ∀ c ∈ s.queue.tasks, c.type = .cancel → ∀ x ∈ c.idTarget, x ∉ t.ids
  | _ => True

instance (cfg : Config) (s : State) : (a : Action) → Decidable (DefersClean cfg s a)
  | .process _ => by
    unfold DefersClean
    infer_instance
  | .post _ _ | .stop _ _ | .pop | .noTasks | .update _ | .wake | .callback => .isTrue trivial

/-- What a cancellation looks for is in a slot or with the loop, but in neither queue. -/
structure State.Clean (s : State) : Prop where
  target : ∀ c ∈ s.phase.hand ++ s.queue.tasks, c.type = .cancel → ∀ x ∈ c.idTarget,
    x ∈ s.used ∧ ∀ t ∈ s.queue.all, t.usesSlot = true → x ∉ t.ids
  deferred : ∀ t ∈ s.queue.deferred, t.type ≠ .cancel

theorem State.Clean.mono (h : s.Clean)
    (hc : ∀ c ∈ s'.phase.hand ++ s'.queue.tasks, c.type = .cancel →
      c ∈ s.phase.hand ++ s.queue.tasks)
    (ht : ∀ t ∈ s'.queue.all, t.usesSlot = true → t ∈ s.queue.all) (hu : s.used ⊆ s'.used)
    (hd : ∀ t ∈ s'.queue.deferred, t.type ≠ .cancel) : s'.Clean where
  target c hmem hty x hx := by
    obtain ⟨hxu, hno⟩ := h.target c (hc c hmem hty) hty x hx
    exact ⟨hu hxu, fun t htm hus => hno t (ht t htm hus) hus⟩
  deferred := hd

theorem clean_post {ts : List Task} {front : Bool} (hc : s.Clean) (hp : Postable cfg s.used ts) :
    State.Clean { s with
      queue := s.queue.post ts front
      used := requestIds ts ++ s.used
      readers := requestIds ts :: s.readers } := by
  have hcancel : ∀ t ∈ ts, t.type ≠ .cancel := fun t ht => (hp.2.2 t ht).1
  have hd := (s.queue.post_perm front hcancel).1
  constructor
  · intro c hmem hty x hx
    have hold : c ∈ s.phase.hand ++ s.queue.tasks := by
      rw [mem_append, s.queue.mem_post front hcancel] at hmem
      rcases hmem with hmem | hmem | hmem
      · exact mem_append_left _ hmem
      · exact mem_append_right _ hmem
      · exact absurd hty (hcancel c hmem)
    obtain ⟨hxu, hno⟩ := hc.target c hold hty x hx
    refine ⟨mem_append_right _ hxu, fun t ht hu hmem => ?_⟩
    rw [Queue.mem_all, s.queue.mem_post front hcancel, hd] at ht
    by_cases hnew : t ∈ ts
    · exact hp.2.1 x (mem_flatMap.mpr ⟨t, hnew, hmem⟩) hxu
    · refine hno t ?_ hu hmem
      rw [Queue.mem_all]
      tauto
  · dsimp only
    rw [hd]
    exact hc.deferred

/-- A reader that stops leaves none of its tasks in the queues. -/
theorem clean_stop {targets ids : List Nat} (hc : s.Clean) (hs : s.Distinct)
    (h : Stoppable s targets ids) : State.Clean { s with
      queue := s.queue.post (cancelTasks ids targets) true
      used := ids ++ s.used } := by
  obtain ⟨hd, hm⟩ := Queue.mem_postCancel (q := s.queue) h.2.1 (h.notMem hs.accounted)
  obtain ⟨⟨r, hr, hperm⟩, -⟩ := h
  have hall : ∀ t ∈ (s.queue.post (cancelTasks ids targets) true).all, t.usesSlot = true →
      t ∈ s.queue.all ∧ t.id ∉ targets := by
    intro t ht hu
    rw [Queue.mem_all, hm, hd] at ht
    rcases ht with (ht | ht) | ht
    · exact ⟨Queue.mem_all.mpr (.inl ht.1), ht.2⟩
    · obtain ⟨i, -, x, -, rfl⟩ := mem_cancelTasks ht
      simp [Task.usesSlot, cancelTask] at hu
    · exact ⟨Queue.mem_all.mpr (.inr ht.1), ht.2⟩
  constructor
  · intro c hmem hty x hx
    rw [mem_append, hm] at hmem
    by_cases hnew : c ∈ cancelTasks ids targets
    · obtain ⟨i, -, y, hy, rfl⟩ := mem_cancelTasks hnew
      obtain rfl : y = x := some.inj hx
      have hyr := hperm.mem_iff.mp hy
      refine ⟨mem_append_right _ (hs.accounted r hr y hyr), fun t ht hu hmem => ?_⟩
      -- the whole family of `t` has the same reader, which cancels `t` itself as well
      obtain ⟨htq, hno⟩ := hall t ht hu
      obtain ⟨r', hr', hsub⟩ := hs.family t (State.mem_waiting.mpr ⟨.inr htq, hu⟩)
      obtain rfl := hs.readers r hr r' hr' y hyr (hsub hmem)
      exact hno (hperm.mem_iff.mpr (hsub t.id_mem_ids))
    · have hold : c ∈ s.phase.hand ++ s.queue.tasks := by
        rw [mem_append]
        tauto
      obtain ⟨hxu, hno⟩ := hc.target c hold hty x hx
      exact ⟨mem_append_right _ hxu, fun t ht hu => hno t (hall t ht hu).1 hu⟩
  · exact fun t ht => hc.deferred t ((hd t).mp ht).1

theorem clean_process {h : Handling} {t : Task} {q : Queue} {p : Pool} (hc : s.Clean)
    (hp : s.phase = .process t) (hpr : Processed cfg h s.queue s.slots t (q, p))
    (hk : DefersClean cfg s (.process h)) : State.Clean
      { s with queue := q, slots := p.slots, pending := p.released, phase := .tasks } := by
  have hsame : ∀ {s' : State}, s'.queue = s.queue → s'.phase = .tasks → s'.used = s.used →
      s'.Clean := by
    intro s' hq hph hu
    refine hc.mono ?_ ?_ ?_ ?_
    · intro c hmem _
      rw [hq, hph] at hmem
      exact mem_append_right _ hmem
    · intro u hmem _
      rwa [hq] at hmem
    · rw [hu]
      exact List.Subset.refl _
    · rw [hq]
      exact hc.deferred
  cases hpr with
  | deferred hw hb =>
    constructor
    · intro c hmem hty x hx
      obtain ⟨hxu, hno⟩ := hc.target c (mem_append_right _ hmem) hty x hx
      refine ⟨hxu, fun u hu hus hin => ?_⟩
      rcases Queue.mem_all_defer.mp hu with hu | rfl
      · exact hno u hu hus hin
      · rcases hw with ⟨-, hdef⟩ | ⟨hn, -⟩
        · exact hk u (by simp [hp, Phase.hand]) hus hdef c hmem hty x hx hin
        · rw [hn] at hus
          contradiction
    · intro u hu
      rcases mem_append.mp hu with hu | hu
      · exact hc.deferred u hu
      · rw [mem_singleton.mp hu]
        intro hty
        rcases hw with ⟨hus, -⟩ | ⟨-, hact⟩
        · simp [Task.usesSlot, hty] at hus
        · simp [Task.isSlotAction, hty] at hact
  | launched => exact hsame rfl rfl rfl
  | failed => exact hsame rfl rfl rfl
  | dropped => exact hsame rfl rfl rfl
  | cancelled => exact hsame rfl rfl rfl
  | other => exact hsame rfl rfl rfl

theorem clean_step (hs : s.Distinct) (hc : s.Clean) (hk : DefersClean cfg s a)
    (h : Step cfg s a s') : s'.Clean := by
  cases h with
  | post hp => exact clean_post hc hp
  | stop hp => exact clean_stop hc hs hp
  | callback hp =>
    rcases s.queue.popDeferredTask_cases _ with ⟨-, hq⟩ | ⟨l, t, r, hd, -, hq⟩
    · rw [hq]
      exact hc.mono (fun c hmem _ => hmem) (fun t ht _ => ht) (List.Subset.refl _) hc.deferred
    · have ht : t ∈ s.queue.deferred := by simp [hd]
      refine hc.mono ?_ (fun u hu _ => Queue.mem_all_popDeferredTask.mp hu) (List.Subset.refl _) ?_
      · intro c hmem hty
        rw [hq] at hmem
        simp only [mem_append, mem_cons] at hmem ⊢
        rcases hmem with hmem | rfl | hmem
        · exact .inl hmem
        · exact absurd hty (hc.deferred c ht)
        · exact .inr hmem
      · intro u hu
        rw [hq] at hu
        apply hc.deferred
        rw [hd]
        simp only [mem_append, mem_cons] at hu ⊢
        tauto
  | pop hp hq ht =>
    refine hc.mono ?_ ?_ (List.Subset.refl _) hc.deferred
    · intro c hmem _
      rw [hp, ht]
      exact hmem
    · intro u hu _
      rw [Queue.mem_all] at hu ⊢
      rw [ht]
      exact hu.imp_left (mem_cons_of_mem _)
  | noTasks hp =>
    exact hc.mono (fun c hmem _ => mem_append_right _ hmem) (fun t ht _ => ht)
      (List.Subset.refl _) hc.deferred
  | process hp hq hv hr => exact clean_process hc hp (hr ▸ processSingleTask_processed hv) hk
  | @update r hp =>
    unfold updateSlots
    split
    · exact hc.mono (fun c hmem _ => mem_append_right _ hmem) (fun t ht _ => ht)
        (List.Subset.refl _) hc.deferred
    · have hnext : ∀ t ∈ [({ id := r.nextId, type := .nextResponse } : Task)],
          t.type ≠ .cancel := by
        simp
      have hd := (s.queue.post_perm false hnext).1
      refine hc.mono ?_ ?_ (subset_cons_self _ _) ?_
      · intro c hmem hty
        rcases (s.queue.mem_post false hnext).mp hmem with hmem | hmem
        · exact mem_append_right _ hmem
        · exact absurd hty (hnext c hmem)
      · intro u hu hus
        have := mem_filter.mpr ⟨hu, hus⟩
        rw [s.queue.filter_postNext r.nextId] at this
        exact mem_of_mem_filter this
      · dsimp only
        rw [hd]
        exact hc.deferred
  | wake hp =>
    exact hc.mono (fun c hmem _ => mem_append_right _ hmem) (fun t ht _ => ht)
      (List.Subset.refl _) hc.deferred

/-- A cancellation releases the one slot that holds its target. -/
theorem cancelSlot_id_ne {x : Nat} (hs : s.Distinct) (hw : s.Within cfg) {i : Nat} {u : Task}
    (hu : ((cancelSlot cfg s.slots x).slots i).task = some u) : u.id ≠ x := by
  intro heq
  have hold := (cancelSlot_evolves x).old i u hu
  have hi := hw i u hold
  have hholds : (s.slots i).holds x = true := Slot.holds_iff.mpr ⟨u, hold, heq⟩
  unfold cancelSlot at hu
  split at hu
  · rename_i hnone
    have := find?_eq_none.mp hnone i (mem_range.mpr hi)
    exact this hholds
  · rename_i j hj
    have hjx := find?_some hj
    obtain ⟨v, hv, hvx⟩ := Slot.holds_iff.mp hjx
    obtain rfl : i = j := hs.slots i j u v hold hv (heq.trans hvx.symm)
    rw [Pool.releaseIf_of_pos hi (by simp)] at hu
    simp [Slot.task] at hu

/-- The invariants of a run that defers no task with a cancellation on its way. -/
theorem run_clean {as : List Action} (hk : Run.Meets (step cfg) (DefersClean cfg) {} as)
    (h : run cfg as = some s) : s.Distinct ∧ s.Within cfg ∧ s.Clean := by
  refine Run.exec_invariant (P := DefersClean cfg)
    (I := fun s => s.Distinct ∧ s.Within cfg ∧ s.Clean) ?_ ?_ hk h
  · rintro s a s' ⟨hs, hw, hc⟩ hk hstep
    have hst := (step_cases hstep).2
    exact ⟨distinct_step hs hst, within_step hw hst, clean_step hs hc hk hst⟩
  · refine ⟨⟨by simp [State.waiting, Phase.hand, Queue.all], ?_, ?_, ?_, ?_, ?_, ?_⟩, ?_, ⟨?_, ?_⟩⟩
    all_goals simp [State.Within, State.Accounted, State.waiting, Phase.hand, Queue.all, Slot.task]

/-- After its cancellation was processed no slot holds the task, in any continuation of a run that
deferred no task with a cancellation on its way. -/
theorem cancelled_task_never_runs {as bs : List Action} {c : Task} {h : Handling} {x : Nat}
    (hk : Run.Meets (step cfg) (DefersClean cfg) {} as) (hrun : run cfg as = some s)
    (hp : s.phase = .process c) (hty : c.type = .cancel) (hx : c.idTarget = some x)
    (hrest : Run.exec (step cfg) s (.process h :: bs) = some s') :
    ∀ i, (s'.slots i).holds x = false := by
  obtain ⟨hs, hw, hc⟩ := run_clean hk hrun
  obtain ⟨s₁, hstep, hrest⟩ := Run.exec_cons_eq_some.mp hrest
  have hgone : s₁.Gone x := by
    obtain ⟨hxu, hno⟩ := hc.target c (by simp [hp, Phase.hand]) hty x hx
    have hst := (step_cases hstep).2
    cases hst with
    | @process _ t q p hp' hq hv hr =>
      obtain rfl : c = t := Phase.process.inj (hp.symm.trans hp')
      have hcancel : processSingleTask cfg h s.queue s.slots c =
          (s.queue, cancelSlot cfg s.slots x) := by
        unfold processSingleTask
        rw [if_neg (by simp [Task.usesSlot, hty]),
          if_neg (by simp [Task.isSlotAction, hty]), hty, hx]
      rw [hcancel] at hr
      obtain ⟨rfl, rfl⟩ := Prod.mk.inj hr
      refine ⟨hxu, fun t ht => ?_, fun i u hu => cancelSlot_id_ne hs hw hu⟩
      obtain ⟨ht, hu⟩ := State.mem_waiting.mp ht
      rcases ht with ht | ht
      · simp [Phase.hand] at ht
      · exact hno t ht hu
  have hfinal : s'.Gone x :=
    Run.exec_invariant (P := fun _ _ => True) (I := State.Gone x)
      (fun s a s' hg _ hstep => gone_step hg (step_cases hstep).2) hgone
      (Run.meets_true _ _) hrest
  intro i
  rw [Bool.eq_false_iff]
  intro hholds
  obtain ⟨u, hu, hid⟩ := Slot.holds_iff.mp hholds
  exact hfinal.slots i u hu hid

end Cancel

/-- Request 0 is with the loop when it is cancelled, and the loop launches it. -/
def lateCancelRun : List Action :=
  [.post [completion 0] false, .pop, .stop [0] [5], .process { available := some 0 }, .pop]

theorem cancelled_task_never_runs_lateCancelRun :
    ∃ s s', run oneSlot lateCancelRun = some s ∧ s.slots 0 = .busy .started (completion 0) ∧
      s.phase = .process (cancelTask 5 0) ∧
      Run.exec (step oneSlot) s [.process {}, .callback] = some s' ∧
      ∀ i, (s'.slots i).holds 0 = false := by
  have hk : Run.Meets (step oneSlot) (DefersClean oneSlot) {} lateCancelRun := by decide
  have hrun : ((run oneSlot lateCancelRun).map fun s =>
      decide (s.slots 0 = .busy .started (completion 0) ∧ s.phase = .process (cancelTask 5 0) ∧
        (Run.exec (step oneSlot) s [.process {}, .callback]).isSome = true)) = some true := by
    decide
  obtain ⟨s, hs, hstate⟩ := map_eq_some_iff.mp hrun
  obtain ⟨hslot, hp, hrest⟩ := of_decide_eq_true hstate
  obtain ⟨s', hs'⟩ := isSome_iff_exists.mp hrest
  exact ⟨s, s', hs, hslot, hp, hs', cancelled_task_never_runs hk hs hp rfl rfl hs'⟩

/-- Request 1 is with the loop when it is cancelled, but finds no slot and is deferred. -/
def revivingRun : List Action :=
  [.post [completion 0] false, .pop, .process { available := some 0 }, .noTasks,
    .update { nextId := 10, feed := fun _ => .fill 4 true, views := [{ logits := [0] }] },
    .post [completion 1] false, .wake, .pop, .process {}, .pop, .stop [1] [11], .process {}, .pop]

/-- The release of the only slot brings the cancelled request back. -/
def revivingRest : List Action :=
  [.noTasks, .update { nextId := 12, views := [{ logits := [0], stops := [0] }] }, .callback,
    .wake, .pop, .process { available := some 0 }]

theorem revivingRun_revives :
    ¬ ∀ (cfg : Config) (as bs : List Action) (s s' : State) (c : Task) (h : Handling) (x : Nat),
      run cfg as = some s → s.phase = .process c → c.type = .cancel → c.idTarget = some x →
      Run.exec (step cfg) s (.process h :: bs) = some s' → ∀ i, (s'.slots i).holds x = false := by
  intro hall
  have hrun : ((run oneSlot revivingRun).bind fun s =>
      if s.phase = .process (cancelTask 11 1) then
        (Run.exec (step oneSlot) s (.process {} :: revivingRest)).map fun s' =>
          (s'.slots 0).holds 1
      else none) = some true := by decide
  obtain ⟨s, hs, hrest⟩ := bind_eq_some_iff.mp hrun
  split at hrest
  · rename_i hp
    obtain ⟨s', hs', hholds⟩ := map_eq_some_iff.mp hrest
    have := hall _ _ _ s s' _ _ 1 hs hp rfl rfl hs' 0
    rw [hholds] at this
    contradiction
  · contradiction

variable {cfg : Config} {s s' : State}

/-- A task is served once: when the slot that held it has let it go, no slot ever holds it
again, in any continuation of any run. -/
theorem task_served_once {as bs cs : List Action} {s'' : State} {i x : Nat}
    (hrun : run cfg as = some s) (hi : (s.slots i).holds x = true)
    (hmid : Run.exec (step cfg) s bs = some s')
    (hfree : ∀ j < cfg.nSlots, (s'.slots j).holds x = false)
    (hrest : Run.exec (step cfg) s' cs = some s'') : ∀ j, (s''.slots j).holds x = false := by
  have hs : s.Distinct ∧ s.Within cfg := by
    refine Run.exec_invariant (P := fun _ _ => True) (I := fun s => s.Distinct ∧ s.Within cfg)
      ?_ ?_ (Run.meets_true _ _) hrun
    · rintro s a s' ⟨hs, hw⟩ - hstep
      exact ⟨distinct_step hs (step_cases hstep).2, within_step hw (step_cases hstep).2⟩
    · refine ⟨⟨by simp [State.waiting, Phase.hand, Queue.all], ?_, ?_, ?_, ?_, ?_, ?_⟩, ?_⟩
      all_goals
        simp [State.Within, State.Accounted, State.waiting, Phase.hand, Queue.all, Slot.task]
  obtain ⟨u, hu, rfl⟩ := Slot.holds_iff.mp hi
  have hleft : s'.Left u.id ∧ s'.Within cfg :=
    Run.exec_invariant (P := fun _ _ => True) (I := fun s => s.Left u.id ∧ s.Within cfg)
      (fun s a s' hl _ hstep => ⟨left_step hl.1 (step_cases hstep).2,
        within_step hl.2 (step_cases hstep).2⟩)
      ⟨⟨hs.1.slotUsed i u hu, hs.1.apart i u hu⟩, hs.2⟩ (Run.meets_true _ _) hmid
  have hgone : s'.Gone u.id := by
    refine ⟨hleft.1.used, hleft.1.waiting, fun j v hv heq => ?_⟩
    have := hfree j (hleft.2 j v hv)
    rw [Slot.holds_iff.mpr ⟨v, hv, heq⟩] at this
    cases this
  have hfinal : s''.Gone u.id :=
    Run.exec_invariant (P := fun _ _ => True) (I := State.Gone u.id)
      (fun s a s' hg _ hstep => gone_step hg (step_cases hstep).2) hgone
      (Run.meets_true _ _) hrest
  intro j
  rw [Bool.eq_false_iff]
  intro hholds
  obtain ⟨v, hv, hid⟩ := Slot.holds_iff.mp hholds
  exact hfinal.slots j v hv hid

/-- The cancelled request leaves its slot. -/
theorem task_served_once_lateCancelRun :
    ∃ s s' s'', run oneSlot lateCancelRun = some s ∧ (s.slots 0).holds 0 = true ∧
      Run.exec (step oneSlot) s [.process {}] = some s' ∧
      Run.exec (step oneSlot) s' [.callback] = some s'' ∧ ∀ j, (s''.slots j).holds 0 = false := by
  have hrun : ((run oneSlot lateCancelRun).bind fun s =>
      (Run.exec (step oneSlot) s [.process {}]).map fun s' =>
        decide ((s.slots 0).holds 0 = true ∧ (s'.slots 0).holds 0 = false ∧
          (Run.exec (step oneSlot) s' [.callback]).isSome = true)) = some true := by
    decide
  obtain ⟨s, hs, hmap⟩ := bind_eq_some_iff.mp hrun
  obtain ⟨s', hs', hstate⟩ := map_eq_some_iff.mp hmap
  obtain ⟨hheld, hfree, hrest⟩ := of_decide_eq_true hstate
  obtain ⟨s'', hs''⟩ := isSome_iff_exists.mp hrest
  exact ⟨s, s', s'', hs, hheld, hs', hs'',
    task_served_once hs hheld hs' (fun j hj => Nat.lt_one_iff.mp hj ▸ hfree) hs''⟩

end Llama.Server
