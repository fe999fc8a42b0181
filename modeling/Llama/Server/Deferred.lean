import Llama.Server.Loop

/-!
# Deferred tasks

Every release of a slot moves one deferred task back to the main queue. If that task takes a
slot, the release of this slot moves the next one, and so on; a task that does not take a slot
breaks the chain.
-/

namespace Llama.Server

open List

namespace State

/-- Some slot is processing. -/
def Busy (cfg : Config) (s : State) : Prop := ∃ i < cfg.nSlots, (s.slots i).isProcessing = true

/-- The main queue is empty and no task is being processed. -/
def Quiet (s : State) : Prop := s.queue.tasks = [] ∧ s.pending = [] ∧ s.phase.hand = []

/-- A deferred task has a processing slot to wait for. -/
def NotStranded (cfg : Config) (s : State) : Prop := s.Quiet → s.queue.deferred ≠ [] → s.Busy cfg

instance (cfg : Config) (s : State) : Decidable (s.Busy cfg) := by
  unfold Busy
  infer_instance

instance (s : State) : Decidable s.Quiet := by
  unfold Quiet
  infer_instance

instance (cfg : Config) (s : State) : Decidable (s.NotStranded cfg) := by
  unfold NotStranded
  infer_instance

end State

/-- While request 0 runs, requests 1 and 2 are deferred. Its slot is released and request 1 comes
back, but its grammar does not parse; nothing wakes request 2. -/
def strandingRun : List Action :=
  [.post [completion 0] false, .pop, .process { available := some 0 }, .noTasks,
    .update { nextId := 10, feed := fun _ => .fill 4 true, views := [{ logits := [0] }] },
    .post [completion 1] false, .post [completion 2] false, .wake,
    .pop, .process {}, .pop, .process {}, .pop, .process {}, .noTasks,
    .update { nextId := 11, views := [{ logits := [0], stops := [0] }] }, .callback, .wake,
    .pop, .process { available := some 0, fails := some 0 },
    .pop, .process { available := some 0 }]

theorem strandingRun_strands :
    ¬ ∀ (cfg : Config) (as : List Action) (s : State), run cfg as = some s → s.NotStranded cfg := by
  intro h
  have hrun : ((run oneSlot strandingRun).map fun s =>
      decide (s.NotStranded oneSlot)) = some false := by decide
  obtain ⟨s, hs, hno⟩ := Option.map_eq_some_iff.mp hrun
  exact of_decide_eq_false hno (h _ _ s hs)

/-- Some task of the list will take a slot. -/
def AnyUsesSlot (ts : List Task) : Prop := ∃ t ∈ ts, t.usesSlot = true

instance (ts : List Task) : Decidable (AnyUsesSlot ts) := by
  unfold AnyUsesSlot
  infer_instance

/-- The step does not lose the last task that could take a slot while every slot is idle and a
task stays deferred: neither a launch that fails, nor a cancellation, nor a release that brings
back a slot action takes it away. -/
def KeepsChain (cfg : Config) (s : State) : Action → Prop
  | .process h =>
    ∀ t ∈ s.phase.hand, Lost cfg h s.slots t →
      s.queue.deferred = [] ∨ s.Busy cfg ∨ AnyUsesSlot s.queue.tasks
  | .stop targets _ =>
    (∀ t ∈ s.queue.deferred, t.id ∈ targets) ∨ s.Busy cfg ∨ s.pending ≠ [] ∨
      AnyUsesSlot (s.phase.hand ++ s.queue.tasks.filter fun t => t.id ∉ targets)
  | .callback =>
    ∀ i ∈ s.pending, s.pending = [i] → ∀ t ∈ s.queue.nextDeferred i, t.usesSlot = false →
      s.queue.deferred.length = 1 ∨ s.Busy cfg ∨ AnyUsesSlot s.queue.tasks
  | _ => True

instance (cfg : Config) (s : State) : (a : Action) → Decidable (KeepsChain cfg s a)
  | .process _ | .stop _ _ | .callback => by
    unfold KeepsChain
    infer_instance
  | .post _ _ | .pop | .noTasks | .update _ | .wake => .isTrue trivial

/-- Something will move a deferred task back: a processing slot, a callback, or a task that takes
a slot. -/
def State.Chained (cfg : Config) (s : State) : Prop :=
  s.queue.deferred ≠ [] → s.Busy cfg ∨ s.pending ≠ [] ∨ AnyUsesSlot (s.phase.hand ++ s.queue.tasks)

section Chain

variable {cfg : Config} {s s' : State} {a : Action}

theorem AnyUsesSlot.mono {ts us : List Task} (h : AnyUsesSlot ts) (hsub : ts ⊆ us) :
    AnyUsesSlot us := by
  obtain ⟨t, ht, hu⟩ := h
  exact ⟨t, hsub ht, hu⟩

theorem chained_postTasks {ts : List Task} {front : Bool} (hc : s.Chained cfg)
    (h : ∀ t ∈ ts, t.type ≠ .cancel) (hs : s'.queue = s.queue.post ts front)
    (hb : s.Busy cfg → s'.Busy cfg ∨ s'.pending ≠ []) (hp : s.pending ≠ [] → s'.pending ≠ [])
    (hh : s'.phase.hand = s.phase.hand) : s'.Chained cfg := by
  intro hne
  rw [hs, (s.queue.post_perm front h).1] at hne
  rcases hc hne with hbusy | hpend | hu
  · exact (hb hbusy).imp_right .inl
  · exact .inr (.inl (hp hpend))
  · refine .inr (.inr (hu.mono ?_))
    intro t ht
    rw [hs, hh]
    rw [mem_append] at ht ⊢
    exact ht.imp_right fun ht => (s.queue.mem_post front h).mpr (.inl ht)

theorem chained_stop {targets ids : List Nat} (h : Stoppable s targets ids) (hs : s.Accounted)
    (hk : KeepsChain cfg s (.stop targets ids)) : State.Chained cfg { s with
      queue := s.queue.post (cancelTasks ids targets) true
      used := ids ++ s.used } := by
  obtain ⟨hd, hm⟩ := Queue.mem_postCancel (q := s.queue) h.2.1 (h.notMem hs)
  intro hne
  rcases hk with hall | hb | hp | hu
  · obtain ⟨t, ht⟩ := exists_mem_of_ne_nil _ hne
    obtain ⟨ht, hno⟩ := (hd t).mp ht
    exact absurd (hall t ht) hno
  · exact .inl hb
  · exact .inr (.inl hp)
  · refine .inr (.inr (hu.mono ?_))
    intro t ht
    rw [mem_append] at ht ⊢
    refine ht.imp_right fun ht => (hm t).mpr (.inl ?_)
    simpa using ht

theorem chained_callback {i : Nat} {rest : List Nat} (h : s.pending = i :: rest)
    (hk : KeepsChain cfg s .callback) :
    State.Chained cfg { s with queue := s.queue.popDeferredTask i, pending := rest } := by
  intro hne
  rcases s.queue.popDeferredTask_cases i with ⟨hd, hq⟩ | ⟨l, t, r, hd, hn, hq⟩
  · rw [hq] at hne
    exact absurd hd hne
  · rw [hq] at hne ⊢
    by_cases hrest : rest = []
    · -- the last callback of the call
      cases hu : t.usesSlot with
      | true => exact .inr (.inr ⟨t, mem_append_right _ mem_cons_self, hu⟩)
      | false =>
        have hp : s.pending = [i] := by rw [h, hrest]
        rcases hk i (by simp [hp]) hp t hn hu with hl | hb | hany
        · have hnil : l ++ r = [] := by
            apply eq_nil_of_length_eq_zero
            rw [hd] at hl
            simp only [length_append, length_cons] at hl ⊢
            omega
          exact absurd hnil hne
        · exact .inl hb
        · refine .inr (.inr (hany.mono ?_))
          intro u hu
          exact mem_append_right _ (mem_cons_of_mem t hu)
    · exact .inr (.inl hrest)

theorem chained_process {h : Handling} {t : Task} {q : Queue} {p : Pool} (hc : s.Chained cfg)
    (ht : t.childIds.length < cfg.nSlots) (hp : s.phase = .process t) (hq : s.pending = [])
    (hpr : Processed cfg h s.queue s.slots t (q, p)) (hk : KeepsChain cfg s (.process h)) :
    State.Chained cfg
      { s with queue := q, slots := p.slots, pending := p.released, phase := .tasks } := by
  have hhand : s.phase.hand = [t] := by rw [hp, Phase.hand]
  -- a processing slot goes on or its callback is pending
  have hbusy : s.Busy cfg → (∃ i < cfg.nSlots, (p.slots i).isProcessing = true) ∨
      p.released ≠ [] := by
    rintro ⟨i, hi, hproc⟩
    rcases hpr.isProcessing hproc with hgo | hrel
    · exact .inl ⟨i, hi, hgo⟩
    · exact .inr (ne_nil_of_mem hrel)
  -- the rest of the queue keeps its claim on a slot
  have hkeep : s.Busy cfg ∨ AnyUsesSlot s.queue.tasks →
      (∃ i < cfg.nSlots, (p.slots i).isProcessing = true) ∨ p.released ≠ [] ∨
        AnyUsesSlot s.queue.tasks := by
    rintro (hb | hu)
    · exact (hbusy hb).imp_right .inl
    · exact .inr (.inr hu)
  have hrest : s.queue.deferred ≠ [] → t.usesSlot = false →
      s.Busy cfg ∨ AnyUsesSlot s.queue.tasks := by
    intro hne hu
    rcases hc hne with hb | hpend | ⟨v, hv, huv⟩
    · exact .inl hb
    · exact absurd hq hpend
    · rw [hhand] at hv
      rcases mem_append.mp hv with hv | hv
      · rw [mem_singleton.mp hv, hu] at huv
        contradiction
      · exact .inr ⟨v, hv, huv⟩
  intro hne
  cases hpr with
  | deferred hw hb => exact hkeep (.inl (hb ht))
  | launched hu hj =>
    obtain ⟨i, hi, -⟩ := hj.own
    exact .inl ⟨i, (hj.idle _ hi).1, launchAll_isProcessing_iff.mpr (.inr ⟨t, hi⟩)⟩
  | @failed jobs k hu hj hlt hl hchild =>
    by_cases hk0 : k = 0
    · exact hkeep (Or.resolve_left (hk t (by simp [hhand]) (hl hk0)) hne)
    · exact .inr (.inl (released_of_failed hj hlt hk0 hchild))
  | dropped hl => exact hkeep (Or.resolve_left (hk t (by simp [hhand]) hl) hne)
  | cancelled hty htgt =>
    refine hkeep (hrest hne ?_)
    simp [Task.usesSlot, hty]
  | other hu => exact hkeep (hrest hne hu)

theorem chained_update {r : Round} (hc : s.Chained cfg) (hq : s.pending = [])
    (hp : s.phase = .update) : (updateSlots cfg r s).Chained cfg := by
  have hhand : s.phase.hand = [] := by
    rw [hp]
    rfl
  unfold updateSlots
  split
  · intro hne
    have hw := hc hne
    rwa [hhand] at hw
  · have hnext : ∀ t ∈ [({ id := r.nextId, type := .nextResponse } : Task)], t.type ≠ .cancel := by
      simp
    refine chained_postTasks hc hnext rfl ?_ (fun h => absurd hq h) hhand.symm
    rintro ⟨i, hi, hproc⟩
    rcases (round_evolves cfg r s.slots).isProcessing hproc with hgo | hrel
    · exact .inl ⟨i, hi, hgo⟩
    · exact .inr (ne_nil_of_mem hrel)

/-- The loop moves on with empty hands. -/
theorem chained_phase {ph : Phase} (hc : s.Chained cfg) (h : s.phase.hand = [])
    (hph : ph.hand = []) : State.Chained cfg { s with phase := ph } := by
  intro hne
  have hw := hc hne
  rw [h] at hw
  rwa [hph]

theorem chained_step (hs : s.Accounted) (ht : s.Rooted cfg) (hc : s.Chained cfg)
    (hk : KeepsChain cfg s a) (h : Step cfg s a s') : s'.Chained cfg := by
  cases h with
  | post h =>
    exact chained_postTasks hc (fun t ht => (h.2.2 t ht).1) rfl (fun hb => .inl hb) id rfl
  | stop h => exact chained_stop h hs hk
  | callback h => exact chained_callback h hk
  | pop hp hq hl =>
    intro hne
    have hw := hc hne
    rwa [hp, hl] at hw
  | noTasks hp =>
    apply chained_phase hc
    · rw [hp]
      rfl
    · rfl
  | @process h t q p hp hq hv hr =>
    have hfit := (ht t (.inl (by simp [hp, Phase.hand]))).2
    exact chained_process hc hfit hp hq (hr ▸ processSingleTask_processed hv) hk
  | update hp hq => exact chained_update hc hq hp
  | wake hp =>
    apply chained_phase hc
    · rw [hp]
      rfl
    · rfl

/-- In a run that never loses the last task that could take a slot, no task is stranded. -/
theorem deferred_notStranded {as : List Action}
    (hk : Run.Meets (step cfg) (KeepsChain cfg) {} as) (h : run cfg as = some s) :
    s.NotStranded cfg := by
  have hinv : s.Accounted ∧ s.Rooted cfg ∧ s.Chained cfg := by
    refine Run.exec_invariant (P := KeepsChain cfg)
      (I := fun s => s.Accounted ∧ s.Rooted cfg ∧ s.Chained cfg) ?_ ?_ hk h
    · rintro s a s' ⟨hs, ht, hc⟩ hk hstep
      have hst := (step_cases hstep).2
      exact ⟨accounted_step hs hst, rooted_step hs ht hst, chained_step hs ht hc hk hst⟩
    · refine ⟨by simp [State.Accounted], ?_, fun hne => absurd rfl hne⟩
      simp [State.Rooted, Phase.hand, Queue.all]
  rintro ⟨hq, hp, hh⟩ hne
  rcases hinv.2.2 hne with hb | hpend | ⟨t, ht, -⟩
  · exact hb
  · exact absurd hp hpend
  · rw [hq, hh] at ht
    simp at ht

end Chain

/-- Request 1 is launched this time, and request 2 waits for its slot. -/
def chainedRun : List Action :=
  strandingRun.take 19 ++ [.process { available := some 0 }, .pop, .process {}]

theorem deferred_notStranded_chainedRun :
    ∃ s, run oneSlot chainedRun = some s ∧ s.Quiet ∧ s.queue.deferred = [completion 2] ∧
      s.NotStranded oneSlot := by
  have hrun : ((run oneSlot chainedRun).map fun s =>
      decide (s.Quiet ∧ s.queue.deferred = [completion 2])) = some true := by decide
  have hk : Run.Meets (step oneSlot) (KeepsChain oneSlot) {} chainedRun := by decide
  obtain ⟨s, hs, hstate⟩ := Option.map_eq_some_iff.mp hrun
  obtain ⟨hq, hd⟩ := of_decide_eq_true hstate
  exact ⟨s, hs, hq, hd, deferred_notStranded hk hs⟩

end Llama.Server
