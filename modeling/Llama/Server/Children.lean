import Llama.Lib.Loop
import Llama.Server.Waiting

/-!
# Children that wait for their parent

A request for several completions runs its prompt in one slot; the others wait for a copy of the
state. Whoever releases the slot of the parent before that has to take care of the children,
which only a failed launch and a fatal decoding error do.
-/

namespace Llama.Server

open List

/-- The slot holds a child of the task that waits for it. -/
def Slot.waitsFor (id : Nat) : Slot → Bool
  | .busy .waitOther c => c.idParent == some id
  | _ => false

/-- A task with a child that still waits. -/
def HasWaiting (cfg : Config) (slots : Nat → Slot) (p : Task) : Prop :=
  p.isParent = true ∧ ∃ k < cfg.nSlots, (slots k).waitsFor p.id = true

instance (cfg : Config) (slots : Nat → Slot) (p : Task) : Decidable (HasWaiting cfg slots p) := by
  unfold HasWaiting
  infer_instance

/-- The prompt adds a token to the batch. -/
def Feed.adds : Feed → Bool
  | .imageError => false
  | .fill n _ => 0 < n

def Feed.isImageError : Feed → Bool
  | .imageError => true
  | .fill _ _ => false

/-- The slot brings a token to a batch that is still empty. -/
def brings (cfg : Config) (r : Round) (i : Nat) (s : Slot) : Bool :=
  let feeds (t : Task) : Bool :=
    !r.unlike.contains i && (canSplit cfg t || t.nTokens ≤ cfg.nBatch) && (r.feed i).adds
  match s with
  | .busy .generating _ => !r.shiftFails.contains i
  | .busy .started t => !promptError cfg t && feeds t
  | .busy .processingPrompt t => feeds t
  | _ => false

/-- The slot processes a task and does not wait for its parent. -/
def Slot.works : Slot → Bool
  | .idle | .busy .waitOther _ => false
  | .busy _ _ => true

theorem Slot.works_busy {st : SlotState} (t : Task) (h : st ≠ .waitOther) :
    (Slot.busy st t).works = true := by
  cases st with
  | waitOther => exact absurd rfl h
  | _ => rfl

/-- The step does not release a parent whose children wait, by a cancellation or by the checks of
its prompt, and after three empty rounds in a row slots that work have something to decode. -/
def TendsChildren (cfg : Config) (s : State) : Action → Prop
  | .process _ =>
    ∀ c ∈ s.phase.hand, c.type = .cancel → ∀ x ∈ c.idTarget, ∀ i < cfg.nSlots,
      ∀ p ∈ (s.slots i).task, p.id = x → ¬ HasWaiting cfg s.slots p
  | .update r =>
    (∀ i < cfg.nSlots, ∀ p ∈ (s.slots i).task, HasWaiting cfg s.slots p →
      (s.slots i = .busy .started p → promptError cfg p = false) ∧
        (r.feed i).isImageError = false) ∧
    (3 ≤ s.empties → (∃ i < cfg.nSlots, (s.slots i).works = true) →
      ∃ i < cfg.nSlots, brings cfg r i (s.slots i) = true)
  | _ => True

instance (cfg : Config) (s : State) : (a : Action) → Decidable (TendsChildren cfg s a)
  | .process _ | .update _ => by
    unfold TendsChildren
    infer_instance
  | .post _ _ | .stop _ _ | .pop | .noTasks | .wake | .callback => .isTrue trivial

/-- Waiting children have a live parent, they are never alone, and the server runs on. -/
structure State.Tended (s : State) : Prop where
  parent : ∀ i c, s.slots i = .busy .waitOther c →
    ∃ j st p, s.slots j = .busy st p ∧ c.idParent = some p.id
  active : (∃ i, (s.slots i).isProcessing = true) →
    ∃ i st t, s.slots i = .busy st t ∧ st ≠ .waitOther
  running : s.aborted = false

/-- The states of a parent before its children are activated. -/
def SlotState.beforeCopy : SlotState → Bool
  | .started | .processingPrompt | .donePrompt => true
  | _ => false

/-- Every waiting child has a parent that will copy its state. -/
def Guarded (slots : Nat → Slot) : Prop :=
  ∀ i c, slots i = .busy .waitOther c → ∃ j st p, slots j = .busy st p ∧
    st.beforeCopy = true ∧ p.isParent = true ∧ c.idParent = some p.id

section Guarded

variable {cfg : Config} {r : Round} {slots slots' : Nat → Slot} {s s' : State} {a : Action}

variable {x : Slot} {n i k : Nat} {p : Pool} {P : Nat → Slot → Bool} {v : View} {c t u : Task}
  {st : SlotState} {q : Queue} {b : Batching} {jobs : List (Nat × Task)} {h : Handling}

theorem waitsFor_iff {id : Nat} :
    x.waitsFor id = true ↔ ∃ c, x = .busy .waitOther c ∧ c.idParent = some id := by
  unfold Slot.waitsFor
  split
  · simp
  · rename_i hne
    simp only [Bool.false_eq_true, false_iff]
    rintro ⟨c, rfl, -⟩
    exact hne c rfl

/-- Slots change, but waiting children and their parents stay in place. -/
theorem Guarded.mono (hg : Guarded slots)
    (hw : ∀ i c, slots' i = .busy .waitOther c → slots i = .busy .waitOther c)
    (hp : ∀ i c j st p, slots' i = .busy .waitOther c → slots j = .busy st p →
      st.beforeCopy = true → p.isParent = true → c.idParent = some p.id →
      ∃ st', slots' j = .busy st' p ∧ st'.beforeCopy = true) : Guarded slots' := by
  intro i c hi
  obtain ⟨j, st, p, hj, hst, hpar, hid⟩ := hg i c (hw i c hi)
  obtain ⟨st', hj', hst'⟩ := hp i c j st p hi hj hst hpar hid
  exact ⟨j, st', p, hj', hst', hpar, hid⟩

/-- A release keeps the guard if it spares the parents of waiting children. -/
theorem guarded_releaseIf (hg : Guarded p.slots)
    (hP : ∀ i c j st q, (p.releaseIf n P).slots i = .busy .waitOther c →
      p.slots j = .busy st q → st.beforeCopy = true → q.isParent = true →
      c.idParent = some q.id → j < n → P j (p.slots j) = false) :
    Guarded (p.releaseIf n P).slots := by
  refine hg.mono (fun i c hi => Pool.slots_of_releaseIf hi) fun i c j st q hi hj hst hpar hid =>
    ⟨st, ?_, hst⟩
  rw [Pool.releaseIf_of_neg, hj]
  rintro ⟨hjn, hPj⟩
  rw [hP i c j st q hi hj hst hpar hid hjn] at hPj
  contradiction

/-- The copy reaches all children whose parent is done. -/
theorem guarded_activate (hg : Guarded slots)
    (hw : ∀ i u, (slots i).task = some u → i < cfg.nSlots) :
    ∀ i c, activate cfg.nSlots slots i = .busy .waitOther c → slots i = .busy .waitOther c ∧
      ∃ j st p, slots j = .busy st p ∧ activate cfg.nSlots slots j = .busy st p ∧
        (st = .started ∨ st = .processingPrompt) ∧ p.isParent = true ∧ c.idParent = some p.id := by
  intro i c hi
  have hwait : slots i = .busy .waitOther c ∧
      ((range cfg.nSlots).any fun j => copiesTo c (slots j)) = false := by
    unfold activate at hi
    split at hi
    · rename_i d hd
      split at hi
      · simp at hi
      · rename_i hany
        rw [hd] at hi
        obtain ⟨-, rfl⟩ := Slot.busy.inj hi
        exact ⟨hd, by simpa using hany⟩
    · rename_i hno
      exact absurd hi (hno c)
  obtain ⟨hslot, hany⟩ := hwait
  refine ⟨hslot, ?_⟩
  obtain ⟨j, st, p, hj, hst, hpar, hid⟩ := hg i c hslot
  have hactive : activate cfg.nSlots slots j = .busy st p := by
    unfold activate
    rw [hj]
    cases st <;> first | rfl | contradiction
  have hne : st ≠ .donePrompt := by
    rintro rfl
    have hjn := hw j p (by rw [hj, Slot.task])
    have := any_eq_false.mp hany j (mem_range.mpr hjn)
    simp [copiesTo, hj, hpar, hid] at this
  refine ⟨j, st, p, hj, hactive, ?_, hpar, hid⟩
  cases st with
  | started => exact .inl rfl
  | processingPrompt => exact .inr rfl
  | donePrompt => exact absurd rfl hne
  | waitOther => contradiction
  | generating => contradiction

theorem sampled_eq_waitOther (h : sampled v i x = .busy .waitOther c) : x = .busy .waitOther c := by
  unfold sampled at h
  split at h
  · split at h
    · simp at h
    · simp at h
  · exact h

/-- A slot that still waits after a view was left alone by all its passes. -/
theorem activate_of_decodeView (h : (decodeView cfg p v).slots i = .busy .waitOther c) :
    activate cfg.nSlots p.slots i = .busy .waitOther c := by
  have hsampled := Pool.slots_of_releaseIf h
  exact Pool.slots_of_releaseIf (sampled_eq_waitOther hsampled)

/-- A view does not touch slots whose prompt is not in the batch yet. -/
theorem decodeView_of_activate {j : Nat} {q : Task} (h : activate cfg.nSlots p.slots j = .busy st q)
    (hst : st = .started ∨ st = .processingPrompt) : (decodeView cfg p v).slots j = .busy st q := by
  simp only [decodeView, Pool.releaseIf, h]
  rcases hst with rfl | rfl
  · simp [leaves, sampled, leavesDraft]
  · simp [leaves, sampled, leavesDraft]

/-- A decoded view keeps the guard: it lets go only of slots that are past the copy. -/
theorem guarded_decodeView (hg : Guarded p.slots)
    (hw : ∀ i u, (p.slots i).task = some u → i < cfg.nSlots) :
    Guarded (decodeView cfg p v).slots := by
  have hact := guarded_activate hg hw
  intro i c hi
  obtain ⟨-, j, st, q, -, hj, hst, hpar, hid⟩ := hact i c (activate_of_decodeView hi)
  refine ⟨j, st, q, decodeView_of_activate hj hst, ?_, hpar, hid⟩
  rcases hst with rfl | rfl
  · rfl
  · rfl

theorem guarded_decodeBatch (hg : Guarded p.slots)
    (hw : ∀ i u, (p.slots i).task = some u → i < cfg.nSlots) :
    Guarded (decodeBatch cfg r p).slots := by
  have hviews : ∀ (l : List View) (p : Pool), Guarded p.slots →
      (∀ i u, (p.slots i).task = some u → i < cfg.nSlots) →
      Guarded (l.foldl (decodeView cfg) p).slots ∧
        ∀ i u, ((l.foldl (decodeView cfg) p).slots i).task = some u → i < cfg.nSlots := by
    intro l
    induction l with
    | nil => exact fun p hg hw => ⟨hg, hw⟩
    | cons v l ih =>
      intro p hg hw
      apply ih
      · exact guarded_decodeView hg hw
      · exact fun i u hu => hw i u ((decodeView_evolves p v).old i u hu)
  obtain ⟨hg', hw'⟩ := hviews r.views p hg hw
  unfold decodeBatch
  dsimp only
  split
  · -- a fatal error releases the children as well
    intro i c hi
    have hslot := Pool.slots_of_releaseIf hi
    rw [Pool.releaseIf_of_pos (hw' i c (by rw [hslot, Slot.task])) rfl] at hi
    contradiction
  · exact hg'

/-- The slots while the batch is filled, compared with those at its start. -/
structure Filled (slots slots' : Nat → Slot) : Prop where
  guarded : Guarded slots'
  waiting : ∀ i c, slots' i = .busy .waitOther c → slots i = .busy .waitOther c
  started : ∀ i t, slots' i = .busy .started t → slots i = .busy .started t
  task : ∀ i t, (slots' i).task = some t → (slots i).task = some t

theorem filled_releaseIf (h : Filled slots p.slots)
    (hw : ∀ i u, (slots i).task = some u → i < cfg.nSlots)
    (hP : ∀ j st q, p.slots j = .busy st q → st.beforeCopy = true → HasWaiting cfg slots q →
      P j (p.slots j) = false) : Filled slots (p.releaseIf cfg.nSlots P).slots where
  guarded := by
    apply guarded_releaseIf h.guarded
    intro i c j st q hi hj hst hpar hid _
    have hslot := h.waiting i c (Pool.slots_of_releaseIf hi)
    refine hP j st q hj hst ⟨hpar, i, hw i c (by rw [hslot, Slot.task]), ?_⟩
    exact waitsFor_iff.mpr ⟨c, hslot, hid⟩
  waiting i c hi := h.waiting i c (Pool.slots_of_releaseIf hi)
  started i t hi := h.started i t (Pool.slots_of_releaseIf hi)
  task i t ht := h.task i t ((Pool.Evolves.releaseIf ..).old i t ht)

theorem filled_put {st' : SlotState} (h : Filled slots p.slots) (hi : p.slots i = .busy st t)
    (hst' : st' = .processingPrompt ∨ st' = .donePrompt) :
    Filled slots (p.put i (.busy st' t)).slots := by
  have hput : ∀ {st'' : SlotState} {j : Nat} {u : Task}, st'' ≠ .processingPrompt →
      st'' ≠ .donePrompt → (p.put i (.busy st' t)).slots j = .busy st'' u →
      p.slots j = .busy st'' u := by
    intro st'' j u h1 h2 hj
    by_cases hji : j = i
    · subst hji
      rw [Pool.put_self] at hj
      obtain ⟨rfl, -⟩ := Slot.busy.inj hj
      rcases hst' with rfl | rfl <;> contradiction
    · rwa [Pool.put_of_ne hji] at hj
  constructor
  · refine h.guarded.mono (fun j c hj => hput (by decide) (by decide) hj) ?_
    intro k c j sj q hk hj hsj hpar hid
    by_cases hji : j = i
    · subst hji
      rw [hi] at hj
      obtain ⟨-, rfl⟩ := Slot.busy.inj hj
      refine ⟨st', Pool.put_self .., ?_⟩
      rcases hst' with rfl | rfl
      · rfl
      · rfl
    · exact ⟨sj, by rwa [Pool.put_of_ne hji], hsj⟩
  · exact fun j c hj => h.waiting j c (hput (by decide) (by decide) hj)
  · exact fun j u hj => h.started j u (hput (by decide) (by decide) hj)
  · intro j u hu
    have hevolves : Pool.Evolves p (p.put i (.busy st' t)) := .put (by rw [hi]; rfl)
    exact h.task j u (hevolves.old j u hu)

/-- Prompts of parents whose children wait pass their checks. -/
def PromptsPass (cfg : Config) (r : Round) (slots : Nat → Slot) : Prop :=
  ∀ i < cfg.nSlots, ∀ p ∈ (slots i).task, HasWaiting cfg slots p →
    (slots i = .busy .started p → promptError cfg p = false) ∧ (r.feed i).isImageError = false

theorem filled_release (h : Filled slots b.pool.slots)
    (hw : ∀ i u, (slots i).task = some u → i < cfg.nSlots) (hi : b.pool.slots i = .busy st t)
    (hno : ¬ HasWaiting cfg slots t) : Filled slots (b.release cfg i).pool.slots := by
  apply filled_releaseIf h hw
  intro j sj q hj _ hwait
  by_cases hji : j = i
  · subst hji
    rw [hi] at hj
    obtain ⟨-, rfl⟩ := Slot.busy.inj hj
    exact absurd hwait hno
  · simpa using hji

theorem filled_fillPrompt (h : Filled slots b.pool.slots)
    (hw : ∀ i u, (slots i).task = some u → i < cfg.nSlots) (hp : PromptsPass cfg r slots)
    (hi : b.pool.slots i = .busy st t) : Filled slots (fillPrompt cfg r b i t).pool.slots := by
  have htask : (slots i).task = some t := h.task i t (by rw [hi, Slot.task])
  unfold fillPrompt
  split
  · exact filled_put h hi (.inl rfl)
  · split
    · rename_i himg
      apply filled_release h hw hi
      intro hwait
      have := (hp i (hw i t htask) t htask hwait).2
      rw [himg] at this
      contradiction
    · rename_i n done hfill
      apply filled_put h hi
      cases done
      · exact .inl rfl
      · exact .inr rfl

theorem filled_addPrompt (h : Filled slots b.pool.slots)
    (hw : ∀ i u, (slots i).task = some u → i < cfg.nSlots) (hp : PromptsPass cfg r slots) :
    Filled slots (addPrompt cfg r b i).pool.slots := by
  unfold addPrompt
  split
  · exact h
  · split
    · exact h
    · rename_i state t hi
      have htask : (slots i).task = some t := h.task i t (by rw [hi, Slot.task])
      split
      · exact h
      · split
        · exact h
        · split
          · rename_i herr
            apply filled_release h hw hi
            intro hwait
            have := (hp i (hw i t htask) t htask hwait).1 (h.started i t hi)
            rw [herr] at this
            contradiction
          · exact filled_fillPrompt h hw hp hi
        · exact filled_fillPrompt h hw hp hi
        · exact h
        · exact h

theorem filled_fillBatch (hg : Guarded slots)
    (hw : ∀ i u, (slots i).task = some u → i < cfg.nSlots) (hp : PromptsPass cfg r slots) :
    Filled slots (fillBatch cfg r slots).pool.slots := by
  have h1 : Filled slots (Pool.releaseIf cfg.nSlots { slots := slots } (cannotShift r)).slots := by
    have h0 : Filled slots (Pool.mk slots []).slots :=
      ⟨hg, fun _ _ h => h, fun _ _ h => h, fun _ _ h => h⟩
    apply filled_releaseIf h0 hw
    intro j st q hj hst _
    rw [hj]
    cases st <;> first | rfl | contradiction
  have hpool := (foldl_addSampled_frame (r := r) (range cfg.nSlots)
    { pool := Pool.releaseIf cfg.nSlots { slots := slots } (cannotShift r) }).1
  unfold fillBatch
  dsimp only at hpool ⊢
  rw [← hpool] at h1
  split
  · apply Loop.foldl_range_induction
      (motive := fun _ (b : Batching) => Filled slots b.pool.slots) h1
    exact fun k _ b hb => filled_addPrompt hb hw hp
  · exact h1

/-- One sampled token: as long as no slot was batched the batch is empty, and a generating slot
fills it. -/
theorem addSampled_nTokens (hb : b.batched = true → 0 < b.nTokens) :
    b.nTokens ≤ (addSampled r b i).nTokens ∧
      ((addSampled r b i).batched = true → 0 < (addSampled r b i).nTokens) ∧
      ∀ t, b.pool.slots i = .busy .generating t → 0 < (addSampled r b i).nTokens := by
  unfold addSampled
  split
  · split
    · rename_i hskip
      have hpos := hb (Bool.and_eq_true_iff.mp hskip).1
      exact ⟨Nat.le_refl _, hb, fun _ _ => hpos⟩
    · refine ⟨?_, fun _ => ?_, fun _ _ => ?_⟩ <;> (dsimp only; omega)
  · rename_i hno
    exact ⟨Nat.le_refl _, hb, fun t ht => absurd ht (hno t)⟩

theorem foldl_addSampled_nTokens (hb : b.batched = true → 0 < b.nTokens) :
    (((range n).foldl (addSampled r) b).batched = true →
      0 < ((range n).foldl (addSampled r) b).nTokens) ∧
    ∀ i < n, ∀ t, b.pool.slots i = .busy .generating t →
      0 < ((range n).foldl (addSampled r) b).nTokens := by
  have key := Loop.foldl_range_induction (f := addSampled r) (b := b) (n := n)
    (motive := fun k b' => b'.pool = b.pool ∧ (b'.batched = true → 0 < b'.nTokens) ∧
      ∀ i < k, ∀ t, b.pool.slots i = .busy .generating t → 0 < b'.nTokens)
    ⟨rfl, hb, by simp⟩ ?_
  · exact ⟨key.2.1, key.2.2⟩
  · rintro k hk b' ⟨hpool, hbat, hgen⟩
    obtain ⟨hle, hbat', hnew⟩ := addSampled_nTokens (r := r) (i := k) hbat
    refine ⟨(addSampled_frame b' k).1.trans hpool, hbat', fun i hi t ht => ?_⟩
    rcases Nat.lt_succ_iff_lt_or_eq.mp hi with hi | rfl
    · exact Nat.lt_of_lt_of_le (hgen i hi t ht) hle
    · exact hnew t (by rw [hpool]; exact ht)

/-- What a turn of the prompt loop leaves alone. -/
theorem addPrompt_frame (b : Batching) (i : Nat) :
    b.nTokens ≤ (addPrompt cfg r b i).nTokens ∧
      (∀ j, j ≠ i → (addPrompt cfg r b i).pool.slots j = b.pool.slots j) ∧
      ((b.full = true → 0 < b.nTokens) →
        (addPrompt cfg r b i).full = true → 0 < (addPrompt cfg r b i).nTokens) := by
  have hclose : ∀ b : Batching, (b.close cfg).full = true → 0 < (b.close cfg).nTokens := by
    intro b hf
    have hle : cfg.nBatch ≤ b.nTokens := by simpa [Batching.close] using hf
    exact Nat.lt_of_lt_of_le cfg.nBatch_pos hle
  have hrel : ∀ j, j ≠ i → (b.release cfg i).pool.slots j = b.pool.slots j := by
    intro j hj
    have hneg : ¬ (j < cfg.nSlots ∧ (j == i) = true) := by simp [hj]
    exact if_neg hneg
  have hfill : ∀ t, b.nTokens ≤ (fillPrompt cfg r b i t).nTokens ∧
      (∀ j, j ≠ i → (fillPrompt cfg r b i t).pool.slots j = b.pool.slots j) ∧
      ((b.full = true → 0 < b.nTokens) →
        (fillPrompt cfg r b i t).full = true → 0 < (fillPrompt cfg r b i t).nTokens) := by
    intro t
    unfold fillPrompt
    split
    · exact ⟨Nat.le_refl _, fun j hj => Pool.put_of_ne hj .., id⟩
    · split
      · exact ⟨Nat.le_refl _, hrel, id⟩
      · exact ⟨Nat.le_add_right _ _, fun j hj => Pool.put_of_ne hj .., fun _ => hclose _⟩
  unfold addPrompt
  split
  · exact ⟨Nat.le_refl _, fun _ _ => rfl, id⟩
  · split
    · exact ⟨Nat.le_refl _, fun _ _ => rfl, id⟩
    · split
      · exact ⟨Nat.le_refl _, fun _ _ => rfl, id⟩
      · split
        · exact ⟨Nat.le_refl _, fun _ _ => rfl, id⟩
        · split
          · exact ⟨Nat.le_refl _, hrel, id⟩
          · exact hfill _
        · exact hfill _
        · exact ⟨Nat.le_refl _, fun _ _ => rfl, fun _ => hclose _⟩
        · exact ⟨Nat.le_refl _, fun _ _ => rfl, fun _ => hclose _⟩

theorem fillPrompt_nTokens (hb : b.nTokens = 0)
    (hfit : (canSplit cfg t || t.nTokens ≤ cfg.nBatch) = true) (hadd : (r.feed i).adds = true) :
    0 < (fillPrompt cfg r b i t).nTokens := by
  unfold fillPrompt
  split
  · rename_i hlate
    simp only [hb, Bool.and_eq_true, Bool.not_eq_true', decide_eq_true_eq] at hlate
    simp only [hlate.1, Bool.false_or, decide_eq_true_eq] at hfit
    omega
  · split
    · rename_i himg
      simp [himg, Feed.adds] at hadd
    · rename_i n done hfill
      have hn : 0 < n := by simpa [hfill, Feed.adds] using hadd
      have hpos := cfg.nBatch_pos
      simp only [Batching.close, hb]
      omega

/-- A slot that brings a token fills an empty batch. -/
theorem addPrompt_nTokens (hfull : b.full = true → 0 < b.nTokens)
    (hbr : brings cfg r i (b.pool.slots i) = true)
    (hgen : ∀ t, b.pool.slots i ≠ .busy .generating t) : 0 < (addPrompt cfg r b i).nTokens := by
  by_cases hb : b.nTokens = 0
  · have hf : b.full = false := by
      by_contra h
      have := hfull (by simpa using h)
      omega
    unfold addPrompt
    rw [if_neg (by simp [hf])]
    unfold brings at hbr
    dsimp only at hbr
    split
    · rename_i hs
      simp [hs] at hbr
    · rename_i state t hs
      rw [hs] at hbr
      cases state with
      | waitOther => simp at hbr
      | donePrompt => simp at hbr
      | generating => exact absurd hs (hgen t)
      | started =>
        simp only [Bool.and_eq_true, Bool.not_eq_true'] at hbr
        obtain ⟨herr, ⟨hun, hfit⟩, hadd⟩ := hbr
        rw [if_neg (by rw [hun]; simp), if_neg (by simp [herr])]
        exact fillPrompt_nTokens hb hfit hadd
      | processingPrompt =>
        simp only [Bool.and_eq_true, Bool.not_eq_true'] at hbr
        obtain ⟨⟨hun, hfit⟩, hadd⟩ := hbr
        rw [if_neg (by rw [hun]; simp)]
        exact fillPrompt_nTokens hb hfit hadd
  · exact Nat.lt_of_lt_of_le (Nat.pos_of_ne_zero hb) (addPrompt_frame b i).1

theorem foldl_addPrompt_nTokens (hb : b.full = true → 0 < b.nTokens) :
    b.nTokens ≤ ((range n).foldl (addPrompt cfg r) b).nTokens ∧
    ∀ i < n, brings cfg r i (b.pool.slots i) = true →
      (∀ t, b.pool.slots i ≠ .busy .generating t) →
      0 < ((range n).foldl (addPrompt cfg r) b).nTokens := by
  have key := Loop.foldl_range_induction (f := addPrompt cfg r) (b := b) (n := n)
    (motive := fun k b' => b.nTokens ≤ b'.nTokens ∧ (b'.full = true → 0 < b'.nTokens) ∧
      (∀ j, k ≤ j → b'.pool.slots j = b.pool.slots j) ∧
      ∀ i < k, brings cfg r i (b.pool.slots i) = true →
        (∀ t, b.pool.slots i ≠ .busy .generating t) → 0 < b'.nTokens)
    ⟨Nat.le_refl _, hb, fun _ _ => rfl, by simp⟩ ?_
  · exact ⟨key.1, key.2.2.2⟩
  · rintro k hk b' ⟨hle, hfull, hsame, hdone⟩
    obtain ⟨hle', hother, hfull'⟩ := addPrompt_frame (r := r) b' k
    refine ⟨Nat.le_trans hle hle', hfull' hfull, ?_, fun i hi hbr hgen => ?_⟩
    · intro j hj
      rw [hother j (by omega), hsame j (by omega)]
    · rcases Nat.lt_succ_iff_lt_or_eq.mp hi with hi | rfl
      · exact Nat.lt_of_lt_of_le (hdone i hi hbr hgen) hle'
      · have hslot := hsame i (Nat.le_refl i)
        apply addPrompt_nTokens hfull
        · rwa [hslot]
        · rwa [hslot]

/-- A round with something to decode has a batch. -/
theorem fillBatch_nTokens (hi : i < cfg.nSlots) (hbr : brings cfg r i (slots i) = true) :
    0 < (fillBatch cfg r slots).nTokens := by
  have hshift : cannotShift r i (slots i) = false := by
    unfold cannotShift
    split
    · rename_i t hs
      simpa [brings, hs] using hbr
    · rfl
  have hslot : (Pool.releaseIf cfg.nSlots { slots := slots } (cannotShift r)).slots i =
    slots i := by
    apply Pool.releaseIf_of_neg
    rintro ⟨-, h⟩
    rw [hshift] at h
    contradiction
  obtain ⟨hpool, hfull⟩ := foldl_addSampled_frame (r := r) (range cfg.nSlots)
    { pool := Pool.releaseIf cfg.nSlots { slots := slots } (cannotShift r) }
  obtain ⟨hbat, hgen⟩ := foldl_addSampled_nTokens (r := r) (n := cfg.nSlots)
    (b := { pool := Pool.releaseIf cfg.nSlots { slots := slots } (cannotShift r) }) (by simp)
  unfold fillBatch
  dsimp only at hpool hfull hbat hgen ⊢
  generalize (range cfg.nSlots).foldl (addSampled r)
    { pool := Pool.releaseIf cfg.nSlots { slots := slots } (cannotShift r) } = b at *
  by_cases hg : ∃ t, slots i = .busy .generating t
  · obtain ⟨t, ht⟩ := hg
    have hpos := hgen i hi t (hslot.trans ht)
    split
    · exact Nat.lt_of_lt_of_le hpos (foldl_addPrompt_nTokens (by simp [hfull])).1
    · exact hpos
  · by_cases hb : b.nTokens = 0
    · rw [if_pos (by simp [hb])]
      apply (foldl_addPrompt_nTokens (by simp [hfull])).2 i hi
      · rwa [hpool, hslot]
      · intro t ht
        rw [hpool, hslot] at ht
        exact hg ⟨t, ht⟩
    · split
      · exact Nat.lt_of_lt_of_le (Nat.pos_of_ne_zero hb)
          (foldl_addPrompt_nTokens (by simp [hfull])).1
      · exact Nat.pos_of_ne_zero hb

/-- Parents in slots are no children. -/
def SlotsRooted (slots : Nat → Slot) : Prop :=
  ∀ i u, (slots i).task = some u → u.isParent = true → u.idParent = none

theorem launch_busy (h : Slot.launch t = .busy st u) :
    t = u ∧ (u.idParent = none → st = .started) ∧ (st = .waitOther → u.isChild = true) := by
  obtain ⟨rfl, rfl⟩ := Slot.busy.inj h
  refine ⟨rfl, fun hn => ?_, fun hw => ?_⟩
  · simp [Task.isChild, hn]
  · by_contra hc
    rw [if_neg hc] at hw
    contradiction

theorem isParent_of_childTasks (h : u ∈ t.childTasks) : t.isParent = true := by
  obtain ⟨c, hc, -⟩ := mem_map.mp h
  simpa [Task.isParent] using ne_nil_of_mem hc

/-- Slots that process keep their content while others are launched. -/
theorem Jobs.busy (hj : Jobs cfg slots t jobs) (hi : slots i = .busy st u) :
    launchAll slots (jobs.take k) i = .busy st u := by
  rcases launchAll_cases slots (jobs.take k) i with hs | ⟨v, hv, -⟩
  · rw [hs, hi]
  · have hidle := (hj.idle _ (mem_of_mem_take hv)).2
    rw [hi] at hidle
    contradiction

theorem guarded_launched (hg : Guarded slots) (hj : Jobs cfg slots t jobs)
    (ht : t.idParent = none) : Guarded (launchAll slots jobs) := by
  have hall : ∀ {i st u}, slots i = .busy st u → launchAll slots jobs i = .busy st u := by
    intro i st u hi
    have := hj.busy (k := jobs.length) hi
    rwa [take_length] at this
  intro i c hi
  rcases launchAll_cases slots jobs i with hs | ⟨u, hu, hs⟩
  · rw [hs] at hi
    obtain ⟨j, st, p, hjp, hst, hpar, hid⟩ := hg i c hi
    exact ⟨j, st, p, hall hjp, hst, hpar, hid⟩
  · -- a child of the task, which was launched into a slot of its own
    rw [hs] at hi
    obtain ⟨rfl, -, hchild⟩ := launch_busy hi
    have hchild := hchild rfl
    rcases hj.tasks _ hu with hc | hc
    · obtain ⟨j, -, hown⟩ := hj.own
      refine ⟨j, .started, t, ?_, rfl, isParent_of_childTasks hc, idParent_of_childTasks hc⟩
      rw [hown, Slot.launch, if_neg (by simp [Task.isChild, ht])]
    · have hc : u = t := hc
      rw [hc, Task.isChild, ht] at hchild
      contradiction

theorem guarded_failed (hg : Guarded slots) (hroot : SlotsRooted slots)
    (hw : ∀ i u, (slots i).task = some u → i < cfg.nSlots) (hj : Jobs cfg slots t jobs)
    (hc : ∀ j ∈ jobs.take k, j.2.idParent = some t.id) :
    Guarded (Pool.releaseIf cfg.nSlots { slots := launchAll slots (jobs.take k) }
      fun _ => inFamily t.id).slots := by
  -- what still waits is not of this family
  have hold : ∀ i c, (Pool.releaseIf cfg.nSlots { slots := launchAll slots (jobs.take k) }
      fun _ => inFamily t.id).slots i = .busy .waitOther c →
      slots i = .busy .waitOther c ∧ c.idParent ≠ some t.id := by
    intro i c hi
    have hl := Pool.slots_of_releaseIf hi
    have hnot : ¬ (i < cfg.nSlots ∧ c.idParent = some t.id) := by
      rintro ⟨hlt, hpar⟩
      rw [Pool.releaseIf_of_pos hlt (by rw [hl]; simp [inFamily, hpar])] at hi
      contradiction
    rcases launchAll_cases slots (jobs.take k) i with hs | ⟨u, hu, hs⟩
    · have hslot : slots i = .busy .waitOther c := hs.symm.trans hl
      exact ⟨hslot, fun hpar => hnot ⟨hw i c (by rw [hslot, Slot.task]), hpar⟩⟩
    · obtain ⟨rfl, -, -⟩ := launch_busy (hs.symm.trans hl)
      exact absurd ⟨(hj.idle _ (mem_of_mem_take hu)).1, hc _ hu⟩ hnot
  intro i c hi
  obtain ⟨hslot, hne⟩ := hold i c hi
  obtain ⟨j, st, p, hjp, hst, hpar, hid⟩ := hg i c hslot
  refine ⟨j, st, p, ?_, hst, hpar, hid⟩
  have hjl : launchAll slots (jobs.take k) j = .busy st p := hj.busy hjp
  have hnot : ¬ (j < cfg.nSlots ∧ inFamily t.id (launchAll slots (jobs.take k) j) = true) := by
    rintro ⟨-, hfam⟩
    have hnone := hroot j p (by rw [hjp, Slot.task]) hpar
    have hpid : p.id = t.id := by
      rw [hjl] at hfam
      simpa [inFamily, hnone] using hfam
    exact hne (by rw [hid, hpid])
  exact (if_neg hnot).trans hjl

theorem guarded_cancelSlot {x : Nat} (hg : Guarded slots)
    (hw : ∀ i u, (slots i).task = some u → i < cfg.nSlots)
    (hk : ∀ i < cfg.nSlots, ∀ p ∈ (slots i).task, p.id = x → ¬ HasWaiting cfg slots p) :
    Guarded (cancelSlot cfg slots x).slots := by
  unfold cancelSlot
  split
  · exact hg
  · rename_i i hi
    have hholds := find?_some hi
    obtain ⟨u, hu, hux⟩ := Slot.holds_iff.mp hholds
    have hno := hk i (hw i u hu) u hu hux
    apply guarded_releaseIf hg
    intro k c j st q hkc hj hst hpar hid _
    by_contra hji
    obtain rfl : j = i := by simpa using hji
    have hslot : slots k = .busy .waitOther c := Pool.slots_of_releaseIf hkc
    have hju : slots j = .busy st q := hj
    rw [hju] at hu
    obtain rfl : q = u := Option.some.inj hu
    exact hno ⟨hpar, k, hw k c (by rw [hslot, Slot.task]), waitsFor_iff.mpr ⟨c, hslot, hid⟩⟩

/-- The invariants of the slots. -/
structure State.Nursed (cfg : Config) (s : State) : Prop where
  guarded : Guarded s.slots
  within : s.Within cfg
  slotsRooted : SlotsRooted s.slots
  running : s.aborted = false

theorem slotsRooted_processed {q' : Queue} (hs : SlotsRooted slots) (ht : t.idParent = none)
    (hpr : Processed cfg h q slots t (q', p)) : SlotsRooted p.slots := by
  have hlaunch : ∀ {jobs : List (Nat × Task)}, (∀ j ∈ jobs, j.2 ∈ t.childTasks ∨ j.2 = t) →
      SlotsRooted (launchAll slots jobs) := by
    intro jobs hj i u hu hpar
    rcases launchAll_cases slots jobs i with hi | ⟨v, hv, hi⟩
    · rw [hi] at hu
      exact hs i u hu hpar
    · rw [hi, task_launch] at hu
      obtain rfl : v = u := Option.some.inj hu
      rcases hj _ hv with hc | hc
      · obtain ⟨c, -, rfl⟩ := mem_map.mp hc
        simp [Task.isParent, Task.child] at hpar
      · have hc : v = t := hc
        rw [hc, ht]
  cases hpr with
  | deferred => exact hs
  | launched hu hj => exact hlaunch hj.tasks
  | failed hu hj =>
    intro i u hu
    exact hlaunch (fun j hmem => hj.tasks j (mem_of_mem_take hmem)) i u
      ((Pool.Evolves.releaseIf ..).old i u hu)
  | dropped => exact hs
  | cancelled => exact fun i u hu => hs i u ((cancelSlot_evolves _).old i u hu)
  | other => exact hs

theorem guarded_process (hn : s.Nursed cfg) (ht : t.idParent = none) (hp : s.phase = .process t)
    (hpr : Processed cfg h s.queue s.slots t (q, p)) (hk : TendsChildren cfg s (.process h)) :
    Guarded p.slots := by
  cases hpr with
  | deferred => exact hn.guarded
  | launched hu hj => exact guarded_launched hn.guarded hj ht
  | failed hu hj hlt hl hc => exact guarded_failed hn.guarded hn.slotsRooted hn.within hj hc
  | dropped => exact hn.guarded
  | cancelled hty hx =>
    exact guarded_cancelSlot hn.guarded hn.within (hk t (by simp [hp, Phase.hand]) hty _ hx)
  | other => exact hn.guarded

/-- Where a slot processes one does not wait: the parent of a waiting child has not copied yet. -/
theorem State.Nursed.active (h : s.Nursed cfg) (hp : ∃ i, (s.slots i).isProcessing = true) :
    ∃ i st t, s.slots i = .busy st t ∧ st ≠ .waitOther := by
  obtain ⟨i, hi⟩ := hp
  cases hs : s.slots i with
  | idle => simp [hs, Slot.isProcessing] at hi
  | busy st t =>
    by_cases hst : st = .waitOther
    · subst hst
      obtain ⟨j, st, p, hj, hb, -, -⟩ := h.guarded i t hs
      refine ⟨j, st, p, hj, ?_⟩
      rintro rfl
      contradiction
    · exact ⟨i, st, t, hs, hst⟩

theorem nursed_update (hn : s.Nursed cfg) (hk : TendsChildren cfg s (.update r)) :
    (updateSlots cfg r s).Nursed cfg := by
  unfold updateSlots
  split
  · exact ⟨hn.guarded, hn.within, hn.slotsRooted, hn.running⟩
  · rename_i hbusy
    have hfill := filled_fillBatch hn.guarded hn.within hk.1
    have hold := (round_evolves cfg r s.slots).old
    have hfillOld := (fillBatch_evolves cfg r s.slots).old
    constructor
    · exact guarded_decodeBatch hfill.guarded fun i u hu => hn.within i u (hfillOld i u hu)
    · exact fun i u hu => hn.within i u (hold i u hu)
    · exact fun i u hu => hn.slotsRooted i u (hold i u hu)
    · -- a fourth empty batch is excluded
      dsimp only
      by_contra hab
      simp only [Bool.not_eq_false, Bool.and_eq_true, beq_iff_eq, decide_eq_true_eq] at hab
      obtain ⟨i, -, hi⟩ : ∃ i < cfg.nSlots, (s.slots i).isProcessing = true := by
        simpa [allIdle] using hbusy
      obtain ⟨j, st, t, hj, hst⟩ := hn.active ⟨i, hi⟩
      have hworks : (s.slots j).works = true := hj ▸ Slot.works_busy t hst
      obtain ⟨i, hi, hbr⟩ := hk.2 (by omega) ⟨j, hn.within j t (by rw [hj, Slot.task]), hworks⟩
      have := fillBatch_nTokens hi hbr
      omega

theorem nursed_step (hr : s.Rooted cfg) (hn : s.Nursed cfg) (hk : TendsChildren cfg s a)
    (h : Step cfg s a s') : s'.Nursed cfg := by
  have hw := within_step hn.within h
  cases h with
  | post => exact ⟨hn.guarded, hw, hn.slotsRooted, hn.running⟩
  | stop => exact ⟨hn.guarded, hw, hn.slotsRooted, hn.running⟩
  | callback => exact ⟨hn.guarded, hw, hn.slotsRooted, hn.running⟩
  | pop => exact ⟨hn.guarded, hw, hn.slotsRooted, hn.running⟩
  | noTasks => exact ⟨hn.guarded, hw, hn.slotsRooted, hn.running⟩
  | @process h t q p hp hq hv hres =>
    have hpr : Processed cfg h s.queue s.slots t (q, p) := hres ▸ processSingleTask_processed hv
    have ht := (hr t (.inl (by simp [hp, Phase.hand]))).1
    exact ⟨guarded_process hn ht hp hpr hk, hw, slotsRooted_processed hn.slotsRooted ht hpr,
      hn.running⟩
  | update => exact nursed_update hn hk
  | wake => exact ⟨hn.guarded, hw, hn.slotsRooted, hn.running⟩

theorem State.Nursed.tended (h : s.Nursed cfg) : s.Tended where
  parent i c hi := by
    obtain ⟨j, st, p, hj, -, -, hid⟩ := h.guarded i c hi
    exact ⟨j, st, p, hj, hid⟩
  active := h.active
  running := h.running

/-- In a run that never releases a parent under its waiting children, and in which slots that work
have something to decode after three empty rounds in a row, waiting children always have a live
parent and the server does not abort. -/
theorem children_tended {as : List Action}
    (hk : Run.Meets (step cfg) (TendsChildren cfg) {} as) (h : run cfg as = some s) : s.Tended := by
  have hinv : s.Accounted ∧ s.Rooted cfg ∧ s.Nursed cfg := by
    refine Run.exec_invariant (P := TendsChildren cfg)
      (I := fun s => s.Accounted ∧ s.Rooted cfg ∧ s.Nursed cfg) ?_ ?_ hk h
    · rintro s a s' ⟨hs, ht, hn⟩ hk hstep
      have hst := (step_cases hstep).2
      exact ⟨accounted_step hs hst, rooted_step hs ht hst, nursed_step ht hn hk hst⟩
    · refine ⟨by simp [State.Accounted], by simp [State.Rooted, Phase.hand, Queue.all], ?_⟩
      constructor
      all_goals simp [Guarded, State.Within, SlotsRooted, Slot.task]
  exact hinv.2.2.tended

end Guarded

/-- Two slots with a context of four tokens. -/
def twoSlots : Config where
  nSlots := 2
  nCtx := 4
  nBatch := 8
  nUbatch := 8
  nSlots_pos := by decide
  nBatch_pos := by decide

/-- Two completions of a prompt of three tokens. -/
def twoCompletions (n : Nat) : Task :=
  { id := 0, type := .completion, childIds := [1], nTokens := n }

/-- The parent runs its prompt and the child takes over a copy. -/
def copyRun : List Action :=
  [.post [twoCompletions 3] false, .pop, .process { available := some 1 }, .noTasks,
    .update { nextId := 5, feed := fun _ => .fill 2 false, views := [{}] },
    .wake, .pop, .process {}, .noTasks,
    .update { nextId := 6, feed := fun _ => .fill 1 true, views := [{ logits := [0, 1] }] }]

theorem children_tended_copyRun :
    ∃ s, run twoSlots copyRun = some s ∧
      s.slots 0 = .busy .generating ((twoCompletions 3).child 1) ∧ s.Tended := by
  have hk : Run.Meets (step twoSlots) (TendsChildren twoSlots) {} copyRun := by decide
  have hrun : ((run twoSlots copyRun).map fun s =>
      decide (s.slots 0 = .busy .generating ((twoCompletions 3).child 1))) = some true := by
    decide
  obtain ⟨s, hs, hslot⟩ := Option.map_eq_some_iff.mp hrun
  exact ⟨s, hs, of_decide_eq_true hslot, children_tended hk hs⟩

/-- The prompt fills the context: the parent is rejected, its child waits on, and after three more
rounds with nothing to decode the server aborts. -/
def abortingRun : List Action :=
  [.post [twoCompletions 4] false, .pop, .process { available := some 1 }, .noTasks,
    .update { nextId := 5 }, .callback, .wake, .pop, .process { available := some 1 }, .noTasks,
    .update { nextId := 6 }, .wake, .pop, .process { available := some 1 }, .noTasks,
    .update { nextId := 7 }, .wake, .pop, .process { available := some 1 }, .noTasks,
    .update { nextId := 8 }]

theorem abortingRun_untended :
    (∃ s, run twoSlots (abortingRun.take 5) = some s ∧
      s.slots 0 = .busy .waitOther ((twoCompletions 4).child 1) ∧ s.slots 1 = .idle) ∧
    ¬ ∀ (cfg : Config) (as : List Action) (s : State), run cfg as = some s → s.Tended := by
  constructor
  · have hrun : ((run twoSlots (abortingRun.take 5)).map fun s =>
        decide (s.slots 0 = .busy .waitOther ((twoCompletions 4).child 1) ∧
          s.slots 1 = .idle)) = some true := by decide
    obtain ⟨s, hs, hslots⟩ := Option.map_eq_some_iff.mp hrun
    exact ⟨s, hs, of_decide_eq_true hslots⟩
  · intro h
    have hrun : ((run twoSlots abortingRun).map State.aborted) = some true := by decide
    obtain ⟨s, hs, hab⟩ := Option.map_eq_some_iff.mp hrun
    have := (h _ _ s hs).running
    rw [hab] at this
    contradiction

end Llama.Server
