import Llama.Server.Speculative

/-!
# Speculation is transparent until it reaches a limit

The speculating slot is simulated by the plain one, which takes one update for each token that the
other hands over. The simulation breaks exactly when several tokens are accepted at once and a
limit is reached behind the last of them: the checks stop the generation at the first.
-/

namespace Llama.Server

open List Option Function

/-- The `i`-th token handed to `process_token`. -/
def Hands (run : Nat → Generation) (i id : Nat) : Prop := ∃ n, (run n).handed[i]? = some id

/-- The content of the `i`-th partial response. -/
def Sends (run : Nat → Generation) (i : Nat) (chunk : Bytes) : Prop :=
  ∃ n, (run n).gen.chunks[i]? = some chunk

def Ends (run : Nat → Generation) (text : Bytes) : Prop :=
  ∃ n, (run n).gen.hasNext = false ∧ (run n).gen.text = text

/-- The tokens and the text are the same with speculation as without. -/
structure Transparent (p : SlotParams) (m : Target) (prompt : List Nat)
    (drafts : Nat → List Nat) : Prop where
  tokens : ∀ i id, Hands (Generation.run p m true prompt drafts) i id ↔
    Hands (Generation.run p m false prompt drafts) i id
  chunks : ∀ i chunk, Sends (Generation.run p m true prompt drafts) i chunk ↔
    Sends (Generation.run p m false prompt drafts) i chunk
  text : ∀ text, Ends (Generation.run p m true prompt drafts) text ↔
    Ends (Generation.run p m false prompt drafts) text

/-- Several tokens are accepted, a limit is reached behind the last of them, and the first does
not stop the generation itself. -/
def Generation.overruns (p : SlotParams) (m : Target) (s : Generation) (draft : List Nat) : Bool :=
  let s := s.contextShift p
  s.running && decide (2 ≤ (s.accepted p m draft).length) &&
    !p.within (s.nDecoded + (s.accepted p m draft).length)
      (s.prompt.length + (s.accepted p m draft).length) &&
    !stopsItself p.toGenParams s.gen (s.sampledToken m (m.next s.handed))

section Steps

variable {p : SlotParams} {m : Target} {s u : Generation}

/-- The tokens and the chunks of a slot only grow. -/
structure Extends (s u : Generation) : Prop where
  handed : s.handed <+: u.handed
  chunks : s.gen.chunks <+: u.gen.chunks

theorem Extends.refl (s : Generation) : Extends s s := ⟨prefix_rfl, prefix_rfl⟩

theorem Extends.trans {v : Generation} (h : Extends s u) (h' : Extends u v) : Extends s v :=
  ⟨h.handed.trans h'.handed, h.chunks.trans h'.chunks⟩

theorem chunks_prefix_processToken (q : GenParams) (g : Gen) (t : Sampled) :
    g.chunks <+: (processToken q g t).chunks := by
  rw [processToken_chunks]
  simp only [sendText]
  grind

theorem extends_hand (id : Nat) : Extends s (s.hand p m id) :=
  ⟨prefix_append _ _, chunks_prefix_processToken _ _ _⟩

theorem extends_handAll (ids : List Nat) : Extends s (s.handAll p m ids) := by
  induction ids generalizing s with
  | nil => exact Extends.refl s
  | cons id ids ih =>
    rw [Generation.handAll]
    split
    · exact (extends_hand id).trans ih
    · exact extends_hand id

@[simp] theorem contextShift_handed : (s.contextShift p).handed = s.handed := by
  unfold Generation.contextShift
  grind

@[simp] theorem contextShift_nDecoded : (s.contextShift p).nDecoded = s.nDecoded := by
  unfold Generation.contextShift
  grind

@[simp] theorem contextShift_sampled : (s.contextShift p).sampled = s.sampled := by
  unfold Generation.contextShift
  grind

@[simp] theorem contextShift_chunks : (s.contextShift p).gen.chunks = s.gen.chunks := by
  unfold Generation.contextShift
  grind

@[simp] theorem contextShift_hasNext : (s.contextShift p).gen.hasNext = s.gen.hasNext := by
  unfold Generation.contextShift
  grind

@[simp] theorem contextShift_nRemaining : (s.contextShift p).gen.nRemaining = s.gen.nRemaining := by
  unfold Generation.contextShift
  grind

@[simp] theorem contextShift_content : (s.contextShift p).gen.content = s.gen.content := by
  unfold Generation.contextShift
  split
  · split <;> rfl
  · rfl

theorem contextShift_of_room (h : (s.prompt.length : Int) + 1 < p.nCtx) : s.contextShift p = s :=
  if_neg (by omega)

theorem contextShift_congr (hp : s.prompt = u.prompt) (hf : s.failed = u.failed) :
    (s.contextShift p).prompt = (u.contextShift p).prompt ∧
      (s.contextShift p).failed = (u.contextShift p).failed := by
  unfold Generation.contextShift
  grind

theorem extends_contextShift : Extends s (s.contextShift p) := by
  have hrefl := Extends.refl (s.contextShift p)
  exact ⟨contextShift_handed (p := p) ▸ hrefl.handed, contextShift_chunks (p := p) ▸ hrefl.chunks⟩

theorem update_of_failed (hr : s.running = true) (hf : (s.contextShift p).failed = true)
    (b : Bool) (draft : List Nat) : s.update p m b draft = s.contextShift p := by
  rw [Generation.update, if_pos hr, if_pos hf]

theorem update_of_shifted (hr : s.running = true) (hf : (s.contextShift p).failed = false)
    (b : Bool) (draft : List Nat) :
    s.update p m b draft = (s.contextShift p).advance p m b draft := by
  rw [Generation.update, if_pos hr, hf, if_neg Bool.false_ne_true]

theorem update_of_stopped (hr : s.running = false) (b : Bool) (draft : List Nat) :
    s.update p m b draft = s := by
  rw [Generation.update, hr, if_neg Bool.false_ne_true]

theorem extends_advance (b : Bool) (draft : List Nat) : Extends s (s.advance p m b draft) := by
  have hmoved : ∀ ids, Extends s ((s.moved ids).handAll p m ids) :=
    fun ids => ⟨(extends_handAll (s := s.moved ids) ids).handed,
      (extends_handAll (s := s.moved ids) ids).chunks⟩
  cases b with
  | true =>
    rw [advance_true]
    exact hmoved _
  | false =>
    rw [advance_false]
    exact hmoved _

theorem extends_update (b : Bool) (draft : List Nat) : Extends s (s.update p m b draft) := by
  cases hr : s.running with
  | false =>
    rw [update_of_stopped hr]
    exact Extends.refl s
  | true =>
    cases hf : (s.contextShift p).failed with
    | true =>
      rw [update_of_failed hr hf]
      exact extends_contextShift
    | false =>
      rw [update_of_shifted hr hf]
      exact extends_contextShift.trans (extends_advance b draft)

/-- The two slots have handed over the same tokens; while they generate, the counters agree. -/
structure Aligned (s u : Generation) : Prop where
  handed : s.handed = u.handed
  content : s.gen.content = u.gen.content
  hasNext : s.gen.hasNext = u.gen.hasNext
  failed : s.failed = u.failed
  prompt : s.running = true → s.prompt = u.prompt
  nDecoded : s.running = true → s.nDecoded = u.nDecoded
  sampled : s.running = true → s.sampled = u.sampled

theorem Aligned.running (h : Aligned s u) : s.running = u.running := by
  rw [Generation.running, Generation.running, h.hasNext, h.failed]

/-- The limits are checked at larger counters first. -/
theorem within_mono {q : GenParams} {n n' t t' : Int} (h : q.within n t = true) (h0 : 0 < n')
    (hn : n' ≤ n) (ht : t' ≤ t) : q.within n' t' = true := by
  unfold GenParams.within at h ⊢
  cases hb : q.budget with
  | none =>
    simp only [hb, all_none, Bool.or_true, Bool.and_true, Bool.or_eq_true, decide_eq_true_eq] at h ⊢
    exact h.imp_right fun h => by omega
  | some k =>
    simp only [hb, all_some, Bool.and_eq_true, Bool.or_eq_true, decide_eq_true_eq] at h ⊢
    obtain ⟨hc, hk⟩ := h
    constructor
    · exact hc.imp_right fun h => by omega
    · right
      omega

/-- Both slots hand over the same token. -/
theorem hand_hasNext (id : Nat) : (s.hand p m id).gen.hasNext =
    (!stopsItself p.toGenParams s.gen (s.sampledToken m id) &&
      p.within s.nDecoded s.prompt.length) :=
  hasNext_processToken p.toGenParams

theorem hand_content (hc : s.gen.content = u.gen.content) (id : Nat) :
    (s.hand p m id).gen.content = (u.hand p m id).gen.content :=
  content_processToken p.toGenParams hc rfl rfl rfl

theorem stopsItself_sampledToken (hc : s.gen.content = u.gen.content) (id : Nat) :
    stopsItself p.toGenParams s.gen (s.sampledToken m id) =
      stopsItself p.toGenParams u.gen (u.sampledToken m id) :=
  stopsItself_congr p.toGenParams hc rfl rfl rfl

theorem aligned_hand (hh : s.handed = u.handed) (hc : s.gen.content = u.gen.content)
    (hf : s.failed = u.failed) (id : Nat)
    (hn : (s.hand p m id).gen.hasNext = (u.hand p m id).gen.hasNext)
    (hp : (s.hand p m id).gen.hasNext = true → s.prompt = u.prompt ∧ s.nDecoded = u.nDecoded) :
    Aligned (s.hand p m id) (u.hand p m id) where
  handed := congrArg (· ++ [id]) hh
  content := hand_content hc id
  hasNext := hn
  failed := hf
  prompt h := (hp (Bool.and_eq_true_iff.mp h).1).1
  nDecoded h := (hp (Bool.and_eq_true_iff.mp h).1).2
  sampled _ := rfl

/-- One update of the plain slot, after the context shift. -/
theorem advance_false_eq_hand (draft : List Nat) : s.advance p m false draft =
    (s.moved [m.next s.handed]).hand p m (m.next s.handed) := by
  rw [advance_false, Generation.handAll, Generation.handAll]
  split <;> rfl

/-- One update of a slot without speculation. -/
def Generation.plain (p : SlotParams) (m : Target) (s : Generation) : Generation :=
  s.update p m false []

theorem plain_of_room (hr : s.running = true) (h : (s.prompt.length : Int) + 1 < p.nCtx) :
    s.plain p m = s.advance p m false [] := by
  have hs := contextShift_of_room h
  have hf : s.failed = false := by
    rw [Generation.running, Bool.and_eq_true_iff, Bool.not_eq_true'] at hr
    exact hr.2
  rw [Generation.plain, update_of_shifted hr (by rw [hs, hf]), hs]

/-- The plain slot hands over the accepted tokens in as many updates, if the limits are not
reached behind the last of them. -/
theorem handAll_follows : ∀ (ids : List Nat) {s u : Generation}, ids ≠ [] →
    Generated m.next u.handed ids → s.handed = u.handed →
    s.gen.content = u.gen.content → s.failed = false → u.failed = false →
    s.nDecoded = u.nDecoded + ids.length →
    s.prompt = u.prompt ++ u.sampled :: ids.dropLast →
    (2 ≤ ids.length → p.within s.nDecoded s.prompt.length = true ∧
      (u.prompt.length + ids.length + 1 : Int) ≤ p.nCtx) →
    ∃ k, Aligned (s.handAll p m ids) ((Generation.plain p m)^[k] (u.advance p m false []))
  | [], _, _, hne, _, _, _, _, _, _, _, _ => absurd rfl hne
  | [id], s, u, _, hgen, hh, hc, hf, hf', hn, hp, _ => by
    obtain ⟨rfl, -⟩ := hgen
    refine ⟨0, ?_⟩
    rw [iterate_zero_apply, advance_false_eq_hand, Generation.handAll, Generation.handAll, ite_self]
    have hc' : s.gen.content = (u.moved [m.next u.handed]).gen.content := hc
    have hn' : s.nDecoded = (u.moved [m.next u.handed]).nDecoded := hn
    have hp' : s.prompt = (u.moved [m.next u.handed]).prompt := hp
    apply aligned_hand (u := u.moved [m.next u.handed]) hh hc' (hf.trans hf'.symm)
    · rw [hand_hasNext, hand_hasNext, hn', hp', stopsItself_sampledToken hc']
    · exact fun _ => ⟨hp', hn'⟩
  | id :: id2 :: rest, s, u, _, hgen, hh, hc, hf, hf', hn, hp, hlim => by
    obtain ⟨rfl, hgen⟩ := hgen
    obtain ⟨hw, hroom⟩ := hlim (by simp)
    have hc' : s.gen.content = (u.moved [m.next u.handed]).gen.content := hc
    have hlen' : (u.moved [m.next u.handed]).prompt.length = u.prompt.length + 1 := by
      simp [Generation.moved]
    have hn' : (u.moved [m.next u.handed]).nDecoded = u.nDecoded + 1 := rfl
    have hlen : s.prompt.length = u.prompt.length + 1 + (rest.length + 1) := by
      rw [hp]
      simp
      omega
    simp only [length_cons] at hn hroom
    -- within the limits behind the last token, both slots are within them at the first
    have hw' : p.within (u.moved [m.next u.handed]).nDecoded
        (u.moved [m.next u.handed]).prompt.length = true := by
      apply within_mono hw
      · omega
      · omega
      · omega
    have hnext : (s.hand p m (m.next u.handed)).gen.hasNext =
        ((u.moved [m.next u.handed]).hand p m (m.next u.handed)).gen.hasNext := by
      rw [hand_hasNext, hand_hasNext, hw, hw', stopsItself_sampledToken hc']
    rw [advance_false_eq_hand, Generation.handAll]
    split
    · next hgo =>
      have hrun : ((u.moved [m.next u.handed]).hand p m (m.next u.handed)).running = true := by
        rw [Generation.running, ← hnext, hgo]
        simpa [Generation.hand, Generation.moved] using hf'
      have hroom' : (((u.moved [m.next u.handed]).hand p m (m.next u.handed)).prompt.length +
          (id2 :: rest).length + 1 : Int) ≤ p.nCtx := by
        simp only [Generation.hand, hlen', length_cons]
        omega
      obtain ⟨k, hk⟩ := handAll_follows (id2 :: rest)
        (s := s.hand p m (m.next u.handed))
        (u := (u.moved [m.next u.handed]).hand p m (m.next u.handed))
        (cons_ne_nil _ _) hgen (congrArg (· ++ [m.next u.handed]) hh) (hand_content hc' _)
        hf hf' (by simp only [Generation.hand, hn', length_cons]; omega)
        (by simp [Generation.hand, Generation.moved, hp]) (fun _ => ⟨hw, hroom'⟩)
      refine ⟨k + 1, ?_⟩
      rw [iterate_succ_apply, plain_of_room hrun]
      · exact hk
      · simp only [length_cons] at hroom'
        omega
    · next hgo =>
      refine ⟨0, ?_⟩
      rw [iterate_zero_apply]
      exact aligned_hand (u := u.moved [m.next u.handed]) hh hc' (hf.trans hf'.symm) _ hnext
        fun h => absurd h hgo

/-- Several tokens are accepted only where the context has room for them. -/
theorem accepted_room (draft : List Nat) (h : 2 ≤ (s.accepted p m draft).length) :
    (s.prompt.length + (s.accepted p m draft).length + 1 : Int) ≤ p.nCtx := by
  have hle := length_accepted_le p m s draft h
  have hmax : 0 < s.nDraftMax p → s.nDraftMax p ≤ p.nCtx - s.prompt.length - 2 := by
    intro hpos
    unfold Generation.nDraftMax at hpos ⊢
    grind
  have := hmax (by omega)
  omega

theorem Aligned.contextShift (h : Aligned s u) (hr : s.running = true) :
    Aligned (s.contextShift p) (u.contextShift p) := by
  obtain ⟨hprompt, hfailed⟩ := contextShift_congr (p := p) (h.prompt hr) h.failed
  constructor
  · rw [contextShift_handed, contextShift_handed, h.handed]
  · rw [contextShift_content, contextShift_content, h.content]
  · rw [contextShift_hasNext, contextShift_hasNext, h.hasNext]
  · exact hfailed
  · exact fun _ => hprompt
  · rw [contextShift_nDecoded, contextShift_nDecoded]
    exact fun _ => h.nDecoded hr
  · rw [contextShift_sampled, contextShift_sampled]
    exact fun _ => h.sampled hr

theorem running_contextShift (hr : s.running = true) (hf : (s.contextShift p).failed = false) :
    (s.contextShift p).running = true := by
  rw [Generation.running, Bool.and_eq_true_iff] at hr ⊢
  rw [contextShift_hasNext, hf]
  exact ⟨hr.1, rfl⟩

/-- A first token that stops the generation itself is the last one, at whatever counters. -/
theorem handAll_of_stopsItself {ids : List Nat} (hne : ids ≠ [])
    (hgen : Generated m.next s.handed ids)
    (hstop : stopsItself p.toGenParams s.gen (s.sampledToken m (m.next s.handed)) = true) :
    s.handAll p m ids = s.hand p m (m.next s.handed) ∧
      (s.hand p m (m.next s.handed)).gen.hasNext = false := by
  cases ids with
  | nil => exact absurd rfl hne
  | cons id ids =>
    obtain ⟨rfl, -⟩ := hgen
    have hno : (s.hand p m (m.next s.handed)).gen.hasNext = false := by
      rw [hand_hasNext, hstop]
      rfl
    rw [Generation.handAll, hno]
    exact ⟨rfl, rfl⟩

/-- After the context shift, the plain slot follows an update that does not overrun. -/
theorem advance_follows (h : Aligned s u) (hr : s.running = true) (draft : List Nat)
    (hok : 2 ≤ (s.accepted p m draft).length →
      p.within (s.nDecoded + (s.accepted p m draft).length)
        (s.prompt.length + (s.accepted p m draft).length) = true ∨
      stopsItself p.toGenParams s.gen (s.sampledToken m (m.next s.handed)) = true) :
    ∃ k, Aligned (s.advance p m true draft)
      ((Generation.plain p m)^[k] (u.advance p m false [])) := by
  have hf : s.failed = false := by
    rw [Generation.running, Bool.and_eq_true_iff, Bool.not_eq_true'] at hr
    exact hr.2
  have hne := accepted_ne_nil p m s draft
  have hgen := generated_accepted p m s draft
  have hlen : ((s.moved (s.accepted p m draft)).prompt.length : Int) =
      s.prompt.length + (s.accepted p m draft).length := by
    have hpos := length_pos_iff.mpr hne
    simp only [Generation.moved, length_append, length_cons, length_dropLast]
    omega
  rw [advance_true]
  by_cases hstop : stopsItself p.toGenParams s.gen (s.sampledToken m (m.next s.handed)) = true
  · have hmoved : ∀ w : Generation, s.gen.content = w.gen.content →
        stopsItself p.toGenParams w.gen (w.sampledToken m (m.next s.handed)) = true :=
      fun w hw => (stopsItself_sampledToken hw _).symm.trans hstop
    obtain ⟨hall, hno⟩ := handAll_of_stopsItself (p := p)
      (s := s.moved (s.accepted p m draft)) hne hgen (hmoved _ rfl)
    have hno' : ((u.moved [m.next u.handed]).hand p m (m.next u.handed)).gen.hasNext =
        false := by
      rw [hand_hasNext, ← h.handed, hmoved (u.moved [m.next s.handed]) h.content]
      rfl
    refine ⟨0, ?_⟩
    rw [iterate_zero_apply, advance_false_eq_hand, hall]
    rw [← h.handed] at hno' ⊢
    exact aligned_hand (s := s.moved (s.accepted p m draft)) (u := u.moved [m.next s.handed])
      h.handed h.content h.failed _ (hno.trans hno'.symm) fun hn => absurd hn (by
        rw [hno]
        exact Bool.false_ne_true)
  · apply handAll_follows (s := s.moved (s.accepted p m draft)) (u := u) _ hne
      (h.handed ▸ hgen) h.handed h.content hf (h.failed ▸ hf)
    · exact congrArg (· + _) (h.nDecoded hr)
    · simp only [Generation.moved, h.prompt hr, h.sampled hr]
    · intro h2
      refine ⟨?_, ?_⟩
      · rw [hlen]
        exact (hok h2).resolve_right hstop
      · rw [← h.prompt hr]
        exact accepted_room draft h2

/-- The plain slot follows every update that does not overrun. -/
theorem update_follows (h : Aligned s u) (draft : List Nat) (hok : s.overruns p m draft = false) :
    ∃ k, Aligned (s.update p m true draft) ((Generation.plain p m)^[k] u) := by
  cases hr : s.running with
  | false =>
    rw [update_of_stopped hr]
    exact ⟨0, h⟩
  | true =>
    have hr' : u.running = true := h.running ▸ hr
    have hshift := h.contextShift (p := p) hr
    cases hf : (s.contextShift p).failed with
    | true =>
      refine ⟨1, ?_⟩
      rw [update_of_failed hr hf]
      rw [iterate_one, Generation.plain, update_of_failed hr' (hshift.failed ▸ hf)]
      exact hshift
    | false =>
      have hrun := running_contextShift hr hf
      obtain ⟨k, hk⟩ := advance_follows (p := p) (m := m) hshift hrun draft (by
        intro h2
        simp only [Generation.overruns, hrun, h2, decide_true, Bool.true_and] at hok
        cases hw : p.within ((s.contextShift p).nDecoded +
            ((s.contextShift p).accepted p m draft).length)
            ((s.contextShift p).prompt.length +
              ((s.contextShift p).accepted p m draft).length) with
        | true => exact .inl rfl
        | false =>
          right
          rw [hw] at hok
          simpa using hok)
      refine ⟨k + 1, ?_⟩
      rw [update_of_shifted hr hf, iterate_succ_apply, Generation.plain,
        update_of_shifted hr' (hshift.failed ▸ hf)]
      exact hk

end Steps

section Runs

variable {p : SlotParams} {m : Target} {prompt : List Nat} {drafts : Nat → List Nat} {b : Bool}

variable {k n : Nat} {s : Generation} {ids draft : List Nat}

theorem extends_run (h : n ≤ k) :
    Extends (Generation.run p m b prompt drafts n) (Generation.run p m b prompt drafts k) := by
  induction h with
  | refl => exact Extends.refl _
  | step hk ih => exact ih.trans (extends_update b (drafts _))

/-- A slot that was released stays as it is. -/
theorem run_of_stopped (h : n ≤ k) (hs : (Generation.run p m b prompt drafts n).running = false) :
    Generation.run p m b prompt drafts k = Generation.run p m b prompt drafts n := by
  induction h with
  | refl => rfl
  | step hk ih =>
    rw [Generation.run, ih]
    exact update_of_stopped hs b (drafts _)

/-- Without speculation the proposed drafts do not matter. -/
theorem update_false (s : Generation) (draft : List Nat) :
    s.update p m false draft = s.plain p m := by
  simp only [Generation.plain, Generation.update, advance_false]

theorem iterate_plain_run (k n : Nat) :
    (Generation.plain p m)^[k] (Generation.run p m false prompt drafts n) =
      Generation.run p m false prompt drafts (n + k) := by
  induction k with
  | zero => rfl
  | succ k ih => rw [iterate_succ_apply', ih, Nat.add_succ, Generation.run, update_false]

/-- Every state of the speculating slot is aligned with one of the plain slot. -/
theorem run_follows (n : Nat)
    (hok : ∀ i < n, (Generation.run p m true prompt drafts i).overruns p m (drafts i) = false) :
    ∃ k, Aligned (Generation.run p m true prompt drafts n)
      (Generation.run p m false prompt drafts k) := by
  induction n with
  | zero => exact ⟨0, rfl, rfl, rfl, rfl, fun _ => rfl, fun _ => rfl, fun _ => rfl⟩
  | succ n ih =>
    obtain ⟨k, hk⟩ := ih fun i hi => hok i (Nat.lt_succ_of_lt hi)
    obtain ⟨j, hj⟩ := update_follows hk (drafts n) (hok n (Nat.lt_succ_self n))
    rw [iterate_plain_run] at hj
    exact ⟨k + j, hj⟩

theorem length_handed_plain (s : Generation) :
    (s.plain p m).handed.length ≤ s.handed.length + 1 := by
  cases hr : s.running with
  | false =>
    rw [Generation.plain, update_of_stopped hr]
    omega
  | true =>
    cases hf : (s.contextShift p).failed with
    | true =>
      rw [Generation.plain, update_of_failed hr hf, contextShift_handed]
      omega
    | false =>
      rw [Generation.plain, update_of_shifted hr hf, advance_false_eq_hand]
      simp [Generation.hand, Generation.moved]

theorem length_handed_run_false (k : Nat) :
    (Generation.run p m false prompt drafts k).handed.length ≤ k + 1 := by
  induction k with
  | zero => simp [Generation.run, Generation.decode, Generation.hand]
  | succ k ih =>
    rw [Generation.run, update_false]
    have := length_handed_plain (p := p) (m := m) (Generation.run p m false prompt drafts k)
    omega

theorem length_handed_handAll (h : ids ≠ []) :
    s.handed.length < (s.handAll p m ids).handed.length := by
  cases ids with
  | nil => exact absurd rfl h
  | cons id ids =>
    have hlt : s.handed.length < (s.hand p m id).handed.length := by simp [Generation.hand]
    rw [Generation.handAll]
    split
    · exact Nat.lt_of_lt_of_le hlt (extends_handAll ids).handed.length_le
    · exact hlt

/-- An update that does not fail hands over a token. -/
theorem length_handed_update (draft : List Nat) (hr : s.running = true)
    (hf : (s.contextShift p).failed = false) :
    s.handed.length < (s.update p m b draft).handed.length := by
  rw [update_of_shifted hr hf, ← contextShift_handed (p := p) (s := s)]
  cases b with
  | true =>
    rw [advance_true]
    exact length_handed_handAll (s := (s.contextShift p).moved _) (accepted_ne_nil _ _ _ _)
  | false =>
    rw [advance_false]
    exact length_handed_handAll (s := (s.contextShift p).moved _) (cons_ne_nil _ _)

theorem lt_length_handed_run (n : Nat) (h : (Generation.run p m b prompt drafts n).running = true) :
    n < (Generation.run p m b prompt drafts n).handed.length := by
  induction n with
  | zero => simp [Generation.run, Generation.decode, Generation.hand]
  | succ n ih =>
    rw [Generation.run] at h ⊢
    cases hr : (Generation.run p m b prompt drafts n).running with
    | false =>
      rw [update_of_stopped hr, hr] at h
      cases h
    | true =>
      cases hf : ((Generation.run p m b prompt drafts n).contextShift p).failed with
      | true =>
        rw [update_of_failed hr hf, Generation.running, hf] at h
        simp at h
      | false =>
        have hlt := length_handed_update (p := p) (m := m) (b := b) (drafts n) hr hf
        have := ih hr
        omega

/-- The speculating slot catches up with every state of the plain one. -/
theorem run_catches_up
    (hok : ∀ n, (Generation.run p m true prompt drafts n).overruns p m (drafts n) = false)
    (k : Nat) : ∃ n j, k ≤ j ∧ Aligned (Generation.run p m true prompt drafts n)
      (Generation.run p m false prompt drafts j) := by
  obtain ⟨j, hj⟩ := run_follows k fun i _ => hok i
  rcases Nat.lt_or_ge j k with hlt | hge
  · -- the plain slot has handed over too few tokens for the other to go on
    have hstop : (Generation.run p m false prompt drafts j).running = false := by
      rw [← hj.running]
      by_contra hrun
      have h1 := lt_length_handed_run k (Bool.not_eq_false _ ▸ hrun)
      have h2 : (Generation.run p m false prompt drafts j).handed.length ≤ j + 1 :=
        length_handed_run_false j
      rw [hj.handed] at h1
      omega
    refine ⟨k, k, Nat.le_refl k, ?_⟩
    rw [run_of_stopped (Nat.le_of_lt hlt) hstop]
    exact hj
  · exact ⟨k, j, hge, hj⟩

theorem Aligned.chunks {s u : Generation} (h : Aligned s u) : s.gen.chunks = u.gen.chunks := by
  have hc : s.gen.content.chunks = u.gen.content.chunks := by rw [h.content]
  exact hc

theorem Aligned.text {s u : Generation} (h : Aligned s u) : s.gen.text = u.gen.text := by
  have hc : s.gen.content.text = u.gen.content.text := by rw [h.content]
  exact hc

theorem getElem?_of_prefix {α : Type} {l l' : List α} {i : Nat} {a : α} (h : l <+: l')
    (hi : l[i]? = some a) : l'[i]? = some a := by
  obtain ⟨t, rfl⟩ := h
  rw [getElem?_append_left (List.getElem?_eq_some_iff.mp hi).1]
  exact hi

theorem transparent_of_not_overruns
    (hok : ∀ n, (Generation.run p m true prompt drafts n).overruns p m (drafts n) = false) :
    Transparent p m prompt drafts := by
  constructor
  · intro i id
    constructor
    · rintro ⟨n, hn⟩
      obtain ⟨k, hk⟩ := run_follows n fun i _ => hok i
      exact ⟨k, hk.handed ▸ hn⟩
    · rintro ⟨k, hk⟩
      obtain ⟨n, j, hkj, hj⟩ := run_catches_up hok k
      refine ⟨n, ?_⟩
      rw [hj.handed]
      exact getElem?_of_prefix (extends_run hkj).handed hk
  · intro i chunk
    constructor
    · rintro ⟨n, hn⟩
      obtain ⟨k, hk⟩ := run_follows n fun i _ => hok i
      exact ⟨k, hk.chunks ▸ hn⟩
    · rintro ⟨k, hk⟩
      obtain ⟨n, j, hkj, hj⟩ := run_catches_up hok k
      refine ⟨n, ?_⟩
      rw [hj.chunks]
      exact getElem?_of_prefix (extends_run hkj).chunks hk
  · intro text
    constructor
    · rintro ⟨n, hn, ht⟩
      obtain ⟨k, hk⟩ := run_follows n fun i _ => hok i
      exact ⟨k, hk.hasNext ▸ hn, hk.text ▸ ht⟩
    · rintro ⟨k, hk, ht⟩
      obtain ⟨n, j, hkj, hj⟩ := run_catches_up hok k
      have hstop : (Generation.run p m false prompt drafts k).running = false := by
        rw [Generation.running, hk]
        rfl
      rw [run_of_stopped hkj hstop] at hj
      exact ⟨n, hj.hasNext.trans hk, hj.text.trans ht⟩

/-- While the slot generates, `n_remaining` is positive and says what is left of the budget. -/
def Counted (p : SlotParams) (s : Generation) : Prop :=
  s.gen.hasNext = true → ∀ n, p.budget = some n → s.nDecoded < n ∧ s.gen.nRemaining = n - s.nDecoded

theorem counted_hand (h0 : 0 < s.nDecoded) (id : Nat) : Counted p (s.hand p m id) := by
  intro hnext n hn
  constructor
  · rw [hand_hasNext, Bool.and_eq_true_iff] at hnext
    have hw := hnext.2
    simp only [GenParams.within, hn, all_some, Bool.and_eq_true, Bool.or_eq_true,
      decide_eq_true_eq] at hw
    change (s.nDecoded : Int) < n
    omega
  · exact nRemaining_processToken p.toGenParams hn (by
      change (0 : Int) < s.nDecoded
      omega) hnext

theorem counted_handAll (hne : ids ≠ []) :
    ∀ {s : Generation}, 0 < s.nDecoded → Counted p (s.handAll p m ids) := by
  induction ids with
  | nil => exact absurd rfl hne
  | cons id ids ih =>
    intro s h0
    rw [Generation.handAll]
    split
    · cases ids with
      | nil => exact counted_hand h0 id
      | cons id' ids => exact ih (cons_ne_nil _ _) h0
    · exact counted_hand h0 id

theorem counted_contextShift (h : Counted p s) : Counted p (s.contextShift p) := by
  unfold Counted at h ⊢
  rw [contextShift_hasNext, contextShift_nDecoded, contextShift_nRemaining]
  exact h

theorem counted_update (h : Counted p s) (draft : List Nat) :
    Counted p (s.update p m true draft) := by
  cases hr : s.running with
  | false =>
    rw [update_of_stopped hr]
    exact h
  | true =>
    cases hf : (s.contextShift p).failed with
    | true =>
      rw [update_of_failed hr hf]
      exact counted_contextShift h
    | false =>
      rw [update_of_shifted hr hf, advance_true]
      have hne := accepted_ne_nil p m (s.contextShift p) draft
      have hpos := length_pos_iff.mpr hne
      exact counted_handAll hne (Nat.lt_of_lt_of_le hpos (Nat.le_add_left _ _))

theorem counted_run (n : Nat) : Counted p (Generation.run p m true prompt drafts n) := by
  induction n with
  | zero => exact counted_hand (Nat.succ_pos _) _
  | succ n ih => exact counted_update ih (drafts n)

/-- Where several tokens are accepted, the limits are not reached at the first of them. -/
theorem within_first (h : Counted p s) (hr : s.running = true) (draft : List Nat)
    (h2 : 2 ≤ (s.accepted p m draft).length) :
    p.within (s.nDecoded + 1) (s.prompt.length + 1) = true := by
  have hroom := accepted_room draft h2
  have hle := length_accepted_le p m s draft h2
  have hnext := (Bool.and_eq_true_iff.mp hr).1
  have hctx : (s.prompt.length + 1 + 1 : Int) < p.nCtx := by omega
  cases hb : p.budget with
  | none => simp [GenParams.within, hb, hctx]
  | some n =>
    obtain ⟨hlt, hrem⟩ := h hnext n hb
    have hmax : 0 < s.nDraftMax p → s.nDraftMax p ≤ n - s.nDecoded - 1 := by
      intro hpos
      unfold Generation.nDraftMax at hpos ⊢
      grind
    have := hmax (by omega)
    have hn : (s.nDecoded + 1 : Int) < n := by omega
    simp [GenParams.within, hb, hctx, hn]

theorem running_of_contextShift (h : (s.contextShift p).running = true) :
    s.running = true ∧ (s.contextShift p).failed = false := by
  rw [Generation.running, Bool.and_eq_true_iff, contextShift_hasNext, Bool.not_eq_true'] at h
  obtain ⟨hnext, hf⟩ := h
  have hf' : s.failed = false := by
    unfold Generation.contextShift at hf
    grind
  exact ⟨by rw [Generation.running, hnext, hf']; rfl, hf⟩

/-- An update that overruns hands over one token and stops. -/
theorem update_of_overruns (ho : s.overruns p m draft = true) :
    (s.update p m true draft).running = false ∧
      (s.update p m true draft).handed.length = s.handed.length + 1 := by
  simp only [Generation.overruns, Bool.and_eq_true, Bool.not_eq_true'] at ho
  obtain ⟨⟨⟨hrun, -⟩, hlim⟩, -⟩ := ho
  obtain ⟨hr, hf⟩ := running_of_contextShift hrun
  rw [update_of_shifted hr hf, advance_true]
  have hne := accepted_ne_nil p m (s.contextShift p) draft
  cases hids : (s.contextShift p).accepted p m draft with
  | nil => exact absurd hids hne
  | cons id ids =>
    have hlen : ((s.contextShift p).moved (id :: ids)).prompt.length =
        (s.contextShift p).prompt.length + (id :: ids).length := by
      simp [Generation.moved]
    have hno : (((s.contextShift p).moved (id :: ids)).hand p m id).gen.hasNext = false := by
      rw [hids] at hlim
      rw [hand_hasNext, hlen]
      simp only [Generation.moved]
      push_cast
      rw [hlim, Bool.and_false]
    rw [Generation.handAll, hno, if_neg Bool.false_ne_true, Generation.running, hno]
    exact ⟨rfl, by simp [Generation.hand, Generation.moved]⟩

/-- The plain slot hands over two tokens there. -/
theorem plain_of_overruns {u : Generation} (h : Aligned s u) (hcount : Counted p s)
    (ho : s.overruns p m draft = true) :
    ((u.plain p m).plain p m).handed.length = s.handed.length + 2 := by
  simp only [Generation.overruns, Bool.and_eq_true, Bool.not_eq_true', decide_eq_true_eq] at ho
  obtain ⟨⟨⟨hrun, h2⟩, -⟩, hgo⟩ := ho
  obtain ⟨hr, hf⟩ := running_of_contextShift hrun
  have hshift := h.contextShift (p := p) hr
  have hr' : u.running = true := h.running ▸ hr
  have hroom := accepted_room draft h2
  have hw := within_first (counted_contextShift hcount) hrun draft h2
  rw [hshift.prompt hrun] at hroom hw
  rw [hshift.nDecoded hrun] at hw
  rw [← contextShift_handed (p := p) (s := s), hshift.handed]
  have hf' := hshift.failed ▸ hf
  rw [stopsItself_sampledToken (u := (u.contextShift p).moved [m.next (u.contextShift p).handed])
    hshift.content, hshift.handed] at hgo
  have hplain : u.plain p m = ((u.contextShift p).moved
      [m.next (u.contextShift p).handed]).hand p m (m.next (u.contextShift p).handed) := by
    rw [Generation.plain, update_of_shifted hr' hf', advance_false_eq_hand]
  have hrun' : (u.plain p m).running = true := by
    rw [hplain, Generation.running, hand_hasNext, hgo]
    have hlen : (((u.contextShift p).moved [m.next (u.contextShift p).handed]).prompt.length
        : Int) = (u.contextShift p).prompt.length + 1 := by
      simp [Generation.moved]
    rw [hlen]
    simpa [Generation.moved, Generation.hand, hf'] using hw
  rw [plain_of_room hrun', advance_false_eq_hand, hplain]
  · simp [Generation.hand, Generation.moved]
  · rw [hplain]
    simp [Generation.hand, Generation.moved]
    omega

end Runs

/-- Speculation is transparent exactly if no update overruns. -/
theorem transparent_iff (p : SlotParams) (m : Target) (prompt : List Nat)
    (drafts : Nat → List Nat) :
    Transparent p m prompt drafts ↔
      ∀ n, (Generation.run p m true prompt drafts n).overruns p m (drafts n) = false := by
  constructor
  · intro ht n
    induction n using Nat.strongRecOn with
    | ind n ih =>
      by_contra hcon
      have ho := Bool.not_eq_false _ ▸ hcon
      obtain ⟨k, hk⟩ := run_follows n ih
      obtain ⟨hstop, hlen⟩ := update_of_overruns ho
      have hplain := plain_of_overruns hk (counted_run n) ho
      -- the plain slot hands over a second token, which the other never does
      have hrun : ((Generation.run p m false prompt drafts k).plain p m).plain p m =
          Generation.run p m false prompt drafts (k + 2) := by
        rw [← iterate_plain_run]
        rfl
      rw [hrun] at hplain
      have hlast : (Generation.run p m true prompt drafts n).handed.length + 1 <
          (Generation.run p m false prompt drafts (k + 2)).handed.length := by omega
      obtain ⟨j, hj⟩ := (ht.tokens _ _).mpr ⟨k + 2, getElem?_eq_getElem hlast⟩
      have hlt := (List.getElem?_eq_some_iff.mp hj).1
      rcases Nat.lt_or_ge j (n + 1) with hjn | hjn
      · have hext : Extends (Generation.run p m true prompt drafts j)
            (Generation.run p m true prompt drafts (n + 1)) := extends_run (Nat.le_of_lt hjn)
        have hle := hext.handed.length_le
        rw [Generation.run, hlen] at hle
        omega
      · rw [run_of_stopped hjn hstop, Generation.run, hlen] at hlt
        omega
  · exact transparent_of_not_overruns

/-- A target that counts. -/
def countingTarget : Target where
  next := List.length
  piece id := [UInt8.ofNat (0x61 + id)]
  eog _ := false

/-- With three tokens to predict and a correct draft, only two are handed over. -/
theorem draft_at_budget_is_cut :
    ¬ ∀ (p : SlotParams) (m : Target) (prompt : List Nat) (drafts : Nat → List Nat),
      Transparent p m prompt drafts := by
  intro h
  have hplain : Hands (Generation.run { nPredict := 3, nCtx := 64 } countingTarget false [7]
      fun _ => [1, 2]) 2 2 := ⟨2, by decide⟩
  obtain ⟨n, hn⟩ := ((h _ _ _ _).tokens 2 2).mpr hplain
  cases n with
  | zero => exact absurd hn (by decide)
  | succ n =>
    rw [run_of_stopped (Nat.le_add_left 1 n) (by decide)] at hn
    exact absurd hn (by decide)

end Llama.Server
