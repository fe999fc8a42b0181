import Llama.Grammar.Lazy

/-!
# Replay

Accepting the pieces of a text token by token ends like accepting the text at once. The loop over
the kept tokens of a lazy grammar accepts the pieces of the text from the match on.
-/

namespace Llama.Grammar

open List Option

open Loop (bind_ok)
open Peg (encode)

variable {rules : Rules} {fuel : Nat}

/-- One throws about an empty stack exactly when the other does, and where neither stops the
states agree. -/
def SameOutcome : Except Stop State → Except Stop State → Prop
  | .ok g, .ok g' => (∀ s, s ∈ g.stackSet ↔ s ∈ g'.stackSet) ∧ g.partialUtf8 = g'.partialUtf8
  | .error e, .error e' => e = .emptyStack ↔ e' = .emptyStack
  | _, _ => False

/-- The call fails in the given case. Otherwise it ends with the given stacks, and throws when
there are none. -/
def Outcome (r : Except Stop State) (fails : Prop) (S : Stack → Prop) (p : PartialUtf8) : Prop :=
  (fails ∧ ∃ e, e.Fatal ∧ r = .error e) ∨
    (¬ fails ∧ ∃ sts : Stacks, (∀ t, t ∈ sts ↔ S t) ∧
      r = if sts = [] then .error .emptyStack else .ok { stackSet := sts, partialUtf8 := p })

variable {r : Except Stop State} {f : Prop} {S : Stack → Prop} {p : PartialUtf8} {g : State}
  {q : List UInt8} {cps u v : List Nat} {s : Stack} {sts sts' : Stacks}

theorem Outcome.congr {f' : Prop} {S' : Stack → Prop} (h : Outcome r f S p) (hf : f ↔ f')
    (hS : ∀ t, S t ↔ S' t) : Outcome r f' S' p := by
  obtain rfl := propext hf
  obtain rfl : S = S' := funext fun t => propext (hS t)
  exact h

theorem Outcome.same {r' : Except Stop State} (h : Outcome r f S p) (h' : Outcome r' f S p) :
    SameOutcome r r' := by
  rcases h with ⟨hf, e, he, rfl⟩ | ⟨hf, sts, hsts, rfl⟩
  · rcases h' with ⟨-, e', he', rfl⟩ | ⟨hn, -⟩
    · exact ⟨fun heq => (he heq).elim, fun heq => (he' heq).elim⟩
    · exact (hn hf).elim
  · rcases h' with ⟨hn, -⟩ | ⟨-, sts', hsts', rfl⟩
    · exact (hf hn).elim
    · have hmem : ∀ t, t ∈ sts ↔ t ∈ sts' := fun t => (hsts t).trans (hsts' t).symm
      have hempty : sts = [] ↔ sts' = [] := by
        simp only [eq_nil_iff_forall_not_mem, hmem]
      by_cases hs : sts = []
      · rw [if_pos hs, if_pos (hempty.mp hs)]
        exact Iff.rfl
      · rw [if_neg hs, if_neg (mt hempty.mpr hs)]
        exact ⟨hmem, rfl⟩

theorem Ends.outcome {r : Except Stop Stacks} (h : Ends r f S) (p : PartialUtf8) :
    Outcome (r.bind fun sts => if sts = [] then .error .emptyStack
      else .ok { stackSet := sts, partialUtf8 := p }) f S p := by
  rcases h with ⟨hf, e, he, rfl⟩ | ⟨hf, sts, rfl, hsts⟩
  · exact .inl ⟨hf, e, he, rfl⟩
  · exact .inr ⟨hf, sts, hsts, rfl⟩

theorem acceptStr_outcome (hdec : decodeUtf8 q g.partialUtf8 = (cps ++ [0], p)) :
    Outcome (acceptStr rules fuel g q) (∃ s ∈ g.stackSet, FailsOn rules fuel cps s)
      (fun t => ∃ s ∈ g.stackSet, ReadsTo rules fuel cps s t) p := by
  have hends := (word_ends rules fuel cps g.stackSet).outcome p
  rw [acceptStr, hdec]
  simp only [dropLast_concat]
  exact hends

theorem acceptToken_outcome (h : Tokenless rules) (fuel token : Nat)
    (hdec : decodeUtf8 q g.partialUtf8 = (cps ++ [0], p)) :
    Outcome (acceptToken rules fuel g token q) (∃ s ∈ g.stackSet, s ≠ [] ∧ FailsOn rules fuel cps s)
      (fun t => ∃ s ∈ g.stackSet, s ≠ [] ∧ ReadsTo rules fuel cps s t) p := by
  have hends := (acceptTokenStack_ends h fuel token cps g.stackSet).outcome p
  rw [acceptToken, hdec]
  simp only [dropLast_concat]
  exact hends

theorem ne_nil_of_failsOn (h : FailsOn rules fuel cps s) : s ≠ [] := by
  rintro rfl
  exact not_failsOn_nil cps h

theorem ne_nil_of_readsTo (hcps : cps ≠ []) {t : Stack} (h : ReadsTo rules fuel cps s t) :
    s ≠ [] := by
  rintro rfl
  exact not_readsTo_nil hcps t h

theorem failsOn_of_ne_nil (sts : Stacks) (cps : List Nat) :
    (∃ s ∈ sts, s ≠ [] ∧ FailsOn rules fuel cps s) ↔ ∃ s ∈ sts, FailsOn rules fuel cps s :=
  exists_congr fun _ => and_congr_right fun _ => and_iff_right_of_imp ne_nil_of_failsOn

/-- The empty stack reads no code point. -/
theorem readsTo_of_ne_nil (sts : Stacks) (hcps : cps ≠ []) (t : Stack) :
    (∃ s ∈ sts, s ≠ [] ∧ ReadsTo rules fuel cps s t) ↔ ∃ s ∈ sts, ReadsTo rules fuel cps s t :=
  exists_congr fun _ => and_congr_right fun _ => and_iff_right_of_imp (ne_nil_of_readsTo hcps)

section

variable (h : ∀ t, t ∈ sts' ↔ ∃ s ∈ sts, s ≠ [] ∧ ReadsTo rules fuel u s t)
include h

/-- The code points of a piece, then those of the rest. -/
theorem readsTo_after (t : Stack) :
    (∃ s ∈ sts, s ≠ [] ∧ ReadsTo rules fuel (u ++ v) s t) ↔
      ∃ m ∈ sts', ReadsTo rules fuel v m t := by
  simp only [readsTo_append, h]
  constructor
  · rintro ⟨s, hs, hne, m, hu, hv⟩
    exact ⟨m, ⟨s, hs, hne, hu⟩, hv⟩
  · rintro ⟨m, ⟨s, hs, hne, hu⟩, hv⟩
    exact ⟨s, hs, hne, m, hu, hv⟩

theorem failsOn_after (hu : ¬ ∃ s ∈ sts, s ≠ [] ∧ FailsOn rules fuel u s) :
    (∃ s ∈ sts, s ≠ [] ∧ FailsOn rules fuel (u ++ v) s) ↔ ∃ m ∈ sts', FailsOn rules fuel v m := by
  simp only [failsOn_append, h]
  constructor
  · rintro ⟨s, hs, hne, hf | ⟨m, hm, hf⟩⟩
    · exact (hu ⟨s, hs, hne, hf⟩).elim
    · exact ⟨m, ⟨s, hs, hne, hm⟩, hf⟩
  · rintro ⟨m, ⟨s, hs, hne, hm⟩, hf⟩
    exact ⟨s, hs, hne, .inr ⟨m, hm, hf⟩⟩

end

/-- Tokens with pieces of a text are accepted like the text. Only the last piece must have
bytes: on a piece without code points the empty stack is lost, but it would be lost anyway. -/
theorem pieces_outcome (h : Tokenless rules) {last : Nat × List UInt8} (hlast : last.2 ≠ []) :
    ∀ (pieces : List (Nat × List UInt8)) {g : State} {value missing value' : Nat} {cps : List Nat},
      g.partialUtf8 = { value := value, nRemain := missing } →
      TextFrom missing ((pieces ++ [last]).flatMap Prod.snd) →
      0 ∉ (pieces ++ [last]).flatMap Prod.snd →
      decodeFrom ((pieces ++ [last]).flatMap Prod.snd) value missing = some (cps, value', 0) →
      Outcome ((pieces ++ [last]).foldlM (fun g f => acceptToken rules fuel g f.1 f.2) g)
        (∃ s ∈ g.stackSet, FailsOn rules fuel cps s)
        (fun t => ∃ s ∈ g.stackSet, ReadsTo rules fuel cps s t)
        { value := value', nRemain := 0 } := by
  intro pieces
  induction pieces with
  | nil =>
    intro g value missing value' cps hg htext h0 hdec
    simp only [nil_append, flatMap_cons, flatMap_nil, append_nil] at htext h0 hdec
    obtain ⟨cps1, value1, missing1, hdec1, -, hcall⟩ :=
      TextFrom.decodeUtf8_eq (s := []) (by rwa [append_nil]) h0 value
    obtain ⟨rfl, rfl, rfl⟩ : cps1 = cps ∧ value1 = value' ∧ missing1 = 0 := by
      simpa using hdec1.symm.trans hdec
    have hout := acceptToken_outcome h fuel last.1 (hg ▸ hcall)
    have hone : [last].foldlM (fun g f => acceptToken rules fuel g f.1 f.2) g =
        acceptToken rules fuel g last.1 last.2 := bind_pure _
    rw [nil_append, hone]
    exact hout.congr (failsOn_of_ne_nil g.stackSet cps1)
      (readsTo_of_ne_nil g.stackSet (decoded_ne_nil hlast hdec))
  | cons f pieces ih =>
    intro g value missing value' cps hg htext h0 hdec
    rw [cons_append, flatMap_cons] at htext h0 hdec
    have hne : (pieces ++ [last]).flatMap Prod.snd ≠ [] := by simp [hlast]
    obtain ⟨cps1, value1, missing1, hdec1, htext1, hcall⟩ :=
      htext.decodeUtf8_eq (fun hz => h0 (mem_append_left _ hz)) value
    rw [decodeFrom_append, hdec1, bind_some] at hdec
    obtain ⟨⟨cps2, value2, missing2⟩, hdec2, heq⟩ := map_eq_some_iff.mp hdec
    obtain ⟨rfl, rfl, rfl⟩ : cps1 ++ cps2 = cps ∧ value2 = value' ∧ missing2 = 0 := by
      simpa using heq
    have hcps2 := decoded_ne_nil hne hdec2
    have hcps : cps1 ++ cps2 ≠ [] := by simp [hcps2]
    rw [cons_append, foldlM_cons]
    rcases acceptToken_outcome h fuel f.1 (hg ▸ hcall) with
      ⟨⟨s, hs, -, hf⟩, e, he, hbad⟩ | ⟨hnot, sts, hsts, hres⟩
    · exact .inl ⟨⟨s, hs, failsOn_append.mpr (.inl hf)⟩, e, he, by rw [hbad]; rfl⟩
    · have hrest : Outcome (acceptToken rules fuel g f.1 f.2 >>= fun g =>
          (pieces ++ [last]).foldlM (fun g f => acceptToken rules fuel g f.1 f.2) g)
          (∃ m ∈ sts, FailsOn rules fuel cps2 m) (fun t => ∃ m ∈ sts, ReadsTo rules fuel cps2 m t)
          { value := value2, nRemain := 0 } := by
        by_cases hempty : sts = []
        · subst hempty
          rw [hres]
          exact .inr ⟨by simp, [], by simp, rfl⟩
        · rw [hres, if_neg hempty]
          exact ih rfl htext1 (fun hz => h0 (mem_append_right _ hz)) hdec2
      refine hrest.congr ?_ fun t => ?_
      · exact (failsOn_after hsts hnot).symm.trans (failsOn_of_ne_nil g.stackSet _)
      · exact (readsTo_after hsts t).symm.trans (readsTo_of_ne_nil g.stackSet hcps t)

/-- The kept tokens with the start and the end of their pieces. -/
def positionsFrom (V : Vocab) : Nat → List Nat → List (Nat × Nat × Nat)
  | _, [] => []
  | off, t :: ts =>
    (t, off, off + (V.piece t).length) :: positionsFrom V (off + (V.piece t).length) ts

/-- What is replayed: the tokens whose pieces end after the start, the first one cut. -/
def replayed (V : Vocab) (start : Nat) : Nat → List Nat → List (Nat × List UInt8)
  | _, [] => []
  | off, t :: ts =>
    if off + (V.piece t).length ≤ start then replayed V start (off + (V.piece t).length) ts
    else (t, (V.piece t).drop (start - off)) :: replayed V start (off + (V.piece t).length) ts

variable {V : Vocab} {start : Nat}

theorem positionsFrom_append (us ts : List Nat) : ∀ off, positionsFrom V off (us ++ ts) =
    positionsFrom V off us ++ positionsFrom V (off + (us.flatMap V.piece).length) ts := by
  induction us with
  | nil => exact fun off => rfl
  | cons u us ih =>
    intro off
    simp only [cons_append, positionsFrom, ih, flatMap_cons, length_append, Nat.add_assoc]

theorem replayed_append (us ts : List Nat) : ∀ off, replayed V start off (us ++ ts) =
    replayed V start off us ++ replayed V start (off + (us.flatMap V.piece).length) ts := by
  induction us with
  | nil => exact fun off => rfl
  | cons u us ih =>
    intro off
    simp only [cons_append, replayed, ih, flatMap_cons, length_append, Nat.add_assoc]
    split <;> rfl

/-- The replayed pieces are the text from the start on. -/
theorem replayed_text (ts : List Nat) : ∀ off, (replayed V start off ts).flatMap Prod.snd =
    (ts.flatMap V.piece).drop (start - off) := by
  induction ts with
  | nil => exact fun off => drop_nil.symm
  | cons t ts ih =>
    intro off
    rw [replayed, flatMap_cons, drop_append]
    split
    next hle =>
      have hpiece : (V.piece t).drop (start - off) = [] := drop_eq_nil_of_le (by omega)
      rw [ih, hpiece, nil_append]
      congr 1
      omega
    next hlt =>
      rw [flatMap_cons, ih]
      congr 2
      omega

/-- Nothing is replayed of tokens that end before the start. -/
theorem replayed_eq_nil (ts : List Nat) : ∀ {off}, off + (ts.flatMap V.piece).length ≤ start →
    replayed V start off ts = [] := by
  induction ts with
  | nil => exact fun _ => rfl
  | cons t ts ih =>
    intro off hle
    rw [flatMap_cons, length_append] at hle
    rw [replayed, if_pos (by omega)]
    exact ih (by omega)

/-- The loop over the positions accepts the replayed pieces. -/
theorem replayToken_foldlM {buffer : List UInt8} (ts : List Nat) : ∀ {off} {g : State},
    buffer.drop off = ts.flatMap V.piece →
    (positionsFrom V off ts).foldlM (replayToken rules fuel buffer start) g =
      (replayed V start off ts).foldlM (fun g f => acceptToken rules fuel g f.1 f.2) g := by
  induction ts with
  | nil => exact fun _ => rfl
  | cons t ts ih =>
    intro off g hbuf
    have hnext : buffer.drop (off + (V.piece t).length) = ts.flatMap V.piece := by
      rw [← drop_drop, hbuf, flatMap_cons, drop_left]
    rw [positionsFrom, foldlM_cons, replayed]
    split
    next hle =>
      simp only [replayToken, if_pos hle]
      exact ih hnext
    next hlt =>
      have hstart : (if off < start then start else off) = off + (start - off) := by
        split <;> omega
      have hpiece : (buffer.drop (off + (start - off))).take
          (off + (V.piece t).length - (off + (start - off))) = (V.piece t).drop (start - off) := by
        rw [← drop_drop, hbuf, flatMap_cons, drop_append_of_le_length (by omega),
          take_left' (by rw [length_drop]; omega)]
      simp only [replayToken, if_neg hlt, hstart, hpiece, foldlM_cons, ih hnext]

/-- A lazy grammar that let the tokens pass. -/
structure Waiting (V : Vocab) (T : Triggers) (sts : Stacks) (ts : List Nat) (g : LazyState) :
    Prop where
  state : g.state = { stackSet := sts, partialUtf8 := .empty }
  triggerBuffer : g.triggerBuffer = ts.flatMap V.piece
  triggerBufferPositions : g.triggerBufferPositions = positionsFrom V 0 ts
  find : ts ≠ [] → T.find (ts.flatMap V.piece) = none

theorem waiting_init (V : Vocab) (T : Triggers) (sts : Stacks) :
    Waiting V T sts [] (LazyState.init sts) where
  state := rfl
  triggerBuffer := rfl
  triggerBufferPositions := rfl
  find h := (h rfl).elim

variable {T : Triggers} {sts : Stacks} {ts : List Nat} {t : Nat} {g g' : LazyState}

/-- The token that the grammar waits with is kept. -/
theorem Waiting.step (h : Waiting V T sts ts g) (hg : g.awaitingTrigger = true)
    (hstep : acceptLazy V rules fuel T g t = .ok g') (hg' : g'.awaitingTrigger = true) :
    Waiting V T sts (ts ++ [t]) g' := by
  have htext : (ts ++ [t]).flatMap V.piece = ts.flatMap V.piece ++ V.piece t := by simp
  rw [acceptLazy, if_pos hg, h.triggerBuffer, h.triggerBufferPositions] at hstep
  split at hstep
  · obtain ⟨state, -, heq⟩ := bind_ok.mp hstep
    cases heq
    cases hg'
  · dsimp only at hstep
    split at hstep
    · obtain ⟨state, -, heq⟩ := bind_ok.mp hstep
      cases heq
      cases hg'
    · rename_i hfind
      cases hstep
      exact { state := h.state
              triggerBuffer := htext.symm
              triggerBufferPositions := by
                rw [positionsFrom_append, Nat.zero_add]
                rfl
              find := fun _ => htext ▸ hfind }

/-- A grammar that waits has waited all along. -/
theorem awaitingTrigger_of_step (hstep : acceptLazy V rules fuel T g t = .ok g')
    (hg' : g'.awaitingTrigger = true) : g.awaitingTrigger = true := by
  by_contra hg
  rw [acceptLazy, if_neg hg] at hstep
  obtain ⟨state, -, heq⟩ := bind_ok.mp hstep
  cases heq
  exact hg hg'

theorem waiting_run (h : ts.foldlM (acceptLazy V rules fuel T) (LazyState.init sts) = .ok g)
    (hg : g.awaitingTrigger = true) : Waiting V T sts ts g := by
  induction ts using List.reverseRecOn generalizing g with
  | nil =>
    cases h
    exact waiting_init V T sts
  | append_singleton ts t ih =>
    rw [foldlM_append] at h
    obtain ⟨g1, hrun, hlast⟩ := bind_ok.mp h
    obtain ⟨g2, hstep, heq⟩ := bind_ok.mp hlast
    cases heq
    have hg1 := awaitingTrigger_of_step hstep hg
    exact (ih hrun hg1).step hg1 hstep hg

/-- The loop over the alternates of a rule adds a stack if its turns do. -/
theorem altStarts_ne_nil {step : Stacks → Nat → Except Stop Stacks} {rule : List Element}
    {acc acc' : Stacks} (h : (altStarts rule).foldlM step acc = .ok acc')
    (hstep : ∀ acc i acc', step acc i = .ok acc' → acc' ≠ []) : acc' ≠ [] := by
  rw [altStarts, foldlM_cons] at h
  obtain ⟨acc1, hfirst, hrest⟩ := bind_ok.mp h
  exact Loop.foldlM_inv (I := fun acc => acc ≠ []) (hstep acc 0 acc1 hfirst)
    (fun b i _ b' _ hi => hstep b i b' hi) hrest

theorem addStack_ne_nil (st : Stack) (acc : Stacks) : addStack st acc ≠ [] :=
  ne_nil_of_mem (mem_addStack.mpr (.inr rfl))

theorem advanceStack_ne_nil : ∀ {fuel : Nat} {s : Stack} {acc acc' : Stacks},
    advanceStack rules fuel s acc = .ok acc' → acc' ≠ [] := by
  intro fuel
  induction fuel with
  | zero => exact nofun
  | succ fuel ih =>
    intro s acc acc' h
    cases s with
    | nil =>
      cases h
      exact addStack_ne_nil [] acc
    | cons p st =>
      rw [advanceStack] at h
      split at h
      · exact altStarts_ne_nil h fun acc i acc' hi => ih hi
      · cases h
        exact addStack_ne_nil (p :: st) acc
      · cases h
        exact addStack_ne_nil (p :: st) acc
      · cases h
        exact addStack_ne_nil (p :: st) acc
      · cases h
        exact addStack_ne_nil (p :: st) acc
      · cases h
        exact addStack_ne_nil (p :: st) acc
      · cases h

theorem initImpl_ne_nil {rules₀ : Rules} {startRule : Nat}
    (h : initImpl rules₀ fuel startRule = .ok (some (rules, sts))) : sts ≠ [] := by
  rw [initImpl] at h
  split at h
  · cases h
  · obtain ⟨sts', hinit, heq⟩ := bind_ok.mp h
    cases heq
    exact altStarts_ne_nil hinit fun acc i acc' hi => advanceStack_ne_nil hi
  · cases h

/-- What is replayed ends with the last token, if there is anything to replay. -/
theorem replayed_last (ts : List Nat) (t : Nat) :
    (((ts ++ [t]).flatMap V.piece).length ≤ start → replayed V start 0 (ts ++ [t]) = []) ∧
      (start < ((ts ++ [t]).flatMap V.piece).length → replayed V start 0 (ts ++ [t]) =
        replayed V start 0 ts ++
          [(t, (V.piece t).drop (start - (ts.flatMap V.piece).length))]) := by
  refine ⟨fun hle => replayed_eq_nil _ (by rwa [Nat.zero_add]), fun hlt => ?_⟩
  rw [flatMap_append, length_append, flatMap_singleton] at hlt
  rw [replayed_append, Nat.zero_add, replayed, if_neg (Nat.not_le_of_lt hlt), replayed]

/-- The token that completes a match replays the kept tokens and itself. -/
theorem Waiting.acceptLazy (h : Waiting V T sts ts g) (hg : g.awaitingTrigger = true)
    (ht : t ∉ T.tokens) (hfind : T.find ((ts ++ [t]).flatMap V.piece) = some start) :
    (acceptLazy V rules fuel T g t).map LazyState.state =
      (replayed V start 0 (ts ++ [t])).foldlM (fun g f => acceptToken rules fuel g f.1 f.2)
        { stackSet := sts, partialUtf8 := .empty } := by
  have hbuffer : ts.flatMap V.piece ++ V.piece t = (ts ++ [t]).flatMap V.piece := by simp
  have hpositions : positionsFrom V 0 ts ++ [(t, (ts.flatMap V.piece).length,
      (ts.flatMap V.piece).length + (V.piece t).length)] = positionsFrom V 0 (ts ++ [t]) := by
    rw [positionsFrom_append, Nat.zero_add]
    rfl
  rw [Grammar.acceptLazy, if_pos hg, if_neg ht, h.triggerBuffer, h.triggerBufferPositions, h.state]
  dsimp only
  rw [hbuffer, hpositions, hfind]
  dsimp only
  rw [replayToken_foldlM (ts ++ [t]) (drop_zero)]
  cases (replayed V start 0 (ts ++ [t])).foldlM (fun g f => acceptToken rules fuel g f.1 f.2)
    { stackSet := sts, partialUtf8 := .empty } with
  | error e => rfl
  | ok g => rfl

/-- The last piece that is replayed has bytes: with an empty one, the match would have been
found before. -/
theorem Waiting.last_ne_nil (h : Waiting V T sts ts g)
    (hfind : T.find ((ts ++ [t]).flatMap V.piece) = some start)
    (hlt : start < ((ts ++ [t]).flatMap V.piece).length) :
    (V.piece t).drop (start - (ts.flatMap V.piece).length) ≠ [] := by
  rw [flatMap_append, flatMap_singleton] at hfind hlt
  intro hnil
  rw [drop_eq_nil_iff] at hnil
  rw [length_append] at hlt
  have hpiece : V.piece t = [] := eq_nil_of_length_eq_zero (by omega)
  have hts : ts ≠ [] := by
    rintro rfl
    simp [hpiece] at hlt
  rw [hpiece, append_nil, h.find hts] at hfind
  cases hfind

/-- A fresh grammar on a well-formed text. -/
theorem acceptStr_encode (sts : Stacks) {cs : List Char} {value : Nat} (h0 : 0 ∉ encode cs)
    (hdec : decodeFrom (encode cs) 0 0 = some (cps, value, 0)) :
    Outcome (acceptStr rules fuel { stackSet := sts, partialUtf8 := .empty } (encode cs))
      (∃ s ∈ sts, FailsOn rules fuel cps s) (fun t => ∃ s ∈ sts, ReadsTo rules fuel cps s t)
      { value := value, nRemain := 0 } := by
  refine acceptStr_outcome ?_
  rw [decodeUtf8_start h0, hdec]
  rfl

/-- For every division of a well-formed text into tokens, what a lazy grammar does on the token
that completes a match is what a fresh grammar does on the text from the match on, unless there
is a NUL in it. -/
theorem replay_agrees {rules₀ : Rules} {startRule : Nat} {before after : List Char}
    (hinit : initImpl rules₀ fuel startRule = .ok (some (rules, sts))) (htok : Tokenless rules)
    (hrun : ts.foldlM (acceptLazy V rules fuel T) (LazyState.init sts) = .ok g)
    (hwait : g.awaitingTrigger = true) (ht : t ∉ T.tokens)
    (hfind : T.find ((ts ++ [t]).flatMap V.piece) = some start)
    (htext : (ts ++ [t]).flatMap V.piece = encode before ++ encode after)
    (hstart : start = (encode before).length) (h0 : 0 ∉ encode after) :
    SameOutcome ((acceptLazy V rules fuel T g t).map LazyState.state)
      (acceptStr rules fuel { stackSet := sts, partialUtf8 := .empty }
        (((ts ++ [t]).flatMap V.piece).drop start)) := by
  have hw := waiting_run hrun hwait
  have hafter : ((ts ++ [t]).flatMap V.piece).drop start = encode after := by
    rw [htext, hstart, drop_left]
  rw [hw.acceptLazy hwait ht hfind, hafter]
  rcases Nat.lt_or_ge start ((ts ++ [t]).flatMap V.piece).length with hlt | hge
  · have hpieces : (replayed V start 0 (ts ++ [t])).flatMap Prod.snd = encode after := by
      rw [replayed_text, Nat.sub_zero, hafter]
    rw [(replayed_last ts t).2 hlt] at hpieces ⊢
    obtain ⟨cps, value, missing, hdec, hrest, -⟩ :=
      TextFrom.split (q := encode after) (s := []) (by
        rw [append_nil]
        exact textFrom_encode after) 0
    cases hrest
    refine Outcome.same (pieces_outcome htok (hw.last_ne_nil hfind hlt) _ rfl ?_ ?_ ?_)
      (acceptStr_encode sts h0 hdec)
    · rw [hpieces]
      exact textFrom_encode after
    · rwa [hpieces]
    · rwa [hpieces]
  · have hnil : encode after = [] := by
      rw [← hafter, drop_eq_nil_of_le hge]
    have hstr : acceptStr rules fuel { stackSet := sts, partialUtf8 := .empty } [] =
        .ok { stackSet := sts, partialUtf8 := .empty } := if_neg (initImpl_ne_nil hinit)
    rw [(replayed_last ts t).1 hge, hnil, hstr]
    exact ⟨fun _ => Iff.rfl, rfl⟩

/-- A token with an `x` and the first byte of an e with an acute accent, and one with the second. -/
def halfTokens : Vocab where
  piece t := if t = 0 then [0x78, 0xc3] else [0xa9]
  isEog _ := false

/-- A grammar of the accented letter. -/
def eAcute : Rules := [[⟨.char, 0xe9⟩, ⟨.end_, 0⟩]]

theorem replay_agrees_halfTokens : SameOutcome
    ((acceptLazy halfTokens eAcute 2
      { tokens := [], patterns := [fun b => if b.drop 1 = [0xc3, 0xa9] then some 1 else none] }
      { state := { stackSet := [[⟨0, 0⟩]], partialUtf8 := .empty }, awaitingTrigger := true
        triggerBuffer := [0x78, 0xc3], triggerBufferPositions := [(0, 0, 2)] } 1).map
          LazyState.state)
    (acceptStr eAcute 2 { stackSet := [[⟨0, 0⟩]], partialUtf8 := .empty }
      ((([0] ++ [1]).flatMap halfTokens.piece).drop 1)) :=
  @replay_agrees eAcute 2 halfTokens 1 _ _ [0] 1 _ eAcute 0 [Char.ofNat 0x78] [Char.ofNat 0xe9]
    (by decide) (by simp [Tokenless, eAcute]) (by decide) rfl nofun
    (by decide) (by decide) (by decide) (by decide)

/-- A token with an `a` and one with a NUL. -/
def nulToken : Vocab where
  piece t := if t = 0 then [0x61] else [0]
  isEog _ := false

/-- The piece of a NUL token has no code points, so the replay throws at it; the NUL at the end
of the whole text is not read. -/
theorem replay_disagrees_nul :
    let rules : Rules := [[⟨.char, 0x61⟩, ⟨.end_, 0⟩]]
    let sts : Stacks := [[⟨0, 0⟩]]
    let T : Triggers := ⟨[], [fun b => if b = [0x61, 0] then some 0 else none]⟩
    let g : LazyState := ⟨⟨sts, .empty⟩, true, [0x61], [(0, 0, 1)]⟩
    initImpl rules 2 0 = .ok (some (rules, sts)) ∧ Tokenless rules ∧
      [0].foldlM (acceptLazy nulToken rules 2 T) (LazyState.init sts) = .ok g ∧
      T.find (([0] ++ [1]).flatMap nulToken.piece) = some 0 ∧
      ([0] ++ [1]).flatMap nulToken.piece = encode [] ++ encode [Char.ofNat 0x61, Char.ofNat 0] ∧
      ¬ SameOutcome ((acceptLazy nulToken rules 2 T g 1).map LazyState.state)
        (acceptStr rules 2 ⟨sts, .empty⟩ ((([0] ++ [1]).flatMap nulToken.piece).drop 0)) := by
  refine ⟨by decide, by simp [Tokenless], by decide, by decide, by decide, ?_⟩
  have hreplay : (acceptLazy nulToken [[⟨.char, 0x61⟩, ⟨.end_, 0⟩]] 2
      ⟨[], [fun b => if b = [0x61, 0] then some 0 else none]⟩
      ⟨⟨[[⟨0, 0⟩]], .empty⟩, true, [0x61], [(0, 0, 1)]⟩ 1).map LazyState.state =
        .error .emptyStack := by decide
  have hstr : acceptStr [[⟨.char, 0x61⟩, ⟨.end_, 0⟩]] 2 ⟨[[⟨0, 0⟩]], .empty⟩
      ((([0] ++ [1]).flatMap nulToken.piece).drop 0) = .ok
        ⟨[[]], { value := 0x61, nRemain := 0 }⟩ := by decide
  rw [hreplay, hstr]
  exact id

end Llama.Grammar
