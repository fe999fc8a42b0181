import Llama.Server.Token

/-!
# The limits and the rest of a call

The counters decide only whether `process_token` stops for a limit. What it does to the text, and
whether it stops for any other reason, depends neither on the counters nor on the fields that
the limits write.
-/

namespace Llama.Server

open Function

/-- The number of tokens to predict, if there is a limit. -/
def GenParams.budget (p : GenParams) : Option Int :=
  if p.nPredict ≠ -1 then some p.nPredict
  else if p.nPredictBase ≠ -1 then some p.nPredictBase
  else none

/-- Neither of the two limits is reached at these counters. -/
def GenParams.within (p : GenParams) (nDecoded nTokens : Int) : Bool :=
  (p.ctxShift || decide (nTokens + 1 < p.nCtx)) &&
    (decide (nDecoded ≤ 0) || p.budget.all fun n => decide (nDecoded < n))

/-- The fields of a generation that the limits do not write. -/
def Gen.content (g : Gen) : Gen :=
  { g with hasNext := true, stop := .none, truncated := false, nRemaining := 0 }

/-- The token stops the generation by its text or as an end of generation, at whatever counters. -/
def stopsItself (p : GenParams) (g : Gen) (t : Sampled) : Bool :=
  !(processToken { p with ctxShift := true } g { t with nDecoded := 0 }).hasNext

section Stages

variable (p : GenParams) (g : Gen) (t : Sampled) (send : Bytes)

theorem hasBudget_fst (n k : Int) : (hasBudget p n k).1 = p.budget.all fun m => decide (k < m) := by
  unfold hasBudget GenParams.budget
  by_cases h1 : p.nPredict = -1 <;> by_cases h2 : p.nPredictBase = -1 <;> simp [h1, h2]

theorem checkLimits_hasNext :
    (checkLimits p g t).hasNext = (g.hasNext && p.within t.nDecoded t.nTokens) := by
  simp only [checkLimits, GenParams.within, ← hasBudget_fst p g.nRemaining]
  grind

theorem checkLimits_content : (checkLimits p g t).content = g.content := by
  simp only [checkLimits, Gen.content]
  grind

/-- Generations that differ only where the limits write send the same text. -/
theorem sendText_congr {g g' : Gen} {t t' : Sampled} (h : g.content = g'.content)
    (hp : t.piece = t'.piece) (he : t.eog = t'.eog) (b : Bool) :
    (sendText { p with ctxShift := b } g t).1.content = (sendText p g' t').1.content ∧
      (sendText { p with ctxShift := b } g t).1.hasNext = (sendText p g' t').1.hasNext ∧
      (sendText { p with ctxShift := b } g t).2 = (sendText p g' t').2 := by
  cases g
  cases g'
  simp only [Gen.content, Gen.mk.injEq] at h
  obtain ⟨rfl, rfl, -, -, rfl, rfl, rfl, -, -, rfl⟩ := h
  simp only [sendText, hp, he]
  split
  · simp [Gen.content]
  · split <;> simp [Gen.content]

end Stages

/-- Two checks that can only stop a generation, and that agree on generations that differ only
where the limits write. -/
def Alike (f f' : Gen → Gen) : Prop :=
  ∀ g g' : Gen, g.content = g'.content → (f g).content = (f' g').content ∧
    ∃ c : Bool, (f g).hasNext = (g.hasNext && c) ∧ (f' g').hasNext = (g'.hasNext && c)

theorem Alike.comp {f f' h h' : Gen → Gen} (hh : Alike h h') (hf : Alike f f') :
    Alike (h ∘ f) (h' ∘ f') := by
  intro g g' heq
  obtain ⟨hc, c, h1, h2⟩ := hf g g' heq
  obtain ⟨hc', c', h1', h2'⟩ := hh _ _ hc
  refine ⟨hc', c && c', ?_, ?_⟩
  · rw [comp_apply, h1', h1, Bool.and_assoc]
  · rw [comp_apply, h2', h2, Bool.and_assoc]

section Later

variable (p : GenParams) (t t' : Sampled) (send : Bytes)

theorem alike_cutLine (b : Bool) : Alike (cutLine { p with ctxShift := b }) (cutLine p) := by
  intro g g' h
  cases g
  cases g'
  simp only [Gen.content, Gen.mk.injEq] at h
  obtain ⟨rfl, rfl, -, -, rfl, rfl, rfl, -, -, rfl⟩ := h
  simp only [cutLine]
  split
  · split
    · exact ⟨rfl, false, (Bool.and_false _).symm, (Bool.and_false _).symm⟩
    · exact ⟨rfl, true, (Bool.and_true _).symm, (Bool.and_true _).symm⟩
  · exact ⟨rfl, true, (Bool.and_true _).symm, (Bool.and_true _).symm⟩

theorem alike_nextLine : Alike nextLine nextLine := by
  intro g g' h
  cases g
  cases g'
  simp only [Gen.content, Gen.mk.injEq] at h
  obtain ⟨rfl, rfl, -, -, rfl, rfl, rfl, -, -, rfl⟩ := h
  simp only [nextLine]
  split
  · exact ⟨rfl, true, (Bool.and_true _).symm, (Bool.and_true _).symm⟩
  · exact ⟨rfl, true, (Bool.and_true _).symm, (Bool.and_true _).symm⟩

theorem alike_checkIndent (b : Bool) :
    Alike (checkIndent { p with ctxShift := b }) (checkIndent p) := by
  intro g g' h
  have hline : g.content.hasNewLine = g'.content.hasNewLine := by rw [h]
  change g.hasNewLine = g'.hasNewLine at hline
  simp only [checkIndent, hline]
  split
  · exact alike_nextLine.comp (alike_cutLine p b) g g' h
  · exact ⟨h, true, (Bool.and_true _).symm, (Bool.and_true _).symm⟩

theorem alike_checkNewLine (ht : t.timeUp = t'.timeUp) :
    Alike (checkNewLine · t send) (checkNewLine · t' send) := by
  intro g g' h
  cases g
  cases g'
  simp only [Gen.content, Gen.mk.injEq] at h
  obtain ⟨rfl, rfl, -, -, rfl, rfl, rfl, -, -, rfl⟩ := h
  simp only [checkNewLine, ht]
  split
  · split
    · exact ⟨rfl, false, (Bool.and_false _).symm, (Bool.and_false _).symm⟩
    · exact ⟨rfl, true, (Bool.and_true _).symm, (Bool.and_true _).symm⟩
  · exact ⟨rfl, true, (Bool.and_true _).symm, (Bool.and_true _).symm⟩

theorem alike_checkEog (he : t.eog = t'.eog) : Alike (checkEog · t) (checkEog · t') := by
  intro g g' h
  cases g
  cases g'
  simp only [Gen.content, Gen.mk.injEq] at h
  obtain ⟨rfl, rfl, -, -, rfl, rfl, rfl, -, -, rfl⟩ := h
  simp only [checkEog, he]
  split
  · exact ⟨rfl, false, (Bool.and_false _).symm, (Bool.and_false _).symm⟩
  · exact ⟨rfl, true, (Bool.and_true _).symm, (Bool.and_true _).symm⟩

end Later

section Calls

variable (p : GenParams) {g g' : Gen} {t t' : Sampled}

/-- Two calls with the same token on generations with the same content. -/
theorem processToken_congr (g g' : Gen) (t t' : Sampled) (h : g.content = g'.content)
    (hp : t.piece = t'.piece) (he : t.eog = t'.eog) (ht : t.timeUp = t'.timeUp) (b : Bool) :
    (processToken { p with ctxShift := b } g t).content = (processToken p g' t').content ∧
      ∃ c : Bool, (processToken { p with ctxShift := b } g t).hasNext =
          (c && ({ p with ctxShift := b } : GenParams).within t.nDecoded t.nTokens) ∧
        (processToken p g' t').hasNext = (c && p.within t'.nDecoded t'.nTokens) := by
  obtain ⟨hc, hn, hs⟩ := sendText_congr p h hp he b
  have hc' : (checkLimits { p with ctxShift := b } (sendText { p with ctxShift := b } g t).1
      t).content = (checkLimits p (sendText p g' t').1 t').content := by
    rw [checkLimits_content, checkLimits_content, hc]
  obtain ⟨hr, c, h1, h2⟩ := ((alike_checkEog t t' he).comp ((alike_checkNewLine t t'
    (sendText p g' t').2 ht).comp (alike_checkIndent p b))) _ _ hc'
  simp only [comp_apply, checkLimits_hasNext, hn] at hr h1 h2
  refine ⟨?_, (sendText p g' t').1.hasNext && c, ?_, ?_⟩
  · simpa only [processToken, hs] using hr
  · simp only [processToken, hs, h1]
    ac_rfl
  · simp only [processToken, h2]
    ac_rfl

theorem content_processToken (h : g.content = g'.content) (hp : t.piece = t'.piece)
    (he : t.eog = t'.eog) (ht : t.timeUp = t'.timeUp) :
    (processToken p g t).content = (processToken p g' t').content :=
  (processToken_congr p g g' t t' h hp he ht p.ctxShift).1

/-- A call stops the generation for a limit or by its token. -/
theorem hasNext_processToken :
    (processToken p g t).hasNext = (!stopsItself p g t && p.within t.nDecoded t.nTokens) := by
  obtain ⟨-, c, h1, h2⟩ := processToken_congr p g g { t with nDecoded := 0 } t rfl rfl rfl rfl true
  have hc : (!stopsItself p g t) = c := by
    rw [stopsItself, Bool.not_not, h1]
    simp [GenParams.within]
  rw [h2, hc]

theorem stopsItself_congr (h : g.content = g'.content) (hp : t.piece = t'.piece)
    (he : t.eog = t'.eog) (ht : t.timeUp = t'.timeUp) :
    stopsItself p g t = stopsItself p g' t' := by
  obtain ⟨-, c, h1, h2⟩ := processToken_congr { p with ctxShift := true } g g'
    { t with nDecoded := 0 } { t' with nDecoded := 0 } h hp he ht true
  have h0 : ∀ n : Int, ({ p with ctxShift := true } : GenParams).within 0 n = true := by
    simp [GenParams.within]
  simp only [h0, Bool.and_true] at h1 h2
  rw [stopsItself, stopsItself, h1, h2]

/-- A call that goes on went on after the limits. -/
theorem hasNext_checkLimits (h : (processToken p g t).hasNext = true) :
    (checkLimits p (sendText p g t).1 t).hasNext = true := by
  obtain ⟨-, c, h1, -⟩ := ((alike_checkEog t t rfl).comp ((alike_checkNewLine t t
    (sendText p g t).2 rfl).comp (alike_checkIndent p p.ctxShift)))
      (checkLimits p (sendText p g t).1 t) _ rfl
  have h2 : ((checkLimits p (sendText p g t).1 t).hasNext && c) = true := h1.symm.trans h
  exact (Bool.and_eq_true_iff.mp h2).1

theorem nRemaining_checkIndent (g : Gen) : (checkIndent p g).nRemaining = g.nRemaining := by
  unfold checkIndent nextLine cutLine
  grind

/-- While the generation goes on, `n_remaining` is what the counter leaves of the budget. -/
theorem nRemaining_processToken {n : Int} (hb : p.budget = some n) (hd : 0 < t.nDecoded)
    (h : (processToken p g t).hasNext = true) :
    (processToken p g t).nRemaining = n - t.nDecoded := by
  have hstay : (processToken p g t).nRemaining =
      (checkLimits p (sendText p g t).1 t).nRemaining := by
    rw [← nRemaining_checkIndent p (checkLimits p (sendText p g t).1 t)]
    simp only [processToken, checkEog, checkNewLine]
    grind
  have hnext := hasNext_checkLimits p h
  rw [hstay]
  unfold checkLimits hasBudget at hnext ⊢
  unfold GenParams.budget at hb
  grind

end Calls

end Llama.Server
