import Llama.Server.Views

/-!
# Which outputs are sampled

Indices into the whole batch are recorded while it is filled. They are used after the decoding of a
view: the plain path subtracts the start of the view, the drafts are passed as they are.
-/

namespace Llama.Server

open List

/-- The token of the batch belongs to the slot and its output is wanted. -/
def Row (batch : List BatchToken) (i k : Nat) : Prop := batch[k]? = some ⟨i, true⟩

instance (batch : List BatchToken) (i k : Nat) : Decidable (Row batch i k) :=
  inferInstanceAs (Decidable (batch[k]? = some ⟨i, true⟩))

/-- The slot waits for a slot whose prompt is done in this batch. -/
def ParentOf (slots : Nat → BatchSlot) (i p : Nat) : Prop :=
  ∃ t tp, (slots i).slot = .busy .waitOther t ∧ (slots p).slot = .busy .donePrompt tp ∧
    t.idParent = some tp.id

/-- The row that a slot should sample from: its own, or the last of its parent's prompt. -/
def RightRow (f : Filling) (i k : Nat) : Prop :=
  Row f.batch i k ∨ ∃ p, ParentOf f.slots i p ∧ (f.slots p).iBatch = k ∧ Row f.batch p k

/-- The index is in the view, at a row that is right for the slot. -/
def Read.Right (f : Filling) (r : Read) : Prop :=
  0 ≤ r.index ∧ r.index < r.view.len ∧ RightRow f r.slot (r.view.start + r.index.toNat)

/-- A parent is no child, and has completions to do. -/
def Task.Family (t : Task) : Prop := t.isParent = true → t.isChild = false ∧ t.needEmbd = false

/-- A slot between two batches. -/
structure BatchSlot.Ready (s : BatchSlot) : Prop where
  draft : s.iBatchDft = []
  plain : s.isGenerating = true → s.iBatch < 0
  prompt : ∀ t, s.slot ≠ .busy .donePrompt t
  family : ∀ t, s.slot.task = some t → t.Family

/-- Tokens keep their place and their output. -/
def Keeps (b b' : List BatchToken) : Prop :=
  ∀ (k : Nat) (tok : BatchToken), b[k]? = some tok →
    ∃ tok' : BatchToken, b'[k]? = some tok' ∧ tok'.slot = tok.slot ∧
      (tok.output = true → tok'.output = true)

def HasToken (b : List BatchToken) (i : Nat) : Prop := ∃ tok ∈ b, tok.slot = i

/-- A slot while the batch is filled, when the prompts of the first `n` slots were looked at. -/
structure BatchSlot.Placed (b : List BatchToken) (ok : Bool) (n i : Nat) (s : BatchSlot) :
    Prop where
  draft : ∀ k ∈ s.iBatchDft, Row b i k
  drafted : s.iBatchDft ≠ [] → s.isGenerating = true ∧ s.iBatch < 0
  plain : s.isGenerating = true → 0 ≤ s.iBatch → Row b i s.iBatch.toNat
  prompt : ∀ t, s.slot = .busy .donePrompt t → i < n ∧ (ok = true → 0 ≤ s.iBatch ∧
    s.iBatch.toNat < b.length ∧ (HasToken b i → Row b i s.iBatch.toNat))
  fresh : n ≤ i → HasToken b i → s.isGenerating = true
  family : ∀ t, s.slot.task = some t → t.Family

/-- Every slot while the batch is filled. -/
def Filling.Placed (cfg : BatchConfig) (n : Nat) (f : Filling) : Prop :=
  ∀ i < cfg.nParallel, (f.slots i).Placed f.batch f.ok n i

section Filling

variable {cfg : BatchConfig} {drafts : Nat → Nat} {feed : Nat → Prompting} {slots : Nat → BatchSlot}
  {f : Filling} {b b' : List BatchToken} {ok ok' : Bool} {i k n n' : Nat} {s : BatchSlot}

theorem Row.keep (h : Row b i k) (hkeep : Keeps b b') : Row b' i k := by
  obtain ⟨⟨j, output⟩, htok, hslot, hout⟩ := hkeep k _ h
  cases hslot
  have houtput : output = true := hout rfl
  rw [Row, htok, houtput]

theorem Row.lt (h : Row b i k) : k < b.length := (List.getElem?_eq_some_iff.mp h).1

theorem Row.hasToken (h : Row b i k) : HasToken b i := ⟨_, mem_of_getElem? h, rfl⟩

theorem keeps_append (b c : List BatchToken) : Keeps b (b ++ c) := by
  intro k tok h
  have hlt := (List.getElem?_eq_some_iff.mp h).1
  exact ⟨tok, by rwa [getElem?_append_left hlt], rfl, id⟩

theorem Keeps.length_le (h : Keeps b b') : b.length ≤ b'.length := by
  by_contra hlt
  have hlt' : b'.length < b.length := by omega
  obtain ⟨tok', htok, -⟩ := h b'.length _ (getElem?_eq_getElem hlt')
  exact absurd (List.getElem?_eq_some_iff.mp htok).1 (Nat.lt_irrefl _)

/-- A slot that is not touched while the batch grows. -/
theorem BatchSlot.Placed.keep (h : s.Placed b ok n i) (hkeep : Keeps b b')
    (hnew : HasToken b' i → HasToken b i) (hok : ok' = true → ok = true) (hn : n ≤ n') :
    s.Placed b' ok' n' i where
  draft k hk := (h.draft k hk).keep hkeep
  drafted := h.drafted
  plain hgen hpos := (h.plain hgen hpos).keep hkeep
  prompt t ht := by
    obtain ⟨hlt, hprompt⟩ := h.prompt t ht
    refine ⟨Nat.lt_of_lt_of_le hlt hn, fun hok' => ?_⟩
    obtain ⟨hpos, hlen, hrow⟩ := hprompt (hok hok')
    exact ⟨hpos, Nat.lt_of_lt_of_le hlen hkeep.length_le, fun h' => (hrow (hnew h')).keep hkeep⟩
  fresh hle h' := h.fresh (Nat.le_trans hn hle) (hnew h')
  family := h.family

variable {j w : Nat}

theorem hasToken_replicate {output : Bool} (h : HasToken (b ++ replicate w ⟨j, output⟩) i) :
    HasToken b i ∨ 0 < w ∧ i = j := by
  obtain ⟨tok, htok, hi⟩ := h
  rcases mem_append.mp htok with hb | hnew
  · exact .inl ⟨tok, hb, hi⟩
  · obtain ⟨hw, rfl⟩ := mem_replicate.mp hnew
    exact .inr ⟨by omega, hi.symm⟩

theorem row_replicate (hle : b.length ≤ k) (hlt : k < b.length + w) :
    Row (b ++ replicate w ⟨i, true⟩) i k := by
  rw [Row, getElem?_append_right hle, getElem?_replicate, if_pos (by omega)]

/-- The slot that adds its sampled token and its draft. -/
theorem placed_sampleInto (h : s.Ready) (hgen : s.isGenerating = true) (draft : Nat) :
    (s.sampleInto draft b.length).Placed (b ++ replicate (s.width draft) ⟨i, true⟩) ok 0 i :=
  by
  have hslot := (sampleInto_frame s draft b.length).1
  have hgen' : (s.sampleInto draft b.length).isGenerating = true := by
    rw [BatchSlot.isGenerating, hslot]
    exact hgen
  have hnegative := h.plain hgen
  have hrows : (∀ k ∈ (s.sampleInto draft b.length).iBatchDft,
        Row (b ++ replicate (s.width draft) ⟨i, true⟩) i k) ∧
      ((s.sampleInto draft b.length).iBatchDft ≠ [] → (s.sampleInto draft b.length).iBatch < 0) ∧
      (0 ≤ (s.sampleInto draft b.length).iBatch →
        Row (b ++ replicate (s.width draft) ⟨i, true⟩) i
          (s.sampleInto draft b.length).iBatch.toNat) := by
    unfold BatchSlot.sampleInto BatchSlot.width BatchSlot.usesDraft
    rw [h.draft]
    by_cases hmax : 0 < s.getNDraftMax
    · by_cases hmin : (s.truncateDraft draft : Int) < s.nMin
      · rw [if_pos hmax, if_pos hmin]
        refine ⟨by simp, by simp, fun _ => ?_⟩
        apply row_replicate
        · exact le_rfl
        · simp only [nil_append, headD_cons, Int.toNat_natCast]
          split <;> omega
      · have huse : s.nMin ≤ s.truncateDraft draft := by omega
        simp only [hmax, hmin, huse, if_true, if_false, and_self, decide_true, nil_append]
        refine ⟨fun k hk => ?_, fun _ => hnegative, fun hpos => by omega⟩
        obtain ⟨hle, hlt⟩ := mem_range'_1.mp hk
        exact row_replicate hle hlt
    · rw [if_neg hmax]
      refine ⟨by simp, by simp, fun _ => ?_⟩
      apply row_replicate
      · exact le_rfl
      · simp only [Int.toNat_natCast]
        split <;> omega
  exact
    { draft := hrows.1
      drafted := fun hne => ⟨hgen', hrows.2.1 hne⟩
      plain := fun _ => hrows.2.2
      prompt := fun t ht => absurd (hslot.symm.trans ht) (h.prompt t)
      fresh := fun _ _ => hgen'
      family := fun t ht => h.family t (hslot ▸ ht) }

/-- The loop over the generating slots. -/
theorem placed_fillSampled (hready : ∀ i < cfg.nParallel, (slots i).Ready) :
    ∀ i < cfg.nParallel, ((fillSampled cfg drafts slots).slots i).Placed
      (fillSampled cfg drafts slots).batch (fillSampled cfg drafts slots).ok 0 i := by
  suffices h : Sampling cfg drafts slots cfg.nParallel (fillSampled cfg drafts slots) ∧
      ∀ i < cfg.nParallel, ((fillSampled cfg drafts slots).slots i).Placed
        (fillSampled cfg drafts slots).batch (fillSampled cfg drafts slots).ok 0 i from h.2
  refine Loop.foldl_range_induction
    (motive := fun n f => Sampling cfg drafts slots n f ∧
      ∀ i < cfg.nParallel, (f.slots i).Placed f.batch f.ok 0 i)
    ⟨⟨fun _ => ⟨rfl, rfl⟩, fun _ _ => rfl, rfl, rfl, rfl, rfl⟩, fun i hi => ?_⟩ ?_
  · have h := hready i hi
    exact
      { draft := fun k hk => by
          rw [h.draft] at hk
          cases hk
        drafted := fun hne => absurd h.draft hne
        plain := fun hgen hpos => absurd (h.plain hgen) (Int.not_lt.mpr hpos)
        prompt := fun t ht => absurd ht (h.prompt t)
        fresh := fun _ ⟨_, htok, _⟩ => by cases htok
        family := h.family }
  · rintro n hn f ⟨hsampling, hplaced⟩
    refine ⟨hsampling.addSampled hn, fun i hi => ?_⟩
    unfold Filling.addSampled
    split
    · next hgen =>
      by_cases hin : i = n
      · subst hin
        simp only [setSlot_slots_self]
        rw [hsampling.rest i le_rfl] at hgen ⊢
        exact placed_sampleInto (hready i hi) hgen.1 _
      · simp only [setSlot_slots_of_ne hin]
        refine (hplaced i hi).keep (keeps_append _ _) (fun h => ?_) id le_rfl
        rcases hasToken_replicate h with hold | ⟨-, hnew⟩
        · exact hold
        · exact absurd hnew hin
    · exact hplaced i hi

/-- A slot that neither generates nor is done with its prompt. -/
theorem placed_of_quiet (hdraft : s.iBatchDft = []) (hgen : s.isGenerating = false)
    (hprompt : ∀ t, s.slot ≠ .busy .donePrompt t)
    (hfamily : ∀ t, s.slot.task = some t → t.Family) : s.Placed b ok (i + 1) i where
  draft k hk := by
    rw [hdraft] at hk
    cases hk
  drafted hne := absurd hdraft hne
  plain h := by
    rw [hgen] at h
    cases h
  prompt t ht := absurd ht (hprompt t)
  fresh hle := absurd hle (by omega)
  family := hfamily

/-- Marking a token for output. -/
def withOutput (b : List BatchToken) (j : Nat) : List BatchToken :=
  b.modify j fun tok => { tok with output := true }

theorem getElem?_withOutput (b : List BatchToken) (j k : Nat) :
    (withOutput b j)[k]? =
      b[k]?.map fun tok => if j = k then { tok with output := true } else tok :=
  getElem?_modify ..

theorem Keeps.withOutput (h : Keeps b b') (j : Nat) : Keeps b (withOutput b' j) := by
  intro k tok htok
  obtain ⟨tok', htok', hslot, hout⟩ := h k tok htok
  refine ⟨_, by rw [getElem?_withOutput, htok']; rfl, ?_, fun ho => ?_⟩
  · split <;> exact hslot
  · split
    · rfl
    · exact hout ho

theorem hasToken_withOutput (h : HasToken (withOutput b j) i) : HasToken b i := by
  obtain ⟨tok, hmem, hi⟩ := h
  obtain ⟨k, hk⟩ := mem_iff_getElem?.mp hmem
  rw [getElem?_withOutput] at hk
  obtain ⟨tok', htok', rfl⟩ := Option.map_eq_some_iff.mp hk
  refine ⟨tok', mem_of_getElem? htok', ?_⟩
  split at hi <;> exact hi

theorem fillPrompt_frame (cfg : BatchConfig) (f : Filling) (i : Nat) (t : Task)
    (past limit lora : Nat) :
    Keeps f.batch (f.fillPrompt cfg i t past limit lora).batch ∧
      ((f.fillPrompt cfg i t past limit lora).ok = true → f.ok = true) ∧
      ∀ j ≠ i, (f.fillPrompt cfg i t past limit lora).slots j = f.slots j ∧
        (HasToken (f.fillPrompt cfg i t past limit lora).batch j → HasToken f.batch j) := by
  have hother : ∀ w (j : Nat), j ≠ i →
      HasToken (f.batch ++ replicate w ⟨i, t.needEmbd⟩) j → HasToken f.batch j := by
    intro w j hj htok
    rcases hasToken_replicate htok with hold | ⟨-, hnew⟩
    · exact hold
    · exact absurd hnew hj
  simp only [Filling.fillPrompt]
  generalize f.fillCount cfg t past limit = w
  split
  · refine ⟨(keeps_append _ _).withOutput _, fun hok => ?_, fun j hj => ?_⟩
    · exact (Bool.and_eq_true_iff.mp hok).1
    · exact ⟨setSlot_slots_of_ne hj _ _, fun htok => hother w j hj (hasToken_withOutput htok)⟩
  · exact ⟨keeps_append _ _, id, fun j hj => ⟨setSlot_slots_of_ne hj _ _, hother w j hj⟩⟩

/-- A prompt whose slot generates nothing yet. -/
theorem placed_fillPrompt (h : (f.slots i).Placed f.batch f.ok i i) {t : Task}
    (hslot : ∃ state, (f.slots i).slot = .busy state t ∧ state ≠ .generating)
    (past limit lora : Nat) :
    ((f.fillPrompt cfg i t past limit lora).slots i).Placed
      (f.fillPrompt cfg i t past limit lora).batch (f.fillPrompt cfg i t past limit lora).ok
      (i + 1) i := by
  obtain ⟨state, hstate, hne⟩ := hslot
  have hquiet : (f.slots i).isGenerating = false := by
    rw [BatchSlot.isGenerating, hstate]
    cases state <;> first | rfl | exact absurd rfl hne
  have hdraft : (f.slots i).iBatchDft = [] := by
    by_contra hd
    rw [(h.drafted hd).1] at hquiet
    cases hquiet
  have hfamily : t.Family := h.family t (by rw [hstate]; rfl)
  have hfresh : ¬ HasToken f.batch i := by
    intro htok
    rw [h.fresh le_rfl htok] at hquiet
    cases hquiet
  simp only [Filling.fillPrompt]
  generalize f.fillCount cfg t past limit = w
  split
  · rw [setSlot_slots_self]
    -- the marked token is the last one, which is of this prompt if the prompt has any
    generalize hb : f.batch ++ replicate w (BatchToken.mk i t.needEmbd) = b
    have hlast : HasToken (withOutput b (b.length - 1)) i →
        Row (withOutput b (b.length - 1)) i (b.length - 1) := by
      intro htok
      obtain hold | ⟨hw, -⟩ := hasToken_replicate (hb ▸ hasToken_withOutput htok)
      · exact absurd hold hfresh
      · have hlen : b.length = f.batch.length + w := by
          rw [← hb, length_append, length_replicate]
        have htok : b[b.length - 1]? = some ⟨i, t.needEmbd⟩ := by
          rw [hlen, ← hb, getElem?_append_right (by omega), getElem?_replicate, if_pos (by omega)]
        rw [Row, getElem?_withOutput, htok]
        simp
    exact
      { draft := fun k hk => by
          rw [hdraft] at hk
          cases hk
        drafted := fun hne => absurd hdraft hne
        plain := fun hgen => by cases hgen
        prompt := fun t' _ => by
          refine ⟨Nat.lt_succ_self i, fun hok => ?_⟩
          have hne : b ≠ [] := by
            rintro rfl
            simp at hok
          have hpos := length_pos_of_ne_nil hne
          have htoNat : ((b.length : Int) - 1).toNat = b.length - 1 := by omega
          have hpos' : 0 ≤ (b.length : Int) - 1 := by omega
          rw [htoNat]
          refine ⟨hpos', ?_, hlast⟩
          rw [length_modify]
          omega
        fresh := fun hle => absurd hle (by omega)
        family := fun t' ht' => by
          cases ht'
          exact hfamily }
  · rw [setSlot_slots_self]
    refine placed_of_quiet hdraft rfl (fun t' ht' => ?_) (fun t' ht' => ?_)
    · cases ht'
    · cases ht'
      exact hfamily

theorem Filling.Placed.addPrompt (h : f.Placed cfg n) (hn : n < cfg.nParallel) :
    (f.addPrompt cfg feed n).Placed cfg (n + 1) := by
  have hsame : f.Placed cfg (n + 1) := fun i hi =>
    (h i hi).keep (fun k tok htok => ⟨tok, htok, rfl, id⟩) id id (Nat.le_succ n)
  -- a slot that is set while the batch stays
  have hset : ∀ s : BatchSlot, s.Placed f.batch f.ok (n + 1) n →
      (f.setSlot n s).Placed cfg (n + 1) := by
    intro s hs i hi
    by_cases hin : i = n
    · subst hin
      rw [setSlot_slots_self]
      exact hs
    · rw [setSlot_slots_of_ne hin]
      exact hsame i hi
  unfold Filling.addPrompt
  split
  · exact hsame
  · split
    · exact hsame
    · next state t hslot =>
      split
      · cases state with
        | waitOther | donePrompt | generating => exact hsame
        | started | processingPrompt =>
          simp only
          have hgen : (f.slots n).isGenerating = false := by
            rw [BatchSlot.isGenerating, hslot]
          have hdraft : (f.slots n).iBatchDft = [] := by
            by_contra hd
            rw [((h n hn).drafted hd).1] at hgen
            cases hgen
          cases feed n with
          | fail =>
            apply hset
            rw [Filling.released, hslot]
            exact placed_of_quiet rfl rfl (fun t' ht' => by cases ht') fun t' ht' => by cases ht'
          | wait =>
            apply hset
            refine placed_of_quiet hdraft rfl (fun t' ht' => by cases ht') fun t' ht' => ?_
            cases ht'
            exact (h n hn).family t (by rw [hslot]; rfl)
          | fill past limit lora =>
            intro i hi
            by_cases hin : i = n
            · subst hin
              exact placed_fillPrompt (h i hi) ⟨_, hslot, by decide⟩ past limit lora
            · obtain ⟨hkeep, hok, hother⟩ := fillPrompt_frame cfg f n t past limit lora
              obtain ⟨hsame', hnew⟩ := hother i hin
              change (((f.fillPrompt cfg n t past limit lora).slots i)).Placed _ _ _ _
              rw [hsame']
              exact (h i hi).keep hkeep hnew hok (Nat.le_succ n)
      · exact hsame

theorem placed_fillShared (hready : ∀ i < cfg.nParallel, (slots i).Ready) :
    (fillShared cfg drafts feed slots).Placed cfg cfg.nParallel := by
  have hsampled : (fillSampled cfg drafts slots).Placed cfg 0 := placed_fillSampled hready
  simp only [fillShared]
  split
  · exact Loop.foldl_range_induction (motive := fun n (f : Filling) => f.Placed cfg n)
      hsampled fun n hn f h => h.addPrompt hn
  · exact fun i hi => (hsampled i hi).keep (fun k tok htok => ⟨tok, htok, rfl, id⟩) id id
      (Nat.zero_le _)

end Filling

end Llama.Server
