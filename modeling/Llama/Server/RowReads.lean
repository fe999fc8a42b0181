import Llama.Server.Rows

/-!
# The outputs sampled by an update

Every update starts from slots that other updates, launches and releases have left. While the batch
is decoded, a slot that waits for an output has its row still in front of the head of the batch.
-/

namespace Llama.Server

open List Function

/-- The part of `update_slots` behind the context shift, without a result when an assertion
fails. -/
def runBatch (cfg : BatchConfig) (drafts : Nat → Nat) (feed : Nat → Prompting) (a : Answers)
    (slots : Nat → BatchSlot) : Option Ended :=
  let f := fillShared cfg drafts feed slots
  if f.ok then decodeShared cfg a f.slots f.batch.length else none

/-- The slots between updates. -/
inductive Reached (cfg : BatchConfig) : (Nat → BatchSlot) → Prop where
  | start : Reached cfg fun _ => {}
  /-- `launch_slot_with_task` on an idle slot. -/
  | launch {slots : Nat → BatchSlot} {i : Nat} {t : Task} {s : BatchSlot} (h : Reached cfg slots)
      (hidle : (slots i).slot = .idle) (hfamily : t.Family) (hslot : s.slot = .launch t)
      (hbatch : s.iBatch = (slots i).iBatch) (hdraft : s.iBatchDft = (slots i).iBatchDft) :
      Reached cfg (Function.update slots i s)
  | release {slots : Nat → BatchSlot} (i : Nat) (h : Reached cfg slots) :
      Reached cfg (Function.update slots i (Filling.released (slots i)))
  /-- Context shifts, and the saving, restoring and erasing of a slot. -/
  | prompt {slots : Nat → BatchSlot} (i n : Nat) (h : Reached cfg slots) :
      Reached cfg (Function.update slots i { slots i with nPrompt := n })
  | update {slots : Nat → BatchSlot} {drafts : Nat → Nat} {feed : Nat → Prompting} {a : Answers}
      {e : Ended} (h : Reached cfg slots) (hempty : ∀ t, a.decode t 0 < 0)
      (he : runBatch cfg drafts feed a slots = some e) : Reached cfg (e.slots cfg)

/-- Every prompt that is done and is sampled from has a token in the batch. -/
def Filling.Fed (cfg : BatchConfig) (f : Filling) : Prop :=
  ∀ i < cfg.nParallel, ∀ t, (f.slots i).slot = .busy .donePrompt t → t.needEmbd = false →
    HasToken f.batch i

/-- A slot while the batch is decoded: the outputs it waits for are not in front of the head. -/
structure BatchSlot.Aligned (cfg : BatchConfig) (f : Filling) (start i : Nat) (s : BatchSlot) :
    Prop where
  draft : ∀ k ∈ s.iBatchDft, Row f.batch i k
  drafted : s.iBatchDft ≠ [] → s.isGenerating = true ∧ s.iBatch < 0
  plain : s.isGenerating = true → 0 ≤ s.iBatch →
    start ≤ s.iBatch ∧ s.iBatch < f.batch.length ∧ RightRow f i s.iBatch.toNat
  prompt : ∀ t, s.slot = .busy .donePrompt t →
    start ≤ s.iBatch ∧ s.iBatch < f.batch.length ∧
      (t.needEmbd = false → f.Fed cfg → RightRow f i s.iBatch.toNat) ∧
      (t.isParent = true → (f.slots i).slot = s.slot ∧ (f.slots i).iBatch = s.iBatch)
  waiting : ∀ t, s.slot = .busy .waitOther t → (f.slots i).slot = s.slot
  family : ∀ t, s.slot.task = some t → t.Family

section Aligned

variable {cfg : BatchConfig} {drafts : Nat → Nat} {feed : Nat → Prompting} {a : Answers}
  {slots : Nat → BatchSlot} {f : Filling} {d d' : Decoding} {i k n start call : Nat} {s : BatchSlot}

theorem aligned_of_placed (h : f.Placed cfg n) (hok : f.ok = true) (hi : i < cfg.nParallel) :
    (f.slots i).Aligned cfg f 0 i := by
  have hplaced := h i hi
  exact
    { draft := hplaced.draft
      drafted := hplaced.drafted
      plain := fun hgen hpos => by
        have hrow := hplaced.plain hgen hpos
        have hlt := hrow.lt
        exact ⟨hpos, by omega, .inl hrow⟩
      prompt := fun t ht => by
        obtain ⟨hpos, hlt, hrow⟩ := (hplaced.prompt t ht).2 hok
        exact ⟨hpos, by omega, fun hembd hfed => .inl (hrow (hfed i hi t ht hembd)),
          fun _ => ⟨rfl, rfl⟩⟩
      waiting := fun _ _ => rfl
      family := hplaced.family }

/-- The head may move up to the rows that are waited for. -/
theorem BatchSlot.Aligned.advance (h : s.Aligned cfg f start i)
    (hplain : s.isGenerating = true → 0 ≤ s.iBatch → ((start + n : Nat) : Int) ≤ s.iBatch)
    (hprompt : ∀ t, s.slot = .busy .donePrompt t → ((start + n : Nat) : Int) ≤ s.iBatch) :
    s.Aligned cfg f (start + n) i where
  draft := h.draft
  drafted := h.drafted
  plain hgen hpos := ⟨hplain hgen hpos, (h.plain hgen hpos).2⟩
  prompt t ht := ⟨hprompt t ht, (h.prompt t ht).2⟩
  waiting := h.waiting
  family := h.family

/-- Only a slot that generates has a draft. -/
theorem BatchSlot.Aligned.draft_nil (h : s.Aligned cfg f start i)
    (hslot : ∀ t, s.slot ≠ .busy .generating t) : s.iBatchDft = [] := by
  by_contra hne
  have hgen := (h.drafted hne).1
  unfold BatchSlot.isGenerating at hgen
  split at hgen
  · next t ht => exact hslot t ht
  · cases hgen

/-- A slot that waits for no output and for no other slot. -/
theorem aligned_of_quiet (hdraft : s.iBatchDft = []) (hplain : s.isGenerating = true → s.iBatch < 0)
    (hslot : s.slot = .idle ∨ ∃ t, s.slot = .busy .generating t ∧ t.Family) :
    s.Aligned cfg f start i where
  draft k hk := by
    rw [hdraft] at hk
    cases hk
  drafted hne := absurd hdraft hne
  plain hgen hpos := absurd (hplain hgen) (Int.not_lt.mpr hpos)
  prompt t ht := by rcases hslot with h | ⟨t', h, -⟩ <;> cases h.symm.trans ht
  waiting t ht := by rcases hslot with h | ⟨t', h, -⟩ <;> cases h.symm.trans ht
  family t ht := by
    rcases hslot with hidle | ⟨t', hbusy, hfamily⟩
    · rw [hidle] at ht
      cases ht
    · rw [hbusy] at ht
      cases ht
      exact hfamily

variable {t : Task} {e : Ended}

/-- A slot that was sampled, or is released. -/
theorem aligned_released (hslot : s.slot = .busy .generating t) (hfamily : t.Family)
    (hbatch : s.iBatch < 0) (hdraft : s.iBatchDft = []) (goesOn : Bool) :
    (if goesOn then s else Filling.released s).Aligned cfg f start i := by
  cases goesOn with
  | true => exact aligned_of_quiet hdraft (fun _ => hbatch) (.inr ⟨t, hslot, hfamily⟩)
  | false =>
    refine aligned_of_quiet ?_ (fun _ => ?_) (.inl ?_)
    · simp [Filling.released, hslot]
    · simpa [Filling.released, hslot] using hbatch
    · simp [Filling.released, hslot]

/-- One token is sampled, at a row of the view. -/
theorem aligned_sampleOne (hslot : s.slot = .busy .generating t) (hfamily : t.Family)
    (hdraft : s.iBatchDft = []) (hle : start ≤ s.iBatch)
    (hlt : s.iBatch < ((start + n : Nat) : Int)) (hright : f.Fed cfg → RightRow f i s.iBatch.toNat)
    (a : Answers) (call m : Nat) :
    (sampleOne a call ⟨start, n⟩ i s).1.Aligned cfg f m i ∧
      (sampleOne a call ⟨start, n⟩ i s).1.iBatchDft = [] ∧
      ∀ r ∈ (sampleOne a call ⟨start, n⟩ i s).2, f.Fed cfg → r.Right f := by
  unfold sampleOne
  rw [if_pos hdraft]
  refine ⟨?_, ?_, ?_⟩
  · simp only
    exact aligned_released (s := { s with iBatch := -1, nRemaining := a.nRemaining call i })
      hslot hfamily (show (-1 : Int) < 0 by decide) hdraft _
  · cases a.processToken call i with
    | true => exact hdraft
    | false => simp [Filling.released, hslot]
  · intro r hr hfed
    cases mem_singleton.mp hr
    have hrow : start + (s.iBatch - start).toNat = s.iBatch.toNat := by omega
    refine ⟨?_, ?_, ?_⟩
    · change 0 ≤ s.iBatch - (start : Int)
      omega
    · change s.iBatch - (start : Int) < (n : Int)
      omega
    · change RightRow f i (start + (s.iBatch - start).toNat)
      rw [hrow]
      exact hright hfed

/-- A slot behind the first loop. What it samples is right, and its row is in the view. -/
theorem BatchSlot.Aligned.samplePlain (h : s.Aligned cfg f start i) (a : Answers) (call n : Nat) :
    (samplePlain a call ⟨start, n⟩ i s).1.Aligned cfg f (start + n) i ∧
      (samplePlain a call ⟨start, n⟩ i s).1.iBatchDft = s.iBatchDft ∧
      ∀ r ∈ (samplePlain a call ⟨start, n⟩ i s).2, f.Fed cfg → r.Right f := by
  have hnone : ∀ r ∈ ([] : List Read), f.Fed cfg → r.Right f := fun r hr => by cases hr
  unfold Server.samplePlain
  split
  · next hout =>
    refine ⟨h.advance (fun hgen hpos => ?_) (fun t ht => ?_), rfl, hnone⟩
    · have hle := (h.plain hgen hpos).1
      simp only at hout
      omega
    · have hle := (h.prompt t ht).1
      simp only at hout
      omega
  · next hin =>
    simp only [not_or, Int.not_lt, Int.not_le] at hin
    split
    · next t hslot =>
      obtain ⟨-, -, hright, -⟩ := h.prompt t hslot
      have hfamily := h.family t (by rw [hslot]; rfl)
      have hdraft := h.draft_nil fun t' ht' => by cases hslot.symm.trans ht'
      split
      · refine ⟨aligned_of_quiet ?_ (fun _ => show (-1 : Int) < 0 by decide) (.inl ?_), ?_, hnone⟩
        · simp [Filling.released, hslot]
        · simp [Filling.released, hslot]
        · simp [Filling.released, hslot, hdraft]
      · next hembd =>
        obtain ⟨haligned, hnil, hreads⟩ := aligned_sampleOne
          (s := { s with slot := .busy .generating t }) rfl hfamily hdraft hin.1 hin.2
          (hright (Bool.eq_false_iff.mpr hembd)) a call _
        exact ⟨haligned, hnil.trans hdraft.symm, hreads⟩
    · next t hslot =>
      have hgen : s.isGenerating = true := by rw [BatchSlot.isGenerating, hslot]
      have hpos : 0 ≤ s.iBatch := by omega
      have hdraft : s.iBatchDft = [] := by
        by_contra hne
        have := (h.drafted hne).2
        omega
      obtain ⟨haligned, hnil, hreads⟩ := aligned_sampleOne hslot
        (h.family t (by rw [hslot]; rfl)) hdraft hin.1 hin.2
        (fun _ => (h.plain hgen hpos).2.2) a call _
      exact ⟨haligned, hnil.trans hdraft.symm, hreads⟩
    · next hprompt hgen =>
      refine ⟨h.advance (fun hgen' _ => ?_) (fun t ht => absurd ht (hprompt t)), rfl, hnone⟩
      unfold BatchSlot.isGenerating at hgen'
      split at hgen'
      · next t ht => exact absurd ht (hgen t)
      · cases hgen'

/-- A slot behind the second loop has no draft. -/
theorem BatchSlot.Aligned.sampleDraft (h : s.Aligned cfg f start i) (a : Answers) (call : Nat)
    (v : BatchView) :
    (sampleDraft a call v i s).1.Aligned cfg f start i ∧
      (sampleDraft a call v i s).1.iBatchDft = [] ∧
      (sampleDraft a call v i s).2 = s.iBatchDft.map fun (k : Nat) => ⟨i, k, v⟩ := by
  unfold Server.sampleDraft
  by_cases hne : s.iBatchDft = []
  · rw [if_neg (fun hboth => hboth.2 hne)]
    exact ⟨h, hne, by rw [hne]; rfl⟩
  · obtain ⟨hgen, hbatch⟩ := h.drafted hne
    obtain ⟨t, hslot⟩ : ∃ t, s.slot = .busy .generating t := by
      unfold BatchSlot.isGenerating at hgen
      split at hgen
      · next t hslot => exact ⟨t, hslot⟩
      · cases hgen
    have hfamily := h.family t (by rw [hslot]; rfl)
    rw [if_pos ⟨hgen, hne⟩]
    refine ⟨?_, ?_, rfl⟩
    · apply aligned_released (t := t)
      · exact hslot
      · exact hfamily
      · exact hbatch
      · rfl
    · cases a.processToken call i with
      | true => rfl
      | false => simp [Filling.released, hslot]

theorem aligned_copyStateTo {p : BatchSlot} {j : Nat} (hp : p.Aligned cfg f start j)
    (hs : s.Aligned cfg f start i) (hslot : p.slot = .busy .donePrompt t)
    (hparent : t.isParent = true) (hwaits : s.waitsFor t.id = true) :
    (p.copyStateTo s).Aligned cfg f start i := by
  obtain ⟨u, hu, hid⟩ : ∃ u, s.slot = .busy .waitOther u ∧ u.idParent = some t.id := by
    unfold BatchSlot.waitsFor at hwaits
    split at hwaits
    · next u hu => exact ⟨u, hu, of_decide_eq_true hwaits⟩
    · cases hwaits
  have hcopy : (p.copyStateTo s).slot = .busy .donePrompt u := by
    simp [BatchSlot.copyStateTo, hu]
  have hfamily := hs.family u (by rw [hu]; rfl)
  have hdraft := hs.draft_nil fun t' ht' => by cases hu.symm.trans ht'
  obtain ⟨hle, hlt, hright, horigin⟩ := hp.prompt t hslot
  obtain ⟨hslot0, hbatch0⟩ := horigin hparent
  have hembd := (hp.family t (by rw [hslot]; rfl) hparent).2
  exact
    { draft := fun k hk => by
        change k ∈ s.iBatchDft at hk
        rw [hdraft] at hk
        cases hk
      drafted := fun hne => absurd hdraft hne
      plain := fun hgen => by
        rw [BatchSlot.isGenerating, hcopy] at hgen
        cases hgen
      prompt := fun u' hu' => by
        cases hcopy.symm.trans hu'
        refine ⟨hle, hlt, fun _ hfed => ?_, fun hpar => ?_⟩
        · -- the row of the parent is its own, since the parent is no child that waits
          rcases hright hembd hfed with hrow | ⟨q, ⟨w, -, hw, -⟩, -⟩
          · refine .inr ⟨j, ⟨u, t, (hs.waiting u hu).trans hu, hslot0.trans hslot, hid⟩, ?_, hrow⟩
            rw [hbatch0]
            change p.iBatch = (p.iBatch.toNat : Int)
            omega
          · rw [hslot0, hslot] at hw
            cases hw
        · have hchild := (hfamily hpar).1
          rw [Task.isChild, hid] at hchild
          cases hchild
      waiting := fun u' hu' => by
        rw [hcopy] at hu'
        cases hu'
      family := fun u' hu' => by
        rw [hcopy] at hu'
        cases hu'
        exact hfamily }

/-- Copying to the children of one slot. -/
theorem aligned_copyToChildren (h : ∀ j < cfg.nParallel, (slots j).Aligned cfg f start j)
    (hi : i < cfg.nParallel) :
    ∀ j < cfg.nParallel, (copyToChildren cfg slots i j).Aligned cfg f start j ∧
      (copyToChildren cfg slots i j).iBatchDft = (slots j).iBatchDft := by
  intro j hj
  unfold copyToChildren
  split
  · next t hslot =>
    split
    · next hcopy => exact ⟨aligned_copyStateTo (h i hi) (h j hj) hslot hcopy.1 hcopy.2.2, rfl⟩
    · exact ⟨h j hj, rfl⟩
  · exact ⟨h j hj, rfl⟩

/-- Every slot while the batch is decoded. -/
def Decoding.Aligned (cfg : BatchConfig) (f : Filling) (d : Decoding) : Prop :=
  ∀ i < cfg.nParallel, (d.slots i).Aligned cfg f d.start i

/-- The drafts, as they are passed after the decoding of a view. -/
def draftReads (cfg : BatchConfig) (slots : Nat → BatchSlot) (v : BatchView) : List Read :=
  (range cfg.nParallel).flatMap fun i => (slots i).iBatchDft.map fun (k : Nat) => ⟨i, k, v⟩

/-- A view was decoded: the plain reads are right, and all drafts are read. -/
theorem Decoding.Aligned.succeed (h : d.Aligned cfg f) (a : Answers) (n : Nat) :
    (d.succeed cfg a n).Aligned cfg f ∧
      (∀ i < cfg.nParallel, ((d.succeed cfg a n).slots i).iBatchDft = []) ∧
      ∃ plain : List Read, (∀ r ∈ plain, f.Fed cfg → r.Right f) ∧
        (d.succeed cfg a n).reads = d.reads ++ plain ++ draftReads cfg d.slots ⟨d.start, n⟩ := by
  let v : BatchView := ⟨d.start, n⟩
  let copied := (range cfg.nParallel).foldl (copyToChildren cfg) d.slots
  have hcopied : ∀ i < cfg.nParallel, (copied i).Aligned cfg f d.start i ∧
      (copied i).iBatchDft = (d.slots i).iBatchDft :=
    Loop.foldl_range_induction
      (motive := fun _ (slots : Nat → BatchSlot) => ∀ i < cfg.nParallel,
        (slots i).Aligned cfg f d.start i ∧ (slots i).iBatchDft = (d.slots i).iBatchDft)
      (fun i hi => ⟨h i hi, rfl⟩) fun j hj slots hslots i hi => by
        obtain ⟨haligned, hdraft⟩ := aligned_copyToChildren (fun i hi => (hslots i hi).1) hj i hi
        exact ⟨haligned, hdraft.trans (hslots i hi).2⟩
  let plain (i : Nat) := Server.samplePlain a d.calls v i (copied i)
  have hplain : ∀ i < cfg.nParallel, (plain i).1.Aligned cfg f (d.start + n) i ∧
      (plain i).1.iBatchDft = (d.slots i).iBatchDft ∧
      ∀ r ∈ (plain i).2, f.Fed cfg → r.Right f := fun i hi => by
    obtain ⟨haligned, hdraft, hright⟩ := (hcopied i hi).1.samplePlain a d.calls n
    exact ⟨haligned, hdraft.trans (hcopied i hi).2, hright⟩
  have hslots : ∀ i < cfg.nParallel,
      (d.succeed cfg a n).slots i = (Server.sampleDraft a d.calls v i (plain i).1).1 := by
    intro i hi
    simp only [Decoding.succeed, Decoding.forSlots, if_pos hi]
    rfl
  refine ⟨fun i hi => ?_, fun i hi => ?_, (range cfg.nParallel).flatMap fun i => (plain i).2,
    fun r hr => ?_, ?_⟩
  · rw [hslots i hi]
    exact ((hplain i hi).1.sampleDraft a d.calls v).1
  · rw [hslots i hi]
    exact ((hplain i hi).1.sampleDraft a d.calls v).2.1
  · obtain ⟨i, hi, hr⟩ := mem_flatMap.mp hr
    exact (hplain i (mem_range.mp hi)).2.2 r hr
  · have hdrafts : ((range cfg.nParallel).flatMap fun i =>
        (Server.sampleDraft a d.calls v i (plain i).1).2) = draftReads cfg d.slots v := by
      unfold draftReads
      apply flatMap_congr
      intro i hi
      have hlt := mem_range.mp hi
      rw [((hplain i hlt).1.sampleDraft a d.calls v).2.2, (hplain i hlt).2.1]
    rw [← hdrafts]
    simp only [Decoding.succeed, Decoding.forSlots]
    congr 1
    apply flatMap_congr
    intro i hi
    rw [if_pos (mem_range.mp hi)]

/-- A call that is tried again clears at most the prompt of a slot. -/
theorem retry_slots (cfg : BatchConfig) (d : Decoding) (i : Nat) :
    ∃ n, (d.retry cfg).slots i = { d.slots i with nPrompt := n } := by
  unfold Decoding.retry
  split
  · next slots hclear =>
    unfold tryClearIdleSlots at hclear
    split at hclear
    · obtain ⟨j, -, rfl⟩ := Option.map_eq_some_iff.mp hclear
      by_cases hij : i = j
      · subst hij
        exact ⟨0, update_self ..⟩
      · exact ⟨(d.slots i).nPrompt, update_of_ne hij ..⟩
    · cases hclear
  · exact ⟨(d.slots i).nPrompt, rfl⟩

theorem Decoding.Aligned.answered (h : d.Aligned cfg f) (n : Nat) (ret : Int) :
    (d.answered n ret).Aligned cfg f := h

theorem Decoding.Aligned.retry (h : d.Aligned cfg f) : (d.retry cfg).Aligned cfg f := by
  intro i hi
  obtain ⟨n, hn⟩ := retry_slots cfg d i
  have hslot := h i hi
  rw [hn, (retry_frame cfg d).1]
  exact ⟨hslot.draft, hslot.drafted, hslot.plain, hslot.prompt, hslot.waiting, hslot.family⟩

/-- The idle slots that can be cleared. -/
def idleSlots (cfg : BatchConfig) (slots : Nat → BatchSlot) : Nat :=
  if cfg.kvUnified then clearableCount cfg slots else 0

/-- `n_batch` at a call, when all calls before it failed: first the idle slots are cleared. -/
def firstBatch (cfg : BatchConfig) (slots : Nat → BatchSlot) (t : Nat) : Nat :=
  cfg.nBatch / 2 ^ (t - idleSlots cfg slots)

/-- The length of the view at that call. -/
def firstView (cfg : BatchConfig) (f : Filling) (t : Nat) : Nat :=
  min (firstBatch cfg f.slots t) f.batch.length

/-- The call is tried again. -/
def Retried (cfg : BatchConfig) (a : Answers) (f : Filling) (t : Nat) : Prop :=
  a.decode t (firstView cfg f t) ≠ 0 ∧
    decodeError (firstBatch cfg f.slots t) (a.decode t (firstView cfg f t)) = ""

/-- The first call that succeeds. -/
structure FirstDecoded (cfg : BatchConfig) (a : Answers) (f : Filling) (t : Nat) : Prop where
  before : ∀ u < t, Retried cfg a f u
  now : a.decode t (firstView cfg f t) = 0

/-- All drafts are in the first view that is decoded. -/
def DraftsFit (cfg : BatchConfig) (a : Answers) (f : Filling) : Prop :=
  ∀ t, FirstDecoded cfg a f t →
    ∀ i < cfg.nParallel, ∀ k ∈ (f.slots i).iBatchDft, k < firstView cfg f t

theorem FirstDecoded.unique {t u : Nat} (h : FirstDecoded cfg a f t) (h' : FirstDecoded cfg a f u) :
    t = u := by
  rcases Nat.lt_trichotomy t u with hlt | heq | hgt
  · exact absurd h.now (h'.before t hlt).1
  · exact heq
  · exact absurd h'.now (h.before u hgt).1

/-- All calls so far were tried again. -/
structure Decoding.Leading (cfg : BatchConfig) (a : Answers) (f : Filling) (d : Decoding) :
    Prop where
  start : d.start = 0
  reads : d.reads = []
  drafts : ∀ i, (d.slots i).iBatchDft = (f.slots i).iBatchDft
  idle : idleSlots cfg d.slots = idleSlots cfg f.slots - d.calls
  nBatch : d.nBatch = firstBatch cfg f.slots d.calls
  before : ∀ u < d.calls, Retried cfg a f u

theorem Decoding.Leading.view_eq (h : d.Leading cfg a f) :
    min d.nBatch (f.batch.length - d.start) = firstView cfg f d.calls := by
  rw [h.start, h.nBatch, Nat.sub_zero, firstView]

theorem Decoding.Leading.answered (h : d.Leading cfg a f) (n : Nat) (ret : Int) :
    (d.answered n ret).Leading cfg a f :=
  ⟨h.start, h.reads, h.drafts, h.idle, h.nBatch, h.before⟩

theorem Decoding.Leading.retry (h : d.Leading cfg a f) (hretried : Retried cfg a f d.calls) :
    (d.retry cfg).Leading cfg a f := by
  have hidle := h.idle
  have hbatch := h.nBatch
  have hbefore : ∀ u < d.calls + 1, Retried cfg a f u := by
    intro u hu
    rcases Nat.lt_succ_iff_lt_or_eq.mp hu with hlt | rfl
    · exact h.before u hlt
    · exact hretried
  obtain ⟨hstart, -, hreads, hcalls, -⟩ := retry_frame cfg d
  have hcases : idleSlots cfg (d.retry cfg).slots = idleSlots cfg f.slots - (d.calls + 1) ∧
      (d.retry cfg).nBatch = firstBatch cfg f.slots (d.calls + 1) := by
    unfold Decoding.retry
    cases hclear : tryClearIdleSlots cfg d.slots with
    | some slots =>
      obtain ⟨hkv, hcount⟩ := clearableCount_clear hclear
      have hleft : idleSlots cfg slots + 1 = idleSlots cfg d.slots := by
        rw [idleSlots, idleSlots, if_pos hkv, if_pos hkv, hcount]
      have hexp : d.calls + 1 - idleSlots cfg f.slots = d.calls - idleSlots cfg f.slots := by omega
      constructor
      · change idleSlots cfg slots = _
        omega
      · change d.nBatch = _
        rw [hbatch, firstBatch, firstBatch, hexp]
    | none =>
      have hnone : idleSlots cfg d.slots = 0 := by
        unfold tryClearIdleSlots at hclear
        unfold idleSlots
        split
        · next hkv =>
          rw [if_pos hkv, Option.map_eq_none_iff, find?_eq_none] at hclear
          exact countP_eq_zero.mpr hclear
        · rfl
      have hexp : d.calls + 1 - idleSlots cfg f.slots = d.calls - idleSlots cfg f.slots + 1 := by
        omega
      constructor
      · change idleSlots cfg d.slots = _
        omega
      · change d.nBatch / 2 = _
        rw [hbatch, firstBatch, firstBatch, hexp, Nat.pow_succ, Nat.div_div_eq_div_mul]
  exact
    { start := hstart.trans h.start
      reads := hreads.trans h.reads
      drafts := fun i => by
        obtain ⟨n, hn⟩ := retry_slots cfg d i
        rw [hn]
        exact h.drafts i
      idle := by rw [hcases.1, hcalls]
      nBatch := by rw [hcases.2, hcalls]
      before := by rwa [hcalls] }

/-- Drafts that are read after the decoding of a view from the start of the batch. -/
theorem right_draftReads (h : d.Aligned cfg f) (hstart : d.start = 0)
    (hdrafts : ∀ i, (d.slots i).iBatchDft = (f.slots i).iBatchDft) :
    (∀ r ∈ draftReads cfg d.slots ⟨d.start, n⟩, r.Right f) ↔
      ∀ i < cfg.nParallel, ∀ k ∈ (f.slots i).iBatchDft, k < n := by
  constructor
  · intro hright i hi k hk
    have hmem : (⟨i, k, ⟨d.start, n⟩⟩ : Read) ∈ draftReads cfg d.slots ⟨d.start, n⟩ := by
      apply mem_flatMap_of_mem (mem_range.mpr hi)
      rw [hdrafts]
      exact mem_map_of_mem hk
    have hlt : (k : Int) < n := (hright _ hmem).2.1
    omega
  · intro hfit r hr
    obtain ⟨i, hi, hr⟩ := mem_flatMap.mp hr
    obtain ⟨k, hk, rfl⟩ := mem_map.mp hr
    have hlt := mem_range.mp hi
    have hkn := hfit i hlt k (hdrafts i ▸ hk)
    refine ⟨Int.natCast_nonneg k, ?_, .inl ?_⟩
    · change (k : Int) < n
      omega
    · change Row f.batch i (d.start + (k : Int).toNat)
      rw [hstart, Nat.zero_add, Int.toNat_natCast]
      exact (h i hlt).draft k hk

/-- The loop after some turns: no view was decoded yet, or the drafts were read after the first. -/
structure Decoding.Tracked (cfg : BatchConfig) (a : Answers) (f : Filling) (d : Decoding) :
    Prop where
  aligned : d.Aligned cfg f
  phase : d.Leading cfg a f ∨
    0 < d.start ∧ (∀ i < cfg.nParallel, (d.slots i).iBatchDft = []) ∧
      ∃ t, FirstDecoded cfg a f t ∧
        (f.Fed cfg → ((∀ r ∈ d.reads, r.Right f) ↔
          ∀ i < cfg.nParallel, ∀ k ∈ (f.slots i).iBatchDft, k < firstView cfg f t))

theorem tracked_start (h : f.Placed cfg n) (hok : f.ok = true) :
    Decoding.Tracked cfg a f { slots := f.slots, nBatch := cfg.nBatch } where
  aligned i hi := aligned_of_placed h hok hi
  phase := .inl
    { start := rfl
      reads := rfl
      drafts := fun _ => rfl
      idle := rfl
      nBatch := by rw [firstBatch, Nat.zero_sub, Nat.pow_zero, Nat.div_one]
      before := fun u hu => absurd hu (Nat.not_lt_zero u) }

theorem Decoding.Tracked.turn (hempty : ∀ t, a.decode t 0 < 0) (h : d.Tracked cfg a f)
    (hturn : decodeTurn cfg a f.batch.length d = .inl d') : d'.Tracked cfg a f := by
  obtain ⟨-, ⟨hpos, hret, rfl⟩ | ⟨-, hret, herr, rfl⟩⟩ := decodeTurn_inl hempty hturn
  · obtain ⟨haligned, hnil, plain, hplain, hreads⟩ :=
      (h.aligned.answered (min d.nBatch (f.batch.length - d.start)) 0).succeed a
        (min d.nBatch (f.batch.length - d.start))
    rw [answered_reads, answered_slots, answered_start] at hreads
    refine ⟨haligned, .inr ⟨?_, hnil, ?_⟩⟩
    · change 0 < d.start + _
      omega
    · rcases h.phase with hlead | ⟨-, hnil', t, ht, hiff⟩
      · have hview := hlead.view_eq
        refine ⟨d.calls, ⟨hlead.before, hview ▸ hret⟩, fun hfed => ?_⟩
        rw [hreads, hlead.reads, ← right_draftReads h.aligned hlead.start hlead.drafts, hview]
        constructor
        · exact fun hall r hr => hall r (mem_append_right _ hr)
        · intro hall r hr
          rcases mem_append.mp hr with hr | hr
          · exact hplain r hr hfed
          · exact hall r hr
      · have hdrafts : draftReads cfg d.slots
            ⟨d.start, min d.nBatch (f.batch.length - d.start)⟩ = [] := by
          apply flatMap_eq_nil_iff.mpr
          intro i hi
          rw [hnil' i (mem_range.mp hi)]
          rfl
        refine ⟨t, ht, fun hfed => ?_⟩
        rw [← hiff hfed, hreads, hdrafts, append_nil]
        constructor
        · exact fun hall r hr => hall r (mem_append_left _ hr)
        · intro hall r hr
          rcases mem_append.mp hr with hr | hr
          · exact hall r hr
          · exact hplain r hr hfed
  · refine ⟨Decoding.Aligned.retry (h.aligned.answered _ _), ?_⟩
    rcases h.phase with hlead | ⟨hstart, hnil, t, ht, hiff⟩
    · rw [hlead.view_eq] at hret herr
      rw [hlead.nBatch] at herr
      exact .inl ((hlead.answered ..).retry ⟨hret, herr⟩)
    · obtain ⟨hstart', -, hreads, -, -⟩ := retry_frame cfg
        (d.answered (min d.nBatch (f.batch.length - d.start))
          (a.decode d.calls (min d.nBatch (f.batch.length - d.start))))
      refine .inr ⟨by rw [hstart']; exact hstart, fun i hi => ?_, t, ht, ?_⟩
      · obtain ⟨n, hn⟩ := retry_slots cfg (d.answered _ _) i
        rw [hn]
        exact hnil i hi
      · rw [hreads]
        exact hiff

/-- Where the loop is left, what was read is right exactly when the drafts fit. -/
theorem Decoding.Tracked.leave (h : d.Tracked cfg a f)
    (hturn : decodeTurn cfg a f.batch.length d = .inr e) (hfed : f.Fed cfg) :
    (∀ r ∈ e.reads, r.Right f) ↔ DraftsFit cfg a f := by
  -- a first view that was decoded decides both sides
  have hafter : ∀ t, FirstDecoded cfg a f t →
      ((∀ r ∈ d.reads, r.Right f) ↔
        ∀ i < cfg.nParallel, ∀ k ∈ (f.slots i).iBatchDft, k < firstView cfg f t) →
      ((∀ r ∈ d.reads, r.Right f) ↔ DraftsFit cfg a f) := by
    intro t ht hiff
    rw [hiff]
    constructor
    · intro hall u hu
      rw [← ht.unique hu]
      exact hall
    · exact fun hall => hall t ht
  have hread : d.Leading cfg a f → ∀ r ∈ d.reads, r.Right f := fun hlead r hr => by
    rw [hlead.reads] at hr
    cases hr
  obtain ⟨-, err, hret, herr, hne, rfl⟩ | ⟨hge, rfl⟩ := decodeTurn_inr hturn
  · rcases h.phase with hlead | ⟨-, -, t, ht, hiff⟩
    · rw [hlead.view_eq] at hret herr
      rw [hlead.nBatch] at herr
      refine iff_of_true (hread hlead) fun t ht => ?_
      rcases Nat.lt_trichotomy t d.calls with hlt | rfl | hgt
      · exact absurd ht.now (hlead.before t hlt).1
      · exact absurd ht.now hret
      · exact absurd (herr.symm.trans (ht.before d.calls hgt).2) hne
    · exact hafter t ht (hiff hfed)
  · rcases h.phase with hlead | ⟨-, -, t, ht, hiff⟩
    · have hstart := hlead.start
      refine iff_of_true (hread hlead) fun t ht i hi k hk => ?_
      have hlt := ((h.aligned i hi).draft k (hlead.drafts i ▸ hk)).lt
      omega
    · exact hafter t ht (hiff hfed)

theorem ready_of_idle (hslot : s.slot = .idle) (hdraft : s.iBatchDft = []) : s.Ready where
  draft := hdraft
  plain hgen := by
    rw [BatchSlot.isGenerating, hslot] at hgen
    cases hgen
  prompt t ht := by
    rw [hslot] at ht
    cases ht
  family t ht := by
    rw [hslot] at ht
    cases ht

/-- The slots behind the loop are ready for the next batch. -/
theorem Decoding.Tracked.ready (h : d.Tracked cfg a f)
    (hturn : decodeTurn cfg a f.batch.length d = .inr e) (hi : i < cfg.nParallel) :
    (e.slots cfg i).Ready := by
  have hslot := h.aligned i hi
  obtain ⟨-, err, -, -, -, rfl⟩ | ⟨hge, rfl⟩ := decodeTurn_inr hturn
  · change (failSlots cfg d.slots i).Ready
    refine ready_of_idle (failSlots_spec hi).1 ?_
    unfold failSlots
    cases hs : (d.slots i).slot with
    | idle =>
      rw [if_neg (fun hboth => by cases hboth.2)]
      exact hslot.draft_nil fun t ht => by cases hs.symm.trans ht
    | busy st t =>
      rw [if_pos ⟨hi, rfl⟩]
      simp [Filling.released, hs]
  · change (d.slots i).Ready
    have hdraft : (d.slots i).iBatchDft = [] := by
      rcases h.phase with hlead | ⟨-, hnil, -⟩
      · have hstart := hlead.start
        by_contra hne
        obtain ⟨k, hk⟩ := exists_mem_of_ne_nil _ hne
        have hlt := (hslot.draft k hk).lt
        omega
      · exact hnil i hi
    refine ⟨hdraft, fun hgen => ?_, fun t ht => ?_, hslot.family⟩
    · by_contra hpos
      obtain ⟨hle, hlt, -⟩ := hslot.plain hgen (by omega)
      omega
    · obtain ⟨hle, hlt, -⟩ := hslot.prompt t ht
      omega

/-- What an update that starts from ready slots leaves. -/
theorem tracked_runBatch {P : Ended → Prop} (hready : ∀ i < cfg.nParallel, (slots i).Ready)
    (hempty : ∀ t, a.decode t 0 < 0) (he : runBatch cfg drafts feed a slots = some e)
    (hP : ∀ d e, d.Tracked cfg a (fillShared cfg drafts feed slots) →
      decodeTurn cfg a (fillShared cfg drafts feed slots).batch.length d = .inr e → P e) : P e := by
  simp only [runBatch] at he
  split at he
  · next hok =>
    exact Loop.untilDone_invariant
      (I := Decoding.Tracked cfg a (fillShared cfg drafts feed slots))
      (fun d d' hd hturn => hd.turn hempty hturn) hP
      (tracked_start (placed_fillShared hready) hok) he
  · cases he

theorem BatchSlot.Ready.released (h : s.Ready) : (Filling.released s).Ready := by
  cases hs : s.slot with
  | idle => rwa [Filling.released, hs]
  | busy st t =>
    exact ready_of_idle (by simp [Filling.released, hs]) (by simp [Filling.released, hs])

theorem Reached.ready (h : Reached cfg slots) : ∀ i < cfg.nParallel, (slots i).Ready := by
  -- one slot that is set, while the others stay
  have hset : ∀ {slots : Nat → BatchSlot} (i : Nat) (s : BatchSlot),
      (∀ j < cfg.nParallel, (slots j).Ready) → (i < cfg.nParallel → s.Ready) →
      ∀ j < cfg.nParallel, (Function.update slots i s j).Ready := by
    intro slots i s hslots hs j hj
    by_cases hji : j = i
    · subst hji
      rw [update_self]
      exact hs hj
    · rw [update_of_ne hji]
      exact hslots j hj
  induction h with
  | start => exact fun i _ => ready_of_idle rfl rfl
  | @launch slots i t s _ hidle hfamily hslot hbatch hdraft ih =>
    refine hset i s ih fun hi => ⟨hdraft.trans (ih i hi).draft, fun hgen => ?_, fun t' ht' => ?_,
      fun t' ht' => ?_⟩
    · rw [BatchSlot.isGenerating, hslot, Slot.launch] at hgen
      cases hchild : t.isChild <;> simp [hchild] at hgen
    · rw [hslot, Slot.launch] at ht'
      cases hchild : t.isChild <;> simp [hchild] at ht'
    · rw [hslot] at ht'
      cases ht'
      exact hfamily
  | release i _ ih => exact hset i _ ih fun hi => (ih i hi).released
  | prompt i n _ ih =>
    refine hset i _ ih fun hi => ?_
    exact ⟨(ih i hi).draft, (ih i hi).plain, (ih i hi).prompt, (ih i hi).family⟩
  | update _ hempty he ih =>
    exact tracked_runBatch (P := fun e => ∀ i < cfg.nParallel, (e.slots cfg i).Ready) ih hempty
      he fun d e hd hturn i hi => hd.ready hturn hi

/-- The output of a prompt is still waited for, or it was read. -/
def Decoding.Owes (i : Nat) (k : Int) (d : Decoding) : Prop :=
  ((∃ t, (d.slots i).slot = .busy .donePrompt t ∧ t.needEmbd = false) ∧ (d.slots i).iBatch = k ∧
    d.start ≤ k) ∨
  ∃ r ∈ d.reads, r.slot = i ∧ r.view.start ≤ k ∧ r.index = k - r.view.start

theorem Decoding.Owes.retry {k : Int} (h : d.Owes i k) : (d.retry cfg).Owes i k := by
  obtain ⟨hstart, -, hreads, -, -⟩ := retry_frame cfg d
  obtain ⟨n, hn⟩ := retry_slots cfg d i
  unfold Decoding.Owes
  rw [hn, hstart, hreads]
  exact h

theorem Decoding.Owes.succeed {k : Int} (h : d.Owes i k) (haligned : d.Aligned cfg f)
    (hi : i < cfg.nParallel) (a : Answers) (n : Nat) : (d.succeed cfg a n).Owes i k := by
  obtain ⟨-, -, plain, -, hreads⟩ := haligned.succeed a n
  rcases h with ⟨⟨t, hslot, hembd⟩, hbatch, hle⟩ | ⟨r, hr, hread⟩
  · let v : BatchView := ⟨d.start, n⟩
    let copied := (range cfg.nParallel).foldl (copyToChildren cfg) d.slots
    -- a slot that is done with its prompt waits for no other one
    have hcopied : copied i = d.slots i :=
      Loop.foldl_range_induction
        (motive := fun _ (slots : Nat → BatchSlot) => slots i = d.slots i) rfl
        fun j _ slots hslots => by
          have hwaits : ∀ id, ¬ (slots i).waitsFor id = true := by
            intro id hid
            rw [hslots, BatchSlot.waitsFor, hslot] at hid
            cases hid
          unfold copyToChildren
          split
          · next u _ => rw [if_neg (fun hcopy => hwaits u.id hcopy.2.2), hslots]
          · exact hslots
    have hgen : (d.slots i).isGenerating = false := by rw [BatchSlot.isGenerating, hslot]
    have hdraft := (haligned i hi).draft_nil fun t' ht' => by cases hslot.symm.trans ht'
    by_cases hlt : k < ((d.start + n : Nat) : Int)
    · refine .inr ⟨⟨i, k - d.start, v⟩, ?_, rfl, hle, rfl⟩
      have hmem : (⟨i, k - d.start, v⟩ : Read) ∈ (samplePlain a d.calls v i (copied i)).2 := by
        rw [hcopied, samplePlain, hbatch, if_neg (by simp only [v]; omega), hslot]
        simp only [hembd, Bool.false_eq_true, if_false]
        rw [sampleOne, if_pos hdraft]
        exact mem_singleton_self _
      exact mem_append_left _ (mem_append_right _ (mem_flatMap_of_mem (mem_range.mpr hi) hmem))
    · left
      have hplain : samplePlain a d.calls v i (copied i) = (d.slots i, []) := by
        rw [hcopied, samplePlain, hbatch, if_pos (by simp only [v]; omega)]
      have hnew : (d.succeed cfg a n).slots i = d.slots i := by
        simp only [Decoding.succeed, Decoding.forSlots, if_pos hi]
        change (sampleDraft a d.calls v i (samplePlain a d.calls v i (copied i)).1).1 = _
        rw [hplain, sampleDraft, if_neg (fun hboth => by rw [hgen] at hboth; cases hboth.1)]
      rw [hnew]
      refine ⟨⟨t, hslot, hembd⟩, hbatch, ?_⟩
      change ((d.start + n : Nat) : Int) ≤ k
      omega
  · refine .inr ⟨r, ?_, hread⟩
    rw [hreads, append_assoc]
    exact mem_append_left _ hr

/-- When the loop gets through the batch, a prompt without a token is sampled from a wrong row. -/
theorem fed_of_right (h : f.Placed cfg n) (hok : f.ok = true) (hempty : ∀ t, a.decode t 0 < 0)
    (he : decodeShared cfg a f.slots f.batch.length = some (.done d))
    (hright : ∀ r ∈ d.reads, r.Right f) : f.Fed cfg := by
  intro i hi t hslot hembd
  have hpos := ((h i hi).prompt t hslot).2 hok |>.1
  obtain ⟨htracked, howes, hge⟩ := Loop.untilDone_invariant
    (I := fun d => d.Tracked cfg a f ∧ d.Owes i (f.slots i).iBatch)
    (Q := fun e => ∀ d, e = .done d → d.Tracked cfg a f ∧ d.Owes i (f.slots i).iBatch ∧
      f.batch.length ≤ d.start)
    (fun d d' hd hturn => by
      refine ⟨hd.1.turn hempty hturn, ?_⟩
      obtain ⟨-, ⟨-, -, rfl⟩ | ⟨-, -, -, rfl⟩⟩ := decodeTurn_inl hempty hturn
      · have howes : (d.answered (min d.nBatch (f.batch.length - d.start)) 0).Owes i
            (f.slots i).iBatch := hd.2
        exact howes.succeed (hd.1.aligned.answered _ _) hi a _
      · have howes : (d.answered (min d.nBatch (f.batch.length - d.start))
            (a.decode d.calls (min d.nBatch (f.batch.length - d.start)))).Owes i
            (f.slots i).iBatch := hd.2
        exact howes.retry)
    (fun d e hd hturn d' hd' => by
      subst hd'
      obtain ⟨-, err, -, -, -, he⟩ | ⟨hge, he⟩ := decodeTurn_inr hturn
      · cases he
      · cases he
        exact ⟨hd.1, hd.2, hge⟩)
    ⟨tracked_start h hok, .inl ⟨⟨t, hslot, hembd⟩, rfl, hpos⟩⟩ he d rfl
  rcases howes with ⟨⟨u, hu, -⟩, hbatch, -⟩ | ⟨r, hr, hri, hle, hindex⟩
  · obtain ⟨hle, hlt, -⟩ := (htracked.aligned i hi).prompt u hu
    omega
  · obtain ⟨-, -, hrow⟩ := hright r hr
    rw [hri] at hrow
    rcases hrow with hrow | ⟨p, ⟨u, -, hu, -⟩, -⟩
    · exact hrow.hasToken
    · rw [hslot] at hu
      cases hu

/-- What an update samples is at right rows exactly when all drafts are in the first view that is
decoded: they are read after it, by their place in the whole batch. The other way for this to fail
is a prompt that is done without a token in the batch. -/
theorem runBatch_right_iff {e : Ended} (hreached : Reached cfg slots)
    (hempty : ∀ t, a.decode t 0 < 0) (he : runBatch cfg drafts feed a slots = some e) :
    ((fillShared cfg drafts feed slots).Fed cfg →
      ((∀ r ∈ e.reads, r.Right (fillShared cfg drafts feed slots)) ↔
        DraftsFit cfg a (fillShared cfg drafts feed slots))) ∧
      ((∃ d, e = .done d) →
        ((∀ r ∈ e.reads, r.Right (fillShared cfg drafts feed slots)) ↔
          (fillShared cfg drafts feed slots).Fed cfg ∧
            DraftsFit cfg a (fillShared cfg drafts feed slots))) := by
  have hplaced : (fillShared cfg drafts feed slots).Placed cfg cfg.nParallel :=
    placed_fillShared hreached.ready
  have hfed : (fillShared cfg drafts feed slots).Fed cfg →
      ((∀ r ∈ e.reads, r.Right (fillShared cfg drafts feed slots)) ↔
        DraftsFit cfg a (fillShared cfg drafts feed slots)) := fun h =>
    tracked_runBatch
      (P := fun e => (∀ r ∈ e.reads, r.Right (fillShared cfg drafts feed slots)) ↔
        DraftsFit cfg a (fillShared cfg drafts feed slots))
      hreached.ready hempty he fun d e hd hturn => hd.leave hturn h
  refine ⟨hfed, ?_⟩
  rintro ⟨d, rfl⟩
  simp only [runBatch] at he
  split at he
  · next hok =>
    constructor
    · intro hright
      have h := fed_of_right hplaced hok hempty he hright
      exact ⟨h, (hfed h).mp hright⟩
    · exact fun h => (hfed h.1).mpr h.2
  · cases he

/-- A slot that is launched with a prompt of one token. -/
theorem runBatch_right_iff_prompt :
    let cfg : BatchConfig := { nParallel := 1, nBatch := 4 }
    let a : Answers :=
      { decode := fun _ n => if n = 0 then -1 else 0
        accepted := fun _ _ => 0, processToken := fun _ _ => true, nRemaining := fun _ _ => -1 }
    let t : Task := { id := 0, type := .completion, nTokens := 1 }
    let slots : Nat → BatchSlot := Function.update (fun _ => {}) 0 { slot := .launch t }
    let f := fillShared cfg (fun _ => 0) (fun _ => .fill 0 1 0) slots
    ∃ e, runBatch cfg (fun _ => 0) (fun _ => .fill 0 1 0) a slots = some e ∧
      (f.Fed cfg → ((∀ r ∈ e.reads, r.Right f) ↔ DraftsFit cfg a f)) ∧
      ((∃ d, e = .done d) → ((∀ r ∈ e.reads, r.Right f) ↔ f.Fed cfg ∧ DraftsFit cfg a f)) := by
  intro cfg a t slots f
  have hreached : Reached cfg slots := .launch (t := t) .start rfl (fun h => by cases h) rfl rfl rfl
  have he := (Option.some_get
    (x := runBatch cfg (fun _ => 0) (fun _ => .fill 0 1 0) a slots) (by decide)).symm
  exact ⟨_, he, runBatch_right_iff hreached (fun _ => show (-1 : Int) < 0 by decide) he⟩

/-- A batch of a token and its draft of three tokens is decoded in two views. -/
theorem runBatch_wrong_row :
    let cfg : BatchConfig := { nParallel := 1, nBatch := 4 }
    let a : Answers :=
      { decode := fun _ n => if n = 0 then -1 else if n ≤ 2 then 0 else 1
        accepted := fun _ _ => 0, processToken := fun _ _ => true, nRemaining := fun _ _ => -1 }
    ∃ slots, Reached cfg slots ∧
      ∃ e, runBatch cfg (fun _ => 3) (fun _ => .wait) a slots = some e ∧
        ⟨0, 2, ⟨0, 2⟩⟩ ∈ e.reads ∧
        ¬ Read.Right (fillShared cfg (fun _ => 3) (fun _ => .wait) slots) ⟨0, 2, ⟨0, 2⟩⟩ := by
  intro cfg a
  let t : Task := { id := 0, type := .completion, nTokens := 1 }
  let s : BatchSlot := { slot := .launch t, canSpeculate := true, nCtx := 100 }
  have hempty : ∀ call, a.decode call 0 < 0 := fun _ => show (-1 : Int) < 0 by decide
  have hlaunch : Reached cfg (Function.update (fun _ => {}) 0 s) :=
    .launch (t := t) .start rfl (fun h => by cases h) rfl rfl rfl
  -- the prompt of one token comes first
  refine ⟨_, .update hlaunch hempty (Option.some_get
    (x := runBatch cfg (fun _ => 0) (fun _ => .fill 0 1 0) a
      (Function.update (fun _ => {}) 0 s)) (by decide)).symm, ?_⟩
  refine ⟨_, (Option.some_get ?_).symm, ?_, ?_⟩
  · decide
  · decide
  · exact fun h => absurd h.2.1 (by decide)

end Aligned

end Llama.Server
