import Llama.Output.Context
import Mathlib.Data.List.Sort

/-!
# Outputs go to their tokens

Row `q` of the output buffers is the row of the `q`-th flagged token of the ubatches; after the
recorded exchanges it is the row of the `q`-th flagged token of the batch, and `output_ids` already
says so. The exchanges of the embeddings are made with the width `n_embd` while the rows have the
width `n_embd_out`, so they are right exactly if the two agree or there is nothing to exchange.
-/

namespace Llama.Output

open Batch Swaps List Function

variable {E α : Type} {b : Allocr E} {P : Params}

variable {inp : Input E} {mode : Mode} {nUbatch k n : Nat} {p : Progress} {c : Cut}
  {cuts : List Cut} {s : Source}

/-- What every call of a split notes, also when tokens in no sequence are taken twice. -/
theorem split_uses {p' : Progress} (hkeep : mode.Keeps b p)
    (h : b.split mode nUbatch p = some (c, p')) :
    Uses b p c.idxs p' ∧ mode.Keeps b p' ∧ (∀ i ∈ c.idxs, i < b.nTokens) ∧
      p'.outIds = p.outIds ++ c.idxs.filter b.isOutput := by
  cases mode with
  | simple =>
    obtain ⟨ht, hk⟩ := splitSimple_step hkeep h
    exact ⟨ht.uses, hk, ht.lt, ht.outs⟩
  | seq =>
    have ht := splitSeq_step h
    exact ⟨ht.uses, trivial, ht.lt, ht.outs⟩
  | equal sequential =>
    obtain ⟨hu, hk⟩ := splitEqual_uses hkeep h
    obtain ⟨k, is, m, q, -, -, -, -, -, -, hidx, -, hq, rfl⟩ := splitEqual_some h
    refine ⟨hu, hk, fun i hi => ?_, by rw [← hq.outs]; rfl⟩
    rw [hidx] at hi
    obtain ⟨x, -, hx⟩ := (mem_turns hkeep).mp hi
    exact (mem_remaining.mp (mem_of_mem_take hx)).1

/-- A split that uses all tokens. -/
structure Splits (b : Allocr E) (cuts : List Cut) (outIds : List Nat) : Prop where
  outs : outIds = (cuts.flatMap Cut.idxs).filter b.isOutput
  covers : ∀ i < b.nTokens, i ∈ cuts.flatMap Cut.idxs
  lt : ∀ c ∈ cuts, ∀ i ∈ c.idxs, i < b.nTokens

theorem splits_of_splitAll (hpos : 0 < b.nTokens)
    (h : b.splitAll mode nUbatch (b.nTokens + 1) Progress.reset = some (cuts, p))
    (hused : ¬ p.nUsed < b.nTokens) : Splits b cuts p.outIds := by
  by_cases hallow : mode.Allowed b
  · obtain ⟨cuts', p', h', ⟨h1, h2, h3, -⟩, h4⟩ := splitAll_reset mode nUbatch
      (R := fun p done => p.outIds = done.filter b.isOutput ∧ (∀ i, p.used i = true ↔ i ∈ done) ∧
        (∀ i ∈ done, i < b.nTokens) ∧ mode.Keeps b p) hallow
      ⟨rfl, by simp [Progress.reset], by simp, keeps_reset mode⟩
      fun p done c p' hR hs => by
        obtain ⟨hu, hk, hlt, houts⟩ := split_uses hR.2.2.2 hs
        refine ⟨hu, ?_, fun i => ?_, fun i hi => ?_, hk⟩
        · rw [houts, hR.1, filter_append]
        · rw [hu.used, hR.2.1, mem_append]
        · rcases mem_append.mp hi with hi | hi
          · exact hR.2.2.1 i hi
          · exact hlt i hi
    obtain ⟨rfl, rfl⟩ := Prod.mk.inj (Option.some.inj (h'.symm.trans h))
    refine ⟨h1, fun i hi => (h2 i).mp (h4 i hi), fun c hc i hi => h3 i ?_⟩
    exact mem_flatMap.mpr ⟨c, hc, hi⟩
  · -- the sequential split refuses the batch in its first call
    cases mode with
    | simple => exact absurd trivial hallow
    | seq => exact absurd trivial hallow
    | equal sequential =>
      cases sequential with
      | false => exact absurd trivial hallow
      | true =>
        have hcpl : b.hasCpl = true := by simpa [Mode.Allowed] using hallow
        have hnone : b.split (.equal true) nUbatch Progress.reset = none := by
          simp [Allocr.split, Allocr.splitEqual, hcpl]
        rw [Allocr.splitAll, hnone] at h
        obtain ⟨rfl, rfl⟩ := Prod.mk.inj (Option.some.inj h)
        exact absurd hpos hused

theorem mem_flagged {i : Nat} : i ∈ flagged b ↔ i < b.nTokens ∧ b.isOutput i = true := by
  rw [flagged, mem_filter, mem_range]

theorem flagged_nodup : (flagged b).Nodup := nodup_range.filter _

/-- With as many noted outputs as flagged tokens, each flagged token is noted once. -/
theorem Splits.perm {outIds : List Nat} (h : Splits b cuts outIds)
    (hlen : outIds.length = nOutputsAll b) : outIds.Perm (flagged b) := by
  have hsub : flagged b ⊆ outIds := by
    intro i hi
    obtain ⟨hlt, hout⟩ := mem_flagged.mp hi
    rw [h.outs]
    exact mem_filter.mpr ⟨h.covers i hlt, hout⟩
  exact ((subperm_of_subset flagged_nodup hsub).perm_of_length_le hlen.le).symm

/-- An output: the ubatch, the place in it, and the token of the batch. -/
structure Source where
  /-- Number of the ubatch. -/
  ubatch : Nat
  /-- Place in the ubatch. -/
  place : Nat
  /-- Index of the token in the batch. -/
  token : Nat
  deriving DecidableEq

/-- Outputs of the ubatch with the number `k`. -/
def sourcesOf (b : Allocr E) (c : Cut) (k : Nat) : List Source :=
  (flaggedAt b c).map fun r => ⟨k, r, c.idxs.getD r 0⟩

/-- Outputs of the ubatches from number `k` on. -/
def sources (b : Allocr E) : List Cut → Nat → List Source
  | [], _ => []
  | c :: cs, k => sourcesOf b c k ++ sources b cs (k + 1)

/-- The noted outputs are the tokens of the sources. -/
theorem map_token_sources (cs : List Cut) (k : Nat) :
    (sources b cs k).map Source.token = (cs.flatMap Cut.idxs).filter b.isOutput := by
  induction cs generalizing k with
  | nil => rfl
  | cons c cs ih =>
    have hfirst : (sourcesOf b c k).map Source.token = c.idxs.filter b.isOutput := by
      have hmap := filter_map (f := (c.idxs.getD · 0)) (p := b.isOutput) (l := range c.idxs.length)
      rw [Bytes.map_getD_range] at hmap
      rw [hmap, sourcesOf, map_map]
      rfl
    rw [sources, map_append, hfirst, ih, flatMap_cons, filter_append]

theorem mem_sourcesOf : s ∈ sourcesOf b c k ↔
    s.ubatch = k ∧ c.idxs[s.place]? = some s.token ∧ b.isOutput s.token = true := by
  simp only [sourcesOf, flaggedAt, mem_map, mem_filter, mem_range]
  constructor
  · rintro ⟨r, ⟨hr, hout⟩, rfl⟩
    refine ⟨rfl, ?_, hout⟩
    simp [getD_eq_getElem?_getD, getElem?_eq_getElem hr]
  · rintro ⟨rfl, hget, hout⟩
    obtain ⟨hr, he⟩ := List.getElem?_eq_some_iff.mp hget
    have hd : c.idxs.getD s.place 0 = s.token := by rw [getD_eq_getElem?_getD, hget]; rfl
    exact ⟨s.place, ⟨hr, by rw [hd]; exact hout⟩, by rw [hd]⟩

theorem mem_sources {cs : List Cut} : s ∈ sources b cs k ↔
    ∃ c, k ≤ s.ubatch ∧ cs[s.ubatch - k]? = some c ∧ c.idxs[s.place]? = some s.token ∧
      b.isOutput s.token = true := by
  induction cs generalizing k with
  | nil => simp [sources]
  | cons c cs ih =>
    rw [sources, mem_append, mem_sourcesOf, ih]
    constructor
    · rintro (⟨rfl, hget, hout⟩ | ⟨c', hle, hc, hget, hout⟩)
      · exact ⟨c, le_rfl, by simp, hget, hout⟩
      · obtain ⟨j, hj⟩ : ∃ j, s.ubatch - k = j + 1 := ⟨s.ubatch - (k + 1), by omega⟩
        have hj' : s.ubatch - (k + 1) = j := by omega
        rw [hj'] at hc
        exact ⟨c', by omega, by rw [hj, getElem?_cons_succ, hc], hget, hout⟩
    · rintro ⟨c', hle, hc, hget, hout⟩
      rcases Nat.eq_or_lt_of_le hle with he | hlt
      · rw [← he, Nat.sub_self, getElem?_cons_zero] at hc
        obtain rfl := Option.some.inj hc
        exact Or.inl ⟨he.symm, hget, hout⟩
      · obtain ⟨j, hj⟩ : ∃ j, s.ubatch - k = j + 1 := ⟨s.ubatch - (k + 1), by omega⟩
        have hj' : s.ubatch - (k + 1) = j := by omega
        rw [hj, getElem?_cons_succ] at hc
        exact Or.inr ⟨c', hlt, by rw [hj', hc], hget, hout⟩

/-- With tokens of the batch, the two ways to count the outputs of a ubatch agree. -/
theorem outputs_of_lt (hlt : ∀ i ∈ c.idxs, i < b.nTokens) :
    newOutputs b c = (flaggedAt b c).length ∧ outIdsInput b c = flaggedAt b c := by
  have hle : (flaggedAt b c).length ≤ c.idxs.length := by
    simpa [flaggedAt] using length_filter_le (fun r => b.isOutput (c.idxs.getD r 0))
      (range c.idxs.length)
  have hfull : (flaggedAt b c).length = c.idxs.length → flaggedAt b c = range c.idxs.length := by
    intro he
    rw [flaggedAt, filter_eq_self, ← length_filter_eq_length_iff, length_range]
    exact he
  have hall : nOutputsAll b = b.nTokens → (flaggedAt b c).length = c.idxs.length := by
    intro hn
    have hout : ∀ i < b.nTokens, b.isOutput i = true := by
      intro i hi
      have hself : (range b.nTokens).length = (flagged b).length := by
        rw [length_range]
        exact hn.symm
      exact (length_filter_eq_length_iff.mp hself.symm) i (mem_range.mpr hi)
    have hself : flaggedAt b c = range c.idxs.length := by
      refine filter_eq_self.mpr fun r hr => hout _ ?_
      have hr := mem_range.mp hr
      rw [getD_eq_getElem?_getD, getElem?_eq_getElem hr]
      exact hlt _ (getElem_mem hr)
    rw [hself, length_range]
  have hnew : newOutputs b c = (flaggedAt b c).length := by
    unfold newOutputs
    split
    · rename_i hn
      exact (hall hn).symm
    · rfl
  refine ⟨hnew, ?_⟩
  unfold outIdsInput
  split
  · rename_i he
    exact (hfull (hnew ▸ he)).symm
  · rfl

/-- The contents of an output buffer after the outputs `srcs`: the row of each source, or what was
in memory before if its row was not extracted. -/
structure Stored (w size : Nat) (mem : Nat → α) (row : Source → Option (Nat → α))
    (srcs : List Source) (v : View α) : Prop where
  size : v.size = size
  data : ∃ d, v.data = some d ∧ ∀ q x, x < w → d (q * w + x) =
    match srcs[q]?.bind row with
    | some f => f x
    | none => mem (q * w + x)

variable {w size : Nat} {mem : Nat → α} {row : Source → Option (Nat → α)} {srcs : List Source}
  {v : View α}

theorem Stored.skip (h : Stored w size mem row srcs v) {new : List Source}
    (hnew : ∀ s ∈ new, row s = none) : Stored w size mem row (srcs ++ new) v := by
  obtain ⟨d, hd, hrows⟩ := h.data
  refine ⟨h.size, d, hd, fun q x hx => ?_⟩
  rw [hrows q x hx]
  by_cases hq : q < srcs.length
  · rw [getElem?_append_left hq]
  · have hnone : srcs[q]?.bind row = none := by
      rw [getElem?_eq_none (Nat.le_of_not_lt hq)]
      rfl
    have hnone' : (srcs ++ new)[q]?.bind row = none := by
      rw [getElem?_append_right (Nat.le_of_not_lt hq)]
      cases hs : new[q - srcs.length]? with
      | none => rfl
      | some s => exact hnew s (mem_of_getElem? hs)
    rw [hnone, hnone']

/-- Copying whole rows behind `prev` rows. -/
theorem copyTo_row {prev q x : Nat} (rows : Nat → Nat → α) (d : Nat → α) (hx : x < w) :
    copyTo (prev * w) (n * w) (flat w rows) d (q * w + x) =
      if prev ≤ q ∧ q < prev + n then rows (q - prev) x else d (q * w + x) := by
  have hadd := Nat.add_mul prev n w
  by_cases h1 : prev ≤ q
  · obtain ⟨j, rfl⟩ := Nat.exists_eq_add_of_le h1
    have hj := Nat.add_mul prev j w
    have hw : 0 < w := Nat.zero_lt_of_lt hx
    by_cases h2 : j < n
    · have hlt := Nat.mul_le_mul_right w h2
      rw [Nat.succ_mul] at hlt
      have haddr : (prev + j) * w + x - prev * w = w * j + x := by
        rw [Nat.mul_comm w j]
        omega
      rw [copyTo, if_pos (by omega), if_pos (by omega), haddr, flat, Nat.mul_add_div hw,
        Nat.div_eq_of_lt hx, Nat.mul_add_mod, Nat.mod_eq_of_lt hx, Nat.add_sub_cancel_left,
        Nat.add_zero]
    · have hge := Nat.mul_le_mul_right w (Nat.le_of_not_lt h2)
      rw [copyTo, if_neg (by omega), if_neg (by omega)]
  · have hlt := Nat.mul_le_mul_right w (Nat.lt_of_not_le h1)
    rw [Nat.succ_mul] at hlt
    rw [copyTo, if_neg (by omega), if_neg (by omega)]

theorem Stored.extract {c : Cut} {k : Nat} {rows : Nat → Nat → α} (h : Stored w size mem row srcs v)
    (hlt : ∀ i ∈ c.idxs, i < b.nTokens) (hrow : ∀ s ∈ sourcesOf b c k, row s = some (rows s.place))
    (hfits : srcs.length + (flaggedAt b c).length ≤ nOutputsAll b)
    (hsize : nOutputsAll b * w ≤ size) :
    ∃ v', Output.extract w b c rows srcs.length v = some v' ∧
      Stored w size mem row (srcs ++ sourcesOf b c k) v' := by
  obtain ⟨hn, hids⟩ := outputs_of_lt hlt
  obtain ⟨d, hd, hrows⟩ := h.data
  simp only [Output.extract, hd, hn, hids]
  by_cases h0 : (flaggedAt b c).length = 0
  · rw [if_pos h0]
    have hnil : sourcesOf b c k = [] := by
      rw [sourcesOf, length_eq_zero_iff.mp h0, map_nil]
    rw [hnil, append_nil]
    exact ⟨v, rfl, h⟩
  · have hle := Nat.mul_le_mul_right w hfits
    rw [if_neg h0, if_pos ⟨hfits, by rw [h.size]; omega⟩]
    refine ⟨_, rfl, h.size, _, rfl, fun q x hx => ?_⟩
    have hlen : (sourcesOf b c k).length = (flaggedAt b c).length := length_map _
    rw [copyTo_row _ _ hx]
    by_cases h1 : q < srcs.length
    · rw [if_neg (by omega), getElem?_append_left h1, hrows q x hx]
    · rw [getElem?_append_right (Nat.le_of_not_lt h1)]
      by_cases h2 : q - srcs.length < (flaggedAt b c).length
      · have hs := getElem?_eq_getElem (hlen ▸ h2)
        rw [if_pos (by omega), hs, Option.bind_some, hrow _ (getElem_mem _)]
        simp only [sourcesOf, getElem_map, getD_eq_getElem?_getD,
          getElem?_eq_getElem h2, Option.getD_some]
      · rw [if_neg (by omega), hrows q x hx, getElem?_eq_none (Nat.le_of_not_lt h1),
          getElem?_eq_none (by omega)]

/-- The row that a source gets in the logits: none if its ubatch needs no raw logits. -/
def logitsRow (P : Params) (b : Allocr E) (cuts : List Cut) (res : Nat → Result α) (s : Source) :
    Option (Nat → α) :=
  match cuts[s.ubatch]? with
  | none => none
  | some c => if needsRawLogits P.samplers b c then some ((res s.ubatch).logits s.place) else none

/-- The row that a source gets in the embeddings: none if they are not computed. -/
def embdRow (P : Params) (res : Nat → Result α) (s : Source) : Option (Nat → α) :=
  if P.embeddings then some ((res s.ubatch).embd s.place) else none

/-- What the loop over the ubatches keeps. -/
structure Extracted (P : Params) (b : Allocr E) (cuts : List Cut) (res : Nat → Result α)
    (memLogits memEmbd : Nat → α) (srcs : List Source) (ctx : Context α) : Prop where
  logits : Stored P.nVocab (P.nVocab * max (nOutputsAll b) P.nSeqMax) memLogits
    (logitsRow P b cuts res) srcs ctx.logits
  embd : P.hasEmbd = true → Stored P.nEmbdOut (P.nEmbdOut * max (nOutputsAll b) P.nSeqMax) memEmbd
    (embdRow P res) srcs ctx.embd
  noEmbd : P.hasEmbd = false → ctx.embd.data = none
  outputIds : ctx.outputIds = fun _ => -1
  outputSwaps : ctx.outputSwaps = []

variable {cuts : List Cut} {res : Nat → Result α} {memLogits memEmbd : Nat → α} {ctx : Context α}

/-- The loop ends if there is room for all outputs. -/
theorem decodeLoop_extracted (hlt : ∀ c ∈ cuts, ∀ i ∈ c.idxs, i < b.nTokens) :
    ∀ (cs : List Cut) (k : Nat) (srcs : List Source) (ctx : Context α), cuts.drop k = cs →
      srcs.length + (sources b cs k).length ≤ nOutputsAll b →
      Extracted P b cuts res memLogits memEmbd srcs ctx →
      ∃ ctx', decodeLoop P b res cs k srcs.length ctx = some ctx' ∧
        Extracted P b cuts res memLogits memEmbd (srcs ++ sources b cs k) ctx'
  | [], k, srcs, ctx, _, _, hx => ⟨ctx, rfl, by rwa [sources, append_nil]⟩
  | c :: cs, k, srcs, ctx, hcuts, hfits, hx => by
    have hck : cuts[k]? = some c := by
      have hget : (cuts.drop k)[0]? = cuts[k + 0]? := getElem?_drop
      rw [hcuts, Nat.add_zero] at hget
      exact hget.symm
    have hrest : cuts.drop (k + 1) = cs := by
      rw [← drop_drop, hcuts]
      rfl
    have hltc := hlt c (mem_of_getElem? hck)
    have hnew := (outputs_of_lt hltc).1
    have hlen : (sourcesOf b c k).length = (flaggedAt b c).length := length_map _
    rw [sources, length_append, hlen] at hfits
    have hroom : ∀ w, nOutputsAll b * w ≤ w * max (nOutputsAll b) P.nSeqMax := fun w => by
      rw [Nat.mul_comm]
      exact Nat.mul_le_mul_left w (le_max_left _ _)
    have hubatch : ∀ s ∈ sourcesOf b c k, s.ubatch = k := fun s hs => (mem_sourcesOf.mp hs).1
    obtain ⟨logits, hlogits, hL⟩ : ∃ v,
        extractLogits P b c (res k) srcs.length ctx.logits = some v ∧
        Stored P.nVocab (P.nVocab * max (nOutputsAll b) P.nSeqMax) memLogits
          (logitsRow P b cuts res)
          (srcs ++ sourcesOf b c k) v := by
      unfold extractLogits
      by_cases hraw : needsRawLogits P.samplers b c = true
      · rw [if_pos hraw]
        refine hx.logits.extract hltc (fun s hs => ?_) (by omega) (hroom P.nVocab)
        simp [logitsRow, hubatch s hs, hck, hraw]
      · rw [if_neg hraw]
        refine ⟨_, rfl, hx.logits.skip fun s hs => ?_⟩
        simp [logitsRow, hubatch s hs, hck, hraw]
    obtain ⟨embd, hembd, hE, hno⟩ : ∃ v, extractEmbd P b c (res k) srcs.length ctx.embd = some v ∧
        (P.hasEmbd = true → Stored P.nEmbdOut (P.nEmbdOut * max (nOutputsAll b) P.nSeqMax) memEmbd
          (embdRow P res) (srcs ++ sourcesOf b c k) v) ∧ (P.hasEmbd = false → v.data = none) := by
      unfold extractEmbd
      by_cases hemb : P.embeddings = true
      · have hhas : P.hasEmbd = true := by rw [Params.hasEmbd, hemb, Bool.true_or]
        have hrow : ∀ s ∈ sourcesOf b c k, embdRow P res s = some ((res k).embd s.place) := by
          intro s hs
          rw [embdRow, if_pos hemb, hubatch s hs]
        obtain ⟨v, hv, hS⟩ := (hx.embd hhas).extract hltc hrow (by omega) (hroom P.nEmbdOut)
        rw [if_pos hemb]
        exact ⟨v, hv, fun _ => hS, fun h => absurd (hhas.symm.trans h) (by decide)⟩
      · rw [if_neg hemb]
        exact ⟨_, rfl, fun h => (hx.embd h).skip fun s _ => if_neg hemb, hx.noEmbd⟩
    have hlen' : (srcs ++ sourcesOf b c k).length = srcs.length + newOutputs b c := by
      rw [length_append, hlen, hnew]
    obtain ⟨ctx', hrun, hx'⟩ := decodeLoop_extracted hlt cs (k + 1) (srcs ++ sourcesOf b c k)
      { ctx with logits := logits, embd := embd } hrest (by rw [hlen', hnew]; omega)
      ⟨hL, hE, hno, hx.outputIds, hx.outputSwaps⟩
    rw [hlen'] at hrun
    rw [append_assoc] at hx'
    refine ⟨ctx', ?_, hx'⟩
    simp only [decodeLoop, hlogits, hembd, Option.bind_eq_bind, Option.bind_some]
    exact hrun

/-- What `decode` needs to succeed. -/
structure Ready (P : Params) (inp : Input E) (b : Allocr E) (mode : Mode) (nUbatch : Nat)
    (cuts : List Cut) (p : Progress) : Prop where
  allow : samplersAllow P inp = true
  split : b.splitAll mode nUbatch (b.nTokens + 1) Progress.reset = some (cuts, p)
  used : ¬ p.nUsed < b.nTokens
  room : ¬ P.nBatch < b.nTokens
  all : P.embeddings = true → nOutputsAll b = b.nTokens
  outs : p.outIds.length = nOutputsAll b

/-- The order in which the outputs of the ubatches are noted. -/
def noted (p : Progress) (i : Nat) : Nat := p.outIds.getD i 0

/-- What `decode` leaves: the rows in the order of the ubatches, and the exchanges and ids of the
order of the batch. -/
structure Decoded (P : Params) (b : Allocr E) (cuts : List Cut) (p : Progress)
    (res : Nat → Result α) (memLogits memEmbd : Nat → α) (ctx : Context α) : Prop where
  logits : Stored P.nVocab (P.nVocab * max (nOutputsAll b) P.nSeqMax) memLogits
    (logitsRow P b cuts res) (sources b cuts 0) ctx.logits
  embd : P.hasEmbd = true → Stored P.nEmbdOut (P.nEmbdOut * max (nOutputsAll b) P.nSeqMax) memEmbd
    (embdRow P res) (sources b cuts 0) ctx.embd
  noEmbd : P.hasEmbd = false → ctx.embd.data = none
  nOutputs : ctx.nOutputs = nOutputsAll b
  outputSwaps : ctx.outputSwaps = (selectionSort (noted p) (nOutputsAll b)).2
  outputIds : ctx.outputIds =
    assignIds (selectionSort (noted p) (nOutputsAll b)).1 (nOutputsAll b) fun _ => -1

theorem selectionSort_eq_self {f : Nat → Nat} (h : ∀ i j, i < j → j < n → f i ≤ f j) :
    selectionSort f n = (f, []) := by
  have hnil := selectionSort_swaps_eq_nil_iff.mpr h
  have heq := (selectionSort_sorting f n).eq
  rw [hnil] at heq
  exact Prod.ext (funext heq) hnil

/-- Both ways to set the mappings agree with sorting. -/
theorem setMappings_eq (ids : Nat → Nat) (n : Nat) (hids : ctx.outputIds = fun _ => -1)
    (hswaps : ctx.outputSwaps = []) :
    setMappings ids n ctx =
      { ctx with
        nOutputs := n
        outputIds := assignIds (selectionSort ids n).1 n fun _ => -1
        outputSwaps := (selectionSort ids n).2 } := by
  simp only [setMappings, hids, hswaps, nil_append]
  split
  · rename_i hsorted
    have hmono : ∀ i j, i < j → j < n → ids i ≤ ids j := by
      intro i j hij hj
      rcases Bool.or_eq_true_iff.mp hsorted with hall | hone
      · have hself : ∀ k < n, ids k = k := fun k hk => by
          simpa using all_eq_true.mp hall k (mem_range.mpr hk)
        rw [hself i (hij.trans hj), hself j hj]
        exact hij.le
      · have := of_decide_eq_true hone
        omega
    rw [selectionSort_eq_self hmono, ← hswaps]
  · rfl

theorem decode_of_ready (hpos : 0 < b.nTokens) (h : Ready P inp b mode nUbatch cuts p)
    (res : Nat → Result α) (memLogits memEmbd : Nat → α) :
    ∃ ctx, decode P inp b mode nUbatch res memLogits memEmbd = some ctx ∧
      Decoded P b cuts p res memLogits memEmbd ctx := by
  have hsplit := splits_of_splitAll hpos h.split h.used
  have hlen : (sources b cuts 0).length = nOutputsAll b := by
    rw [← h.outs, hsplit.outs, ← map_token_sources cuts 0, length_map]
  have hstart : Extracted P b cuts res memLogits memEmbd []
      (outputReserve P (nOutputsAll b) memLogits memEmbd) := by
    refine ⟨⟨rfl, _, rfl, fun q x _ => rfl⟩, fun hemb => ?_, fun hno => ?_, rfl, rfl⟩
    · simp only [outputReserve, hemb, if_true]
      exact ⟨rfl, _, rfl, fun q x _ => rfl⟩
    · simp [outputReserve, hno]
  obtain ⟨ctx, hloop, hx⟩ := decodeLoop_extracted hsplit.lt cuts 0 [] _ rfl
    (by rw [hlen, length_nil, Nat.zero_add]) hstart
  rw [nil_append] at hx
  have hall : ¬ (P.embeddings = true ∧ nOutputsAll b ≠ b.nTokens) := fun hn => hn.2 (h.all hn.1)
  have hroom : ¬ (p.nUsed < b.nTokens ∨ P.nBatch < b.nTokens) := fun hn =>
    hn.elim h.used h.room
  have hrun : decode P inp b mode nUbatch res memLogits memEmbd =
      if nOutputsAll b = 0 then some { ctx with nOutputs := 0 }
      else some (setMappings (noted p) (nOutputsAll b) ctx) := by
    simp only [decode, h.allow, guard_true, Option.pure_def, h.split, Option.bind_eq_bind,
      Option.bind_some, if_neg hall, if_neg hroom]
    rw [show decodeLoop P b res cuts 0 0 _ = some ctx from hloop]
    simp only [Option.bind_some, h.outs, ne_eq, not_true, if_false]
    rfl
  rw [hrun, setMappings_eq _ _ hx.outputIds hx.outputSwaps]
  by_cases hn : nOutputsAll b = 0
  · rw [if_pos hn]
    refine ⟨_, rfl, hx.logits, hx.embd, hx.noEmbd, hn.symm, ?_, ?_⟩
    · rw [hn]
      exact hx.outputSwaps
    · rw [hn]
      exact hx.outputIds
  · rw [if_neg hn]
    exact ⟨_, rfl, hx.logits, hx.embd, hx.noEmbd, rfl, rfl, rfl⟩

theorem ready_of_decode (hpos : 0 < b.nTokens)
    (h : decode P inp b mode nUbatch res memLogits memEmbd = some ctx) :
    ∃ cuts p, Ready P inp b mode nUbatch cuts p := by
  unfold decode at h
  have hallow : samplersAllow P inp = true := by
    by_contra hno
    simp [hno] at h
  simp only [hallow, guard_true, Option.pure_def, Option.bind_eq_bind, Option.bind_some] at h
  cases hs : b.splitAll mode nUbatch (b.nTokens + 1) Progress.reset with
  | none => simp [hs] at h
  | some r =>
    obtain ⟨cuts, p⟩ := r
    simp only [hs, Option.bind_some] at h
    split at h
    · cases h
    · rename_i hall
      split at h
      · cases h
      · rename_i hroom
        have hused : ¬ p.nUsed < b.nTokens := fun hn => hroom (Or.inl hn)
        refine ⟨cuts, p, hallow, hs, hused, fun hn => hroom (Or.inr hn), fun hemb => ?_, ?_⟩
        · by_contra hne
          exact hall ⟨hemb, hne⟩
        · cases hl :
            decodeLoop P b res cuts 0 0 (outputReserve P (nOutputsAll b) memLogits memEmbd) with
          | none => simp [hl] at h
          | some ctx' =>
            simp only [hl, Option.bind_some] at h
            split at h
            · rename_i hn
              have hsplit := splits_of_splitAll hpos hs hused
              rw [hn, length_eq_zero_iff, hsplit.outs, filter_eq_nil_iff]
              intro i hi hout
              obtain ⟨c, hc, hic⟩ := mem_flatMap.mp hi
              have hin : i ∈ flagged b := mem_flagged.mpr ⟨hsplit.lt c hc i hic, hout⟩
              rw [length_eq_zero_iff.mp hn] at hin
              exact absurd hin not_mem_nil
            · split at h
              · cases h
              · rename_i hne
                exact not_not.mp hne

section

variable {p : Progress}

variable {i q n : Nat} {ids : Nat → Nat} {o : Nat → Int}

theorem noted_eq (hi : i < p.outIds.length) : p.outIds[i]? = some (noted p i) := by
  rw [noted, getD_eq_getElem?_getD, getElem?_eq_getElem hi, Option.getD_some]

theorem noted_inj (hperm : p.outIds.Perm (flagged b)) {j : Nat} (hi : i < p.outIds.length)
    (hj : j < p.outIds.length) (h : noted p i = noted p j) : i = j := by
  have hnodup : p.outIds.Nodup := hperm.nodup_iff.mpr flagged_nodup
  refine (getElem?_inj hi hnodup).mp ?_
  rw [noted_eq hi, noted_eq hj, h]

theorem range_map_noted : (range p.outIds.length).map (noted p) = p.outIds :=
  Bytes.map_getD_range p.outIds 0

/-- The sorted outputs are the flagged tokens in the order of the batch. -/
theorem flagged_eq_sorted (hperm : p.outIds.Perm (flagged b)) (hq : q < nOutputsAll b) :
    (flagged b)[q]? = some ((selectionSort (noted p) (nOutputsAll b)).1 q) := by
  have hlen : p.outIds.length = nOutputsAll b := hperm.length_eq
  have hmap : (range (nOutputsAll b)).map (selectionSort (noted p) (nOutputsAll b)).1 =
      flagged b := by
    refine List.Perm.eq_of_pairwise' (r := (· ≤ ·)) ?_ ?_ ?_
    · rw [pairwise_map]
      refine pairwise_lt_range.imp_of_mem fun {i j} _ hj hij => ?_
      exact selectionSort_le hij (mem_range.mp hj)
    · exact (pairwise_lt_range.filter _).imp le_of_lt
    · have hnoted : (range (nOutputsAll b)).map (noted p) = p.outIds := by
        rw [← hlen, range_map_noted]
      refine selectionSort_perm.trans ?_
      rw [hnoted]
      exact hperm
  rw [← hmap, getElem?_map, getElem?_range hq]
  rfl

/-- A source of the `q`-th flagged token of the batch stands at the place that the exchanges bring
to row `q`. -/
theorem sources_order (outs : p.outIds = (cuts.flatMap Cut.idxs).filter b.isOutput)
    (hperm : p.outIds.Perm (flagged b)) {s : Source} (hs : s ∈ sources b cuts 0)
    (hq : (flagged b)[q]? = some s.token) :
    (sources b cuts 0)[order (selectionSort (noted p) (nOutputsAll b)).2 q]? = some s := by
  have hlen : p.outIds.length = nOutputsAll b := hperm.length_eq
  have hqn : q < nOutputsAll b := (List.getElem?_eq_some_iff.mp hq).1
  obtain ⟨j, hj, hget⟩ := getElem_of_mem hs
  have hsrc : (sources b cuts 0)[j]? = some s := by rw [getElem?_eq_getElem hj, hget]
  have hjn : p.outIds[j]? = some s.token := by
    rw [outs, ← map_token_sources cuts 0, getElem?_map, hsrc]
    rfl
  have hj' : j < p.outIds.length := (List.getElem?_eq_some_iff.mp hjn).1
  have hsame : noted p j = noted p (order (selectionSort (noted p) (nOutputsAll b)).2 q) := by
    rw [← (selectionSort_sorting (noted p) (nOutputsAll b)).eq q]
    have h1 := (noted_eq hj').symm.trans hjn
    have h2 := (flagged_eq_sorted hperm hqn).symm.trans hq
    rw [Option.some.inj h1, Option.some.inj h2]
  have hlt : order (selectionSort (noted p) (nOutputsAll b)).2 q < nOutputsAll b :=
    order_lt selectionSort_bounds hqn
  rw [← noted_inj hperm hj' (by omega) hsame]
  exact hsrc

theorem assignIds_of_ne {t : Nat} (h : ∀ r < n, ids r ≠ t) : assignIds ids n o t = o t := by
  induction n with
  | zero => rfl
  | succ n ih =>
    rw [assignIds, range_succ, foldl_append, foldl_cons, foldl_nil,
      update_of_ne (h n (Nat.lt_succ_self n)).symm]
    exact ih fun r hr => h r (by omega)

theorem assignIds_apply {r : Nat} (hr : r < n) (hinj : ∀ j < n, ids j = ids r → j = r) :
    assignIds ids n o (ids r) = r := by
  induction n with
  | zero => exact absurd hr (Nat.not_lt_zero r)
  | succ n ih =>
    rw [assignIds, range_succ, foldl_append, foldl_cons, foldl_nil]
    by_cases he : ids n = ids r
    · rw [← he, update_self, hinj n (Nat.lt_succ_self n) he]
    · have hne : r ≠ n := fun h => he (by rw [h])
      rw [update_of_ne (Ne.symm he)]
      exact ih (by omega) fun j hj => hinj j (by omega)

/-- The row of a token that `output_ids` names. -/
theorem outputIds_eq (hperm : p.outIds.Perm (flagged b)) (t : Nat) :
    assignIds (selectionSort (noted p) (nOutputsAll b)).1 (nOutputsAll b) (fun _ => -1) t =
      if t ∈ flagged b then ((flagged b).idxOf t : Int) else -1 := by
  have hget : ∀ r < nOutputsAll b, (flagged b)[r]? =
      some ((selectionSort (noted p) (nOutputsAll b)).1 r) := fun r hr => flagged_eq_sorted hperm hr
  split
  · rename_i ht
    have hr : (flagged b).idxOf t < nOutputsAll b := idxOf_lt_length_of_mem ht
    have hids : (selectionSort (noted p) (nOutputsAll b)).1 ((flagged b).idxOf t) = t := by
      have h1 := hget _ hr
      rw [getElem?_eq_getElem hr, getElem_idxOf hr] at h1
      exact (Option.some.inj h1).symm
    have happly := @assignIds_apply (nOutputsAll b) (selectionSort (noted p) (nOutputsAll b)).1
      (fun _ => -1) _ hr fun j hj he => by
        have h1 := hget j hj
        rw [he, ← hget _ hr] at h1
        exact (getElem?_inj hj flagged_nodup).mp h1
    rwa [hids] at happly
  · rename_i ht
    refine assignIds_of_ne fun r hr he => ht ?_
    rw [← he]
    exact mem_of_getElem? (hget r hr)

end

end Llama.Output
