import Llama.Output.Rows

/-!
# Reading the outputs

What the functions that read outputs return after a decode, in any order of calls. The first of them
makes the recorded exchanges and the others find nothing to do. Logits are returned for their tokens
unless a ubatch has outputs but none in a sequence without a backend sampler, since its logits are
then not extracted; embeddings are if rows are exchanged with the width they have, or not at all. A
T5 context has a buffer for embeddings that are not computed, and hands out what is left in it. -/

namespace Llama.Output

open Batch Swaps List

variable {E α : Type} {b : Allocr E} {P : Params} {cuts : List Cut} {p : Progress}

/-- Token `i` of the batch stands at the place `r` of ubatch `k`. -/
def StandsAt (cuts : List Cut) (k r i : Nat) : Prop := ∃ c, cuts[k]? = some c ∧ c.idxs[r]? = some i

/-- The rows `rows k r` of the places of the ubatches are returned for the tokens of the batch, by
the function `ith` and in the buffer `all`. -/
structure Served (b : Allocr E) (cuts : List Cut) (w : Nat) (rows : Nat → Nat → Nat → α)
    (all : Option (Nat → α)) (ith : Int → Option (List α)) : Prop where
  token : ∀ k r i : Nat, StandsAt cuts k r i → b.isOutput i = true →
    ith i = some ((range w).map (rows k r))
  other : ∀ i : Nat, i ∉ flagged b → ith i = none
  last : ∀ j i : Nat, 0 < j → j ≤ nOutputsAll b → (flagged b)[nOutputsAll b - j]? = some i →
    ith (-j) = ith i
  before : ∀ j : Nat, nOutputsAll b < j → ith (-j) = none
  inOrder : ∃ d, all = some d ∧ ∀ q i k r : Nat, (flagged b)[q]? = some i → StandsAt cuts k r i →
    ∀ x < w, d (q * w + x) = rows k r x

variable {ctx : Context α}

/-- A context whose ids are those of the batch. -/
structure Mapped (P : Params) (b : Allocr E) (ctx : Context α) : Prop where
  room : b.nTokens ≤ P.nBatch
  nOutputs : ctx.nOutputs = nOutputsAll b
  outputIds : ∀ t, ctx.outputIds t =
    if t ∈ flagged b then ((flagged b).idxOf t : Int) else -1

variable {i j w q : Nat} {v : View α} {d : Nat → α}

section

variable (h : Mapped P b ctx)
include h

theorem Mapped.resolve_token (hi : i ∈ flagged b) :
    outputResolveRow P ctx i = .ok ((flagged b).idxOf i) := by
  have hlt : (flagged b).idxOf i < nOutputsAll b := idxOf_lt_length_of_mem hi
  have hroom := h.room
  have hin := (mem_flagged.mp hi).1
  simp only [outputResolveRow, h.nOutputs, Int.toNat_natCast, h.outputIds, if_pos hi]
  rw [if_neg (by omega), if_neg (by omega), if_neg (by omega), if_neg (by omega)]

theorem Mapped.resolve_other (hi : i ∉ flagged b) : ∃ e, outputResolveRow P ctx i = .error e := by
  simp only [outputResolveRow, Int.toNat_natCast, h.outputIds, if_neg hi]
  rw [if_neg (by omega)]
  split
  · exact ⟨_, rfl⟩
  · exact ⟨_, if_pos (by omega)⟩

theorem Mapped.resolve_last (hj : 0 < j) (hle : j ≤ nOutputsAll b) :
    outputResolveRow P ctx (-j) = .ok (nOutputsAll b - j) := by
  simp only [outputResolveRow, h.nOutputs]
  rw [if_pos (by omega), if_neg (by omega), if_neg (by omega), if_neg (by omega)]
  exact congrArg Except.ok (by omega)

theorem Mapped.resolve_before (hj : nOutputsAll b < j) :
    ∃ e, outputResolveRow P ctx (-j) = .error e := by
  simp only [outputResolveRow, h.nOutputs]
  rw [if_pos (by omega)]
  exact ⟨_, if_pos (by omega)⟩

/-- Rows in the order of the batch are served. -/
theorem Mapped.served {rows : Nat → Nat → Nat → α} (hd : v.data = some d)
    (hlt : ∀ c ∈ cuts, ∀ i ∈ c.idxs, i < b.nTokens)
    (hrows : ∀ q i k r : Nat, (flagged b)[q]? = some i → StandsAt cuts k r i →
      ∀ x < w, d (q * w + x) = rows k r x) : Served b cuts w rows v.data (getIth P ctx w v) := by
  have hith : ∀ i j, outputResolveRow P ctx i = .ok j → getIth P ctx w v i =
    some (rowAt w d j) := by
    intro i j hij
    simp only [getIth, hd, hij]
  have hnone : ∀ i, (∃ e, outputResolveRow P ctx i = .error e) → getIth P ctx w v i = none := by
    rintro i ⟨e, he⟩
    simp only [getIth, hd, he]
  refine ⟨fun k r i hat hout => ?_, fun i hi => hnone _ (h.resolve_other hi),
    fun j i hj hle hget => ?_, fun j hj => hnone _ (h.resolve_before hj), d, hd, hrows⟩
  · obtain ⟨c, hc, hr⟩ := hat
    have hi : i ∈ flagged b :=
      mem_flagged.mpr ⟨hlt c (mem_of_getElem? hc) i (mem_of_getElem? hr), hout⟩
    have hlen := idxOf_lt_length_of_mem hi
    have hget : (flagged b)[(flagged b).idxOf i]? = some i := by
      rw [getElem?_eq_getElem hlen, getElem_idxOf hlen]
    rw [hith _ _ (h.resolve_token hi), rowAt]
    refine congrArg some (map_congr_left fun x hx => ?_)
    exact hrows _ i k r hget ⟨c, hc, hr⟩ x (mem_range.mp hx)
  · have hi : i ∈ flagged b := mem_of_getElem? hget
    obtain ⟨hlt', he⟩ := List.getElem?_eq_some_iff.mp hget
    have hidx : (flagged b).idxOf i = nOutputsAll b - j := by
      rw [← he]
      exact flagged_nodup.idxOf_getElem _ hlt'
    rw [hith _ _ (h.resolve_last hj hle), hith _ _ (h.resolve_token hi), hidx]

end

/-- A second reordering changes nothing. -/
theorem outputReorder_outputReorder (P : Params) (ctx : Context α) :
    outputReorder P (outputReorder P ctx) = outputReorder P ctx := by
  have hid : ∀ (w : Nat) (o : Option (Nat → α)), o.map (swapAllRows w []) = o := fun w o => by
    cases o <;> rfl
  simp only [outputReorder, hid, ite_self]

/-- Whatever was called before, a call sees the reordered context. -/
theorem outputReorder_afterCalls (P : Params) (calls : List Call) (ctx : Context α) :
    outputReorder P (afterCalls P calls ctx) = outputReorder P ctx := by
  induction calls generalizing ctx with
  | nil => rfl
  | cons call calls ih =>
    rw [afterCalls, foldl_cons]
    exact (ih (outputReorder P ctx)).trans (outputReorder_outputReorder P ctx)

/-- The data of a buffer after rows of width `w'` were exchanged. -/
theorem exists_reordered (w' : Nat) (swaps : List (Nat × Nat)) {n m : Nat} (hd : v.data = some d)
    (hsize : v.size = w * max n m) :
    ∃ d', (if 0 < v.size then { v with data := v.data.map (swapAllRows w' swaps) } else v).data =
        some d' ∧
      ∀ q < n, ∀ x < w, d' (q * w + x) = d (rowAddr w' (order swaps) (q * w + x)) := by
  split
  · refine ⟨swapAllRows w' swaps d, by simp [hd], fun q _ x _ => swapAllRows_apply ..⟩
  · rename_i h0
    refine ⟨d, hd, fun q hq x hx => absurd ?_ h0⟩
    rw [hsize]
    exact Nat.mul_pos (Nat.zero_lt_of_lt hx) ((Nat.zero_lt_of_lt hq).trans_le (le_max_left n m))

/-- The sources of a batch. -/
structure Noted (b : Allocr E) (cuts : List Cut) (p : Progress) : Prop where
  splits : Splits b cuts p.outIds
  perm : p.outIds.Perm (flagged b)

theorem Ready.noted {inp : Input E} {mode : Mode} {nUbatch : Nat} (hpos : 0 < b.nTokens)
    (h : Ready P inp b mode nUbatch cuts p) : Noted b cuts p :=
  have hsplit := splits_of_splitAll hpos h.split h.used
  ⟨hsplit, hsplit.perm h.outs⟩

/-- The permutation of the rows. -/
def rowOrder (b : Allocr E) (p : Progress) : Nat → Nat :=
  order (selectionSort (noted p) (nOutputsAll b)).2

/-- What is extracted for the token of row `q` of the batch. -/
theorem Noted.stored_eq (h : Noted b cuts p) {mem : Nat → α} {row : Source → Option (Nat → α)}
    (hd : ∀ q x, x < w → d (q * w + x) =
      match (sources b cuts 0)[q]?.bind row with
      | some f => f x
      | none => mem (q * w + x)) {k r x : Nat} (hq : (flagged b)[q]? = some i)
    (hat : StandsAt cuts k r i) (hx : x < w) :
    d (rowAddr w (rowOrder b p) (q * w + x)) =
      match row ⟨k, r, i⟩ with
      | some f => f x
      | none => mem (rowOrder b p q * w + x) := by
  have hs : (⟨k, r, i⟩ : Source) ∈ sources b cuts 0 := by
    obtain ⟨c, hc, hr⟩ := hat
    exact mem_sources.mpr ⟨c, Nat.zero_le k, by simpa using hc, hr,
      (mem_flagged.mp (mem_of_getElem? hq)).2⟩
  rw [rowAddr_row _ _ hx, hd _ x hx, rowOrder,
    sources_order h.splits.outs h.perm hs hq, Option.bind_some]

section

variable {res : Nat → Result α} {memLogits memEmbd : Nat → α}

section

variable (h : Decoded P b cuts p res memLogits memEmbd ctx)
include h

theorem Decoded.mapped (hn : Noted b cuts p) (hroom : ¬ P.nBatch < b.nTokens) :
    Mapped P b (outputReorder P ctx) := by
  refine ⟨Nat.not_lt.mp hroom, h.nOutputs, fun t => ?_⟩
  rw [outputReorder, h.outputIds]
  exact outputIds_eq hn.perm t

theorem Decoded.logits_data (hn : Noted b cuts p) :
    ∃ d, (outputReorder P ctx).logits.data = some d ∧
      ∀ q i k r : Nat, (flagged b)[q]? = some i → StandsAt cuts k r i → ∀ x < P.nVocab,
        d (q * P.nVocab + x) =
          match logitsRow P b cuts res ⟨k, r, i⟩ with
          | some f => f x
          | none => memLogits (rowOrder b p q * P.nVocab + x) := by
  obtain ⟨d₀, hd₀, hrows⟩ := h.logits.data
  obtain ⟨d, hd, hmoved⟩ := exists_reordered P.nVocab ctx.outputSwaps hd₀ h.logits.size
  refine ⟨d, hd, fun q i k r hq hat x hx => ?_⟩
  rw [hmoved q (List.getElem?_eq_some_iff.mp hq).1 x hx, h.outputSwaps]
  exact hn.stored_eq hrows hq hat hx

/-- The embeddings after the exchanges, which are made with the width `n_embd`. -/
theorem Decoded.embd_data (hhas : P.hasEmbd = true) :
    ∃ d d₀ : Nat → α, (outputReorder P ctx).embd.data = some d ∧
      (∀ q x, x < P.nEmbdOut → d₀ (q * P.nEmbdOut + x) =
        match (sources b cuts 0)[q]?.bind (embdRow P res) with
        | some f => f x
        | none => memEmbd (q * P.nEmbdOut + x)) ∧
      ∀ q < nOutputsAll b, ∀ x < P.nEmbdOut,
        d (q * P.nEmbdOut + x) = d₀ (rowAddr P.nEmbd (rowOrder b p) (q * P.nEmbdOut + x)) := by
  obtain ⟨d₀, hd₀, hrows⟩ := (h.embd hhas).data
  obtain ⟨d, hd, hmoved⟩ := exists_reordered P.nEmbd ctx.outputSwaps hd₀ (h.embd hhas).size
  refine ⟨d, d₀, hd, hrows, fun q hq x hx => ?_⟩
  rw [hmoved q hq x hx, h.outputSwaps]
  rfl

end

end

/-- Every ubatch with an output has one in a sequence without a backend sampler. -/
def OutputsUnsampled (samplers : List Int) (b : Allocr E) (cuts : List Cut) : Prop :=
  ∀ c ∈ cuts, (∃ i ∈ c.idxs, b.isOutput i = true) →
    ∃ i ∈ c.idxs, b.isOutput i = true ∧ ∃ s ∈ b.seqs i, s ∉ samplers

/-- The ubatches take the outputs in the order of the batch. -/
def OutputsInOrder (b : Allocr E) (cuts : List Cut) : Prop :=
  ((cuts.flatMap Cut.idxs).filter b.isOutput).Pairwise (· ≤ ·)

theorem needsRawLogits_iff {samplers : List Int} {c : Cut} : needsRawLogits samplers b c = true ↔
    ∃ i ∈ c.idxs, b.isOutput i = true ∧ ∃ s ∈ b.seqs i, s ∉ samplers := by
  simp [needsRawLogits]

/-- There is nothing to exchange exactly if the outputs are in order. -/
theorem Noted.swaps_eq_nil_iff (h : Noted b cuts p) :
    (selectionSort (noted p) (nOutputsAll b)).2 = [] ↔ OutputsInOrder b cuts := by
  have hlen : p.outIds.length = nOutputsAll b := h.perm.length_eq
  rw [selectionSort_swaps_eq_nil_iff, OutputsInOrder, ← h.splits.outs, pairwise_iff_getElem]
  have hget : ∀ k (hk : k < p.outIds.length), p.outIds[k] = noted p k := fun k hk => by
    have hnoted := noted_eq hk
    rwa [getElem?_eq_getElem hk, Option.some.injEq] at hnoted
  constructor
  · intro hle i j hi hj hij
    rw [hget i hi, hget j hj]
    exact hle i j hij (by omega)
  · intro hle i j hij hj
    have hle' := hle i j (by omega) (by omega) hij
    rwa [hget i (by omega), hget j (by omega)] at hle'

section

variable {res : Nat → Result α} {memLogits memEmbd : Nat → α}

section

variable (h : Decoded P b cuts p res memLogits memEmbd ctx) (hn : Noted b cuts p)
  (hroom : ¬ P.nBatch < b.nTokens)
include h hn hroom

/-- The logits are served if they were extracted. -/
theorem Decoded.logits_served (hraw : OutputsUnsampled P.samplers b cuts) :
    Served b cuts P.nVocab (fun k => (res k).logits) (getLogits P ctx) (getLogitsIth P ctx) := by
  obtain ⟨d, hd, hrows⟩ := h.logits_data hn
  refine (h.mapped hn hroom).served hd hn.splits.lt fun q i k r hq hat x hx => ?_
  obtain ⟨c, hc, hr⟩ := hat
  have hneeds : needsRawLogits P.samplers b c = true := needsRawLogits_iff.mpr
    (hraw c (mem_of_getElem? hc) ⟨i, mem_of_getElem? hr, (mem_flagged.mp (mem_of_getElem? hq)).2⟩)
  rw [hrows q i k r hq ⟨c, hc, hr⟩ x hx]
  simp [logitsRow, hc, hneeds]

/-- The embeddings are served if the widths agree or nothing is exchanged. -/
theorem Decoded.embd_served (hemb : P.embeddings = true)
    (hw : P.nEmbd = P.nEmbdOut ∨ OutputsInOrder b cuts) :
    Served b cuts P.nEmbdOut (fun k => (res k).embd) (getEmbeddings P ctx)
      (getEmbeddingsIth P ctx) := by
  obtain ⟨d, d₀, hd, hrows, hmoved⟩ := h.embd_data (by rw [Params.hasEmbd, hemb, Bool.true_or])
  have haddr : ∀ a, rowAddr P.nEmbd (rowOrder b p) a = rowAddr P.nEmbdOut (rowOrder b p) a := by
    intro a
    rcases hw with hw | hin
    · rw [hw]
    · have hid : ∀ w, rowAddr w (rowOrder b p) a = a := fun w => by
        rw [rowOrder, hn.swaps_eq_nil_iff.mpr hin]
        exact Nat.div_add_mod' a w
      rw [hid, hid]
  refine (h.mapped hn hroom).served hd hn.splits.lt fun q i k r hq hat x hx => ?_
  rw [hmoved q (List.getElem?_eq_some_iff.mp hq).1 x hx, haddr, hn.stored_eq hrows hq hat hx,
    embdRow, if_pos hemb]

/-- Without embeddings and without outputs for them, nothing is handed out. -/
theorem Decoded.embd_fails (hoff : P.embeddings = false)
    (hnone : P.t5 = true → nOutputsAll b = 0) (i : Int) : getEmbeddingsIth P ctx i = none := by
  have hm := h.mapped hn hroom
  cases ht : P.t5 with
  | false =>
    have hdata := h.noEmbd (by rw [Params.hasEmbd, hoff, ht, Bool.false_or])
    have hnull : (outputReorder P ctx).embd.data = none := by
      simp only [outputReorder]
      split <;> simp [hdata]
    simp only [getEmbeddingsIth, getIth, hnull]
  | true =>
    have hno : flagged b = [] := length_eq_zero_iff.mp (hnone ht)
    obtain ⟨e, he⟩ : ∃ e, outputResolveRow P (outputReorder P ctx) i = .error e := by
      obtain ⟨j, rfl | rfl⟩ := i.eq_nat_or_neg
      · exact hm.resolve_other (by rw [hno]; exact not_mem_nil)
      · cases j with
        | zero => exact hm.resolve_other (by rw [hno]; exact not_mem_nil)
        | succ j => exact hm.resolve_before (by rw [hnone ht]; exact j.succ_pos)
    simp only [getEmbeddingsIth, getIth, he]
    split <;> rfl

end

end

/-- The embeddings are served, or none are computed and there is nothing to read. -/
def EmbeddingsServed (P : Params) (b : Allocr E) (cuts : List Cut) (res : Nat → Result α)
    (ctx : Context α) : Prop :=
  Served b cuts P.nEmbdOut (fun k => (res k).embd) (getEmbeddings P ctx) (getEmbeddingsIth P ctx) ∨
    P.embeddings = false ∧ ∀ i, getEmbeddingsIth P ctx i = none

/-- Logits that were not extracted are whatever the buffer contained. -/
theorem outputsUnsampled_of_served [Nontrivial α] (hn : Noted b cuts p)
    (hdec : ∀ (res : Nat → Result α) (memLogits memEmbd : Nat → α),
      ∃ ctx, Decoded P b cuts p res memLogits memEmbd ctx ∧
        Served b cuts P.nVocab (fun k => (res k).logits) (getLogits P ctx) (getLogitsIth P ctx))
    (hv : 0 < P.nVocab) : OutputsUnsampled P.samplers b cuts := by
  intro c hc hout
  by_contra hno
  obtain ⟨i, hi, hiout⟩ := hout
  obtain ⟨a, a', hne⟩ := exists_pair_ne α
  obtain ⟨ctx, hctx, hserved⟩ :=
    hdec (fun _ => ⟨fun _ _ => a', fun _ _ => a'⟩) (fun _ => a) fun _ => a
  obtain ⟨k, hk⟩ := mem_iff_getElem?.mp hc
  obtain ⟨r, hr⟩ := mem_iff_getElem?.mp hi
  obtain ⟨q, hq⟩ := mem_iff_getElem?.mp (mem_flagged.mpr ⟨hn.splits.lt c hc i hi, hiout⟩)
  obtain ⟨d, hd, hrows⟩ := hctx.logits_data hn
  obtain ⟨d', hd', hrows'⟩ := hserved.inOrder
  have hdd : d = d' := Option.some.inj (hd.symm.trans hd')
  have h1 := hrows q i k r hq ⟨c, hk, hr⟩ 0 hv
  have hskip : needsRawLogits P.samplers b c = false := by
    rw [Bool.eq_false_iff]
    exact fun hneeds => hno (needsRawLogits_iff.mp hneeds)
  simp only [logitsRow, hk, hskip, Bool.false_eq_true, if_false] at h1
  rw [hdd, hrows' q i k r hq ⟨c, hk, hr⟩ 0 hv] at h1
  exact hne h1.symm

/-- A buffer for embeddings that are not computed keeps what it contained. -/
theorem no_outputs_of_served [Nontrivial α] (hn : Noted b cuts p) (hroom : ¬ P.nBatch < b.nTokens)
    (hdec : ∀ (res : Nat → Result α) (memLogits memEmbd : Nat → α),
      ∃ ctx, Decoded P b cuts p res memLogits memEmbd ctx ∧ EmbeddingsServed P b cuts res ctx)
    (hoff : P.embeddings = false) (ht5 : P.t5 = true) (hw : 0 < P.nEmbdOut) :
    nOutputsAll b = 0 := by
  by_contra hne
  obtain ⟨i, hi⟩ := exists_mem_of_ne_nil _ fun h => hne (length_eq_zero_iff.mpr h)
  obtain ⟨q, hq⟩ := mem_iff_getElem?.mp hi
  obtain ⟨c, hc, hic⟩ := mem_flatMap.mp (hn.splits.covers i (mem_flagged.mp hi).1)
  obtain ⟨k, hk⟩ := mem_iff_getElem?.mp hc
  obtain ⟨r, hr⟩ := mem_iff_getElem?.mp hic
  obtain ⟨a, a', haa⟩ := exists_pair_ne α
  obtain ⟨ctx, hctx, hserved⟩ :=
    hdec (fun _ => ⟨fun _ _ => a', fun _ _ => a'⟩) (fun _ => a) fun _ => a
  obtain ⟨d, d₀, hd, hrows, hmoved⟩ := hctx.embd_data (by rw [Params.hasEmbd, ht5, Bool.or_true])
  rcases hserved with hserved | ⟨-, hnull⟩
  · obtain ⟨d', hd', hrows'⟩ := hserved.inOrder
    have hdd : d = d' := Option.some.inj (hd.symm.trans hd')
    have hwant := hrows' q i k r hq ⟨c, hk, hr⟩ 0 hw
    rw [← hdd, hmoved q (List.getElem?_eq_some_iff.mp hq).1 0 hw,
      ← Nat.div_add_mod' (rowAddr P.nEmbd (rowOrder b p) _) P.nEmbdOut,
      hrows _ _ (Nat.mod_lt _ hw)] at hwant
    have hskip : ∀ o : Option Source, o.bind (embdRow P fun _ : Nat =>
        (⟨fun _ _ => a', fun _ _ => a'⟩ : Result α)) = none := fun o => by
      cases o <;> simp [embdRow, hoff]
    rw [hskip] at hwant
    exact haa hwant
  · have hsome := (hctx.mapped hn hroom).resolve_token hi
    have := hnull i
    simp [getEmbeddingsIth, getIth, hd, hsome] at this

/-- The source that the exchanges bring to row `q`. -/
theorem Noted.source_at (h : Noted b cuts p) (hq : q < nOutputsAll b) :
    ∃ s, (sources b cuts 0)[rowOrder b p q]? = some s ∧ (flagged b)[q]? = some s.token ∧
      StandsAt cuts s.ubatch s.place s.token := by
  have hlen : p.outIds.length = nOutputsAll b := h.perm.length_eq
  have hlt : rowOrder b p q < p.outIds.length := by
    rw [hlen]
    exact order_lt selectionSort_bounds hq
  have hnoted := noted_eq hlt
  rw [h.splits.outs, ← map_token_sources cuts 0, getElem?_map, Option.map_eq_some_iff] at hnoted
  obtain ⟨s, hs, htoken⟩ := hnoted
  refine ⟨s, hs, ?_, ?_⟩
  · rw [flagged_eq_sorted h.perm hq, (selectionSort_sorting _ _).eq, htoken]
    rfl
  · obtain ⟨c, -, hc, hr, -⟩ := mem_sources.mp (mem_of_getElem? hs)
    exact ⟨c, by simpa using hc, hr⟩

theorem Noted.source_inj (h : Noted b cuts p) {j' : Nat} {s : Source}
    (hj : (sources b cuts 0)[j]? = some s) (hj' : (sources b cuts 0)[j']? = some s) : j = j' := by
  have hnodup : ((sources b cuts 0).map Source.token).Nodup := by
    rw [map_token_sources, ← h.splits.outs]
    exact h.perm.nodup_iff.mpr flagged_nodup
  have hlt := (List.getElem?_eq_some_iff.mp hj).1
  refine (getElem?_inj (by simpa using hlt) hnodup).mp ?_
  rw [getElem?_map, getElem?_map, hj, hj']

/-- Rows that are exchanged with another width than they have are not served. -/
theorem width_of_served [Nontrivial α] (hn : Noted b cuts p)
    (hdec : ∀ (res : Nat → Result α) (memLogits memEmbd : Nat → α),
      ∃ ctx, Decoded P b cuts p res memLogits memEmbd ctx ∧
        Served b cuts P.nEmbdOut (fun k => (res k).embd) (getEmbeddings P ctx)
          (getEmbeddingsIth P ctx))
    (hemb : P.embeddings = true) (hpos : 0 < P.nEmbd) (hpos' : 0 < P.nEmbdOut) :
    P.nEmbd = P.nEmbdOut ∨ OutputsInOrder b cuts := by
  by_contra hno
  obtain ⟨hne, hunsorted⟩ := not_or.mp hno
  obtain ⟨i, hi, hmove, hstay⟩ := selectionSort_first fun h => hunsorted (hn.swaps_eq_nil_iff.mp h)
  obtain ⟨q, x, hq, hx, haddr⟩ := exists_rowAddr_ne hpos' hpos (Ne.symm hne) hi hmove hstay
  obtain ⟨s, hs, htoken, hat⟩ := hn.source_at hq
  obtain ⟨a, a', haa⟩ := exists_pair_ne α
  -- a graph with one value that is not `a`, in the row of the source at its column `x`
  let res : Nat → Result α := fun k =>
    { logits := fun _ _ => a
      embd := fun r y => if k = s.ubatch ∧ r = s.place ∧ y = x then a' else a }
  obtain ⟨ctx, hctx, hserved⟩ := hdec res (fun _ => a) fun _ => a
  obtain ⟨d, d₀, hd, hrows, hmoved⟩ := hctx.embd_data (by rw [Params.hasEmbd, hemb, Bool.true_or])
  obtain ⟨d', hd', hrows'⟩ := hserved.inOrder
  have hdd : d = d' := Option.some.inj (hd.symm.trans hd')
  have hwant : d (q * P.nEmbdOut + x) = a' := by
    rw [hdd, hrows' q s.token s.ubatch s.place htoken hat x hx]
    simp [res]
  have hhas : d (q * P.nEmbdOut + x) = a := by
    rw [hmoved q hq x hx, ← Nat.div_add_mod' (rowAddr P.nEmbd (rowOrder b p) _) P.nEmbdOut,
      hrows _ _ (Nat.mod_lt _ hpos')]
    cases hs' : (sources b cuts 0)[rowAddr P.nEmbd (rowOrder b p) (q * P.nEmbdOut + x) /
        P.nEmbdOut]? with
    | none => rfl
    | some s' =>
      rw [Option.bind_some, embdRow, if_pos hemb]
      refine if_neg fun h => haddr ?_
      obtain ⟨hk, hr, hy⟩ := h
      obtain rfl : s' = s := by
        obtain ⟨c, hc, hplace⟩ := hat
        obtain ⟨c', -, hc', hplace', -⟩ := mem_sources.mp (mem_of_getElem? hs')
        rw [Nat.sub_zero, hk, hc] at hc'
        obtain rfl := Option.some.inj hc'
        rw [hr, hplace] at hplace'
        cases s
        cases s'
        simp_all
      have hrow := hn.source_inj hs' hs
      calc rowAddr P.nEmbd (rowOrder b p) (q * P.nEmbdOut + x)
          = rowAddr P.nEmbd (rowOrder b p) (q * P.nEmbdOut + x) / P.nEmbdOut * P.nEmbdOut +
            rowAddr P.nEmbd (rowOrder b p) (q * P.nEmbdOut + x) % P.nEmbdOut :=
            (Nat.div_add_mod' _ _).symm
        _ = rowOrder b p q * P.nEmbdOut + x := by rw [hrow, hy]
        _ = rowAddr P.nEmbdOut (rowOrder b p) (q * P.nEmbdOut + x) := (rowAddr_row _ q hx).symm
  exact haa (hhas.symm.trans hwant)

/-- After a decode that succeeds, outputs are served for every graph and every order of calls
exactly if every ubatch with an output has one in a sequence without a backend sampler, rows of
embeddings are exchanged with the width they have or not at all, and a T5 context that does not
compute embeddings has no outputs. -/
theorem outputs_served_iff [Nontrivial α] {a : Args} {inp : Input E} (hinit : init a inp = some b)
    {mode : Mode} {nUbatch : Nat}
    (hsplit : b.splitAll mode nUbatch (b.nTokens + 1) Progress.reset = some (cuts, p))
    {res₀ : Nat → Result α} {memLogits₀ memEmbd₀ : Nat → α}
    (hok : (decode P inp b mode nUbatch res₀ memLogits₀ memEmbd₀).isSome = true) (hv : 0 < P.nVocab)
    (he : 0 < P.nEmbd) :
    (∀ (res : Nat → Result α) (memLogits memEmbd : Nat → α) (ctx : Context α),
      decode P inp b mode nUbatch res memLogits memEmbd = some ctx → ∀ calls : List Call,
        Served b cuts P.nVocab (fun k => (res k).logits) (getLogits P (afterCalls P calls ctx))
            (getLogitsIth P (afterCalls P calls ctx)) ∧
          EmbeddingsServed P b cuts res (afterCalls P calls ctx)) ↔
      OutputsUnsampled P.samplers b cuts ∧
        (P.embeddings = true → P.nEmbd = P.nEmbdOut ∨ OutputsInOrder b cuts) ∧
        (P.embeddings = false → P.t5 = true → nOutputsAll b = 0) := by
  have hpos := init_pos hinit
  obtain ⟨ctx₀, hctx₀⟩ := Option.isSome_iff_exists.mp hok
  obtain ⟨cuts', p', hready⟩ := ready_of_decode hpos hctx₀
  obtain ⟨rfl, rfl⟩ := Prod.mk.inj (Option.some.inj (hready.split.symm.trans hsplit))
  have hn := hready.noted hpos
  have hout : 0 < P.nEmbdOut := by
    unfold Params.nEmbdOut
    split <;> omega
  constructor
  · intro h
    refine ⟨?_, fun hemb => ?_, fun hoff ht5 => ?_⟩
    · refine outputsUnsampled_of_served (α := α) hn (fun res memLogits memEmbd => ?_) hv
      obtain ⟨ctx, hdec, hdone⟩ := decode_of_ready hpos hready res memLogits memEmbd
      exact ⟨ctx, hdone, (h res memLogits memEmbd ctx hdec []).1⟩
    · refine width_of_served (α := α) hn (fun res memLogits memEmbd => ?_) hemb he hout
      obtain ⟨ctx, hdec, hdone⟩ := decode_of_ready hpos hready res memLogits memEmbd
      refine ⟨ctx, hdone, (h res memLogits memEmbd ctx hdec []).2.resolve_right ?_⟩
      exact fun hoff => absurd (hemb.symm.trans hoff.1) (by decide)
    · refine no_outputs_of_served (α := α) hn hready.room (fun res memLogits memEmbd => ?_) hoff ht5
        hout
      obtain ⟨ctx, hdec, hdone⟩ := decode_of_ready hpos hready res memLogits memEmbd
      exact ⟨ctx, hdone, (h res memLogits memEmbd ctx hdec []).2⟩
  · rintro ⟨hraw, hwidth, hnone⟩ res memLogits memEmbd ctx hdec calls
    obtain ⟨ctx', hdec', hdone⟩ := decode_of_ready hpos hready res memLogits memEmbd
    obtain rfl := Option.some.inj (hdec'.symm.trans hdec)
    have hreorder := outputReorder_afterCalls P calls ctx'
    have hlogits : getLogitsIth P (afterCalls P calls ctx') = getLogitsIth P ctx' := by
      funext i
      rw [getLogitsIth, hreorder, getLogitsIth]
    have hembd : getEmbeddingsIth P (afterCalls P calls ctx') = getEmbeddingsIth P ctx' := by
      funext i
      rw [getEmbeddingsIth, hreorder, getEmbeddingsIth]
    rw [EmbeddingsServed, getLogits, getEmbeddings, hlogits, hembd, hreorder]
    refine ⟨hdone.logits_served hn hready.room hraw, ?_⟩
    cases hemb : P.embeddings with
    | true => exact .inl (hdone.embd_served hn hready.room hemb (hwidth hemb))
    | false => exact .inr ⟨rfl, hdone.embd_fails hn hready.room hemb (hnone hemb)⟩

/-- Three tokens of two sequences: `split_equal` takes the third before the second. -/
def swappedInput : Input Unit := textBatch [[0], [0], [1]] [0, 1, 0]

def swappedBatch : Allocr Unit := fill { plainArgs with outputAll := true } swappedInput

/-- A context with one logit, embeddings of width `nEmbdOut`, an inner width of one and a sampler
for the second sequence. -/
def tinyParams (nEmbdOut : Nat) : Params where
  nVocab := 1
  nEmbd := 1
  nEmbdOutImpl := nEmbdOut
  nBatch := 8
  nSeqMax := 2
  embeddings := true
  t5 := false
  samplers := [1]

/-- Values that tell all rows apart. -/
def tinyResult (k : Nat) : Result Nat :=
  { logits := fun r x => 100 * k + 10 * r + x, embd := fun r x => 100 * k + 10 * r + x }

theorem swapped_init :
    init { plainArgs with outputAll := true } swappedInput = some swappedBatch := by
  rw [init, if_pos (by decide)]
  rfl

theorem swapped_splits :
    ∃ cuts p, cuts.map Cut.idxs = [[0, 2], [1]] ∧
      ∀ n, Ready (tinyParams n) swappedInput swappedBatch (.equal false) 4 cuts p := by
  have hrun : (swappedBatch.splitAll (.equal false) 4 4 Progress.reset).map
      (fun r => (r.1.map Cut.idxs, r.2.nUsed, r.2.outIds.length)) = some ([[0, 2], [1]], 3, 3) := by
    decide
  obtain ⟨⟨cuts, p⟩, hsplit, hr⟩ := Option.map_eq_some_iff.mp hrun
  obtain ⟨hidxs, hused, houts⟩ : cuts.map Cut.idxs = [[0, 2], [1]] ∧ p.nUsed = 3 ∧
      p.outIds.length = 3 := by simpa using hr
  have hn : swappedBatch.nTokens = 3 := rfl
  have hout : nOutputsAll swappedBatch = 3 := by decide
  have hroom : ∀ n, ¬ (tinyParams n).nBatch < 3 := fun n => by simp [tinyParams]
  exact ⟨cuts, p, hidxs, fun n =>
    ⟨rfl, hsplit, by omega, hroom n, fun _ => hout, houts.trans hout.symm⟩⟩

/-- With equal widths the outputs are served. -/
theorem outputs_served_iff_swapped :
    ∃ ctx cuts, decode (tinyParams 1) swappedInput swappedBatch (.equal false) 4 tinyResult
        (fun _ => 0) (fun _ => 0) = some ctx ∧ cuts.map Cut.idxs = [[0, 2], [1]] ∧
      Served swappedBatch cuts 1 (fun k => (tinyResult k).logits) (getLogits (tinyParams 1) ctx)
        (getLogitsIth (tinyParams 1) ctx) ∧
      Served swappedBatch cuts 1 (fun k => (tinyResult k).embd) (getEmbeddings (tinyParams 1) ctx)
        (getEmbeddingsIth (tinyParams 1) ctx) := by
  obtain ⟨cuts, p, hidxs, hready⟩ := swapped_splits
  have hpos : 0 < swappedBatch.nTokens := by decide
  obtain ⟨ctx, hdec, -⟩ := decode_of_ready hpos (hready 1) tinyResult (fun _ => 0) fun _ => 0
  have hok :
    (decode (tinyParams 1) swappedInput swappedBatch (.equal false) 4 tinyResult (fun _ => 0)
      fun _ => 0).isSome = true := by rw [hdec]; rfl
  have hseqs : OutputsUnsampled [1] swappedBatch cuts := by
    intro c hc _
    have hone : ∀ i < 2, swappedBatch.isOutput i = true ∧ ∃ s ∈ swappedBatch.seqs i, s ∉ [1] := by
      decide
    have hmem : c.idxs ∈ [[0, 2], [1]] := hidxs ▸ mem_map_of_mem hc
    rcases mem_pair.mp hmem with he | he
    · exact ⟨0, by simp [he], hone 0 (by decide)⟩
    · exact ⟨1, by simp [he], hone 1 (by decide)⟩
  have hserved := (outputs_served_iff swapped_init (hready 1).split hok Nat.one_pos Nat.one_pos).mpr
    ⟨hseqs, fun _ => .inl rfl, fun h => absurd h (by decide)⟩ tinyResult (fun _ => 0) (fun _ => 0)
    ctx hdec []
  exact ⟨ctx, cuts, hdec, hidxs, hserved.1,
    hserved.2.resolve_right fun hoff => absurd hoff.1 (by decide)⟩

/-- With rows of width two the first token gets half of another token's row. -/
theorem embeddings_mixed_up :
    ∃ cuts p, init { plainArgs with outputAll := true } swappedInput = some swappedBatch ∧
      swappedBatch.splitAll (.equal false) 4 4 Progress.reset = some (cuts, p) ∧
      StandsAt cuts 0 0 0 ∧ swappedBatch.isOutput 0 = true ∧
      (decode (tinyParams 2) swappedInput swappedBatch (.equal false) 4 tinyResult (fun _ => 0)
          fun _ => 0).map (fun ctx => getEmbeddingsIth (tinyParams 2) ctx 0) = some (some [0, 10]) ∧
      (range 2).map ((tinyResult 0).embd 0) = [0, 1] := by
  obtain ⟨cuts, p, hidxs, hready⟩ := swapped_splits
  refine ⟨cuts, p, swapped_init, (hready 2).split, ?_, by decide, by decide, by decide⟩
  cases cuts with
  | nil => cases hidxs
  | cons c cs =>
    obtain ⟨hc, -⟩ := List.cons.inj hidxs
    exact ⟨c, rfl, by rw [hc]; rfl⟩

end Llama.Output
