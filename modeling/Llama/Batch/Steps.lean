import Llama.Batch.Split
import Mathlib.Data.List.Range

/-!
# What one call takes

Each call is described by the indices it takes: a run of consecutive tokens, a chain of tokens
whose sets shrink, or equally many of the first unused tokens of each set that was chosen.
-/

namespace Llama.Batch

open List

variable {E : Type} {b : Allocr E} {p : Progress}

@[simp] theorem Progress.use_used (p : Progress) (i j : Nat) :
    (p.use i).used j = true ↔ j = i ∨ p.used j = true := by
  simp only [Progress.use]
  by_cases h : j = i <;> simp [h]

/-- Use the tokens of a list. -/
def Progress.useAll (p : Progress) (l : List Nat) : Progress := l.foldl Progress.use p

theorem Progress.useAll_cons (p : Progress) (i : Nat) (l : List Nat) :
    p.useAll (i :: l) = (p.use i).useAll l := rfl

@[simp] theorem Progress.useAll_used (p : Progress) (l : List Nat) (j : Nat) :
    (p.useAll l).used j = true ↔ j ∈ l ∨ p.used j = true := by
  induction l generalizing p with
  | nil => simp [Progress.useAll]
  | cons i l ih =>
    rw [Progress.useAll_cons, ih, Progress.use_used, mem_cons]
    tauto

@[simp] theorem Progress.useAll_nUsed (p : Progress) (l : List Nat) :
    (p.useAll l).nUsed = p.nUsed + l.length := by
  induction l generalizing p with
  | nil => rfl
  | cons i l ih =>
    rw [Progress.useAll_cons, ih, length_cons]
    simp only [Progress.use]
    omega

@[simp] theorem Progress.useAll_outIds (p : Progress) (l : List Nat) :
    (p.useAll l).outIds = p.outIds := by
  induction l generalizing p with
  | nil => rfl
  | cons i l ih => rw [Progress.useAll_cons, ih]; rfl

/-- The step took the tokens of the cut: unused ones, each once. -/
structure Takes (b : Allocr E) (p : Progress) (idxs : List Nat) (p' : Progress) : Prop where
  ne_nil : idxs ≠ []
  nodup : idxs.Nodup
  lt : ∀ i ∈ idxs, i < b.nTokens
  unused : ∀ i ∈ idxs, p.used i = false
  used : ∀ i, p'.used i = true ↔ p.used i = true ∨ i ∈ idxs
  count : p'.nUsed = p.nUsed + idxs.length
  outs : p'.outIds = p.outIds ++ idxs.filter b.isOutput

variable {l is : List Nat} {nUbatch cur k i : Nat} {c : Cut} {p' : Progress} {set : Finset Nat}
  {sets : List (Finset Nat)} {sequential : Bool} {last : Int}

theorem takes_useAll (h0 : l ≠ []) (h1 : l.Nodup) (h2 : ∀ i ∈ l, i < b.nTokens)
    (h3 : ∀ i ∈ l, p.used i = false) : Takes b p l (b.addOutputs (p.useAll l) l) where
  ne_nil := h0
  nodup := h1
  lt := h2
  unused := h3
  used i := by simp [Allocr.addOutputs, or_comm]
  count := by simp [Allocr.addOutputs]
  outs := by simp [Allocr.addOutputs]

theorem firstUnused_ge (h : b.nTokens ≤ b.firstUnused p) : ∀ i < b.nTokens, p.used i = true := by
  intro i hi
  by_contra hu
  have hsome : ((range b.nTokens).find? fun i => !p.used i).isSome := by
    rw [find?_isSome]
    exact ⟨i, mem_range.mpr hi, by simpa using hu⟩
  obtain ⟨j, hj⟩ := Option.isSome_iff_exists.mp hsome
  have hlt := mem_range.mp (mem_of_find?_eq_some hj)
  rw [Allocr.firstUnused, hj, Option.getD_some] at h
  omega

theorem firstUnused_spec (h : b.firstUnused p < b.nTokens) :
    p.used (b.firstUnused p) = false ∧ ∀ i < b.firstUnused p, p.used i = true := by
  have hn : b.firstUnused p = ((range b.nTokens).find? fun i => !p.used i).getD b.nTokens := rfl
  cases hf : (range b.nTokens).find? fun i => !p.used i with
  | none =>
    rw [hf, Option.getD_none] at hn
    omega
  | some j =>
    rw [hf, Option.getD_some] at hn
    rw [hn]
    obtain ⟨h1, as, bs, h2, h3⟩ := find?_eq_some_iff_append.mp hf
    refine ⟨by simpa using h1, fun i hi => ?_⟩
    have hlen : as.length = j := by
      have hget : (range b.nTokens)[as.length]? = some j := by
        rw [h2]
        simp
      rw [List.getElem?_eq_some_iff] at hget
      obtain ⟨hl, he⟩ := hget
      simpa using he
    have hmem : i ∈ as := by
      have hget : (range b.nTokens)[i]? = as[i]? := by
        rw [h2, getElem?_append_left (by omega)]
      have hlt : i < b.nTokens := by omega
      rw [getElem?_range hlt] at hget
      exact mem_of_getElem? hget.symm
    simpa using h3 i hmem

theorem simpleLoop_spec (nUbatch : Nat) : ∀ (fuel cur : Nat) (idxs : List Nat) (p : Progress),
    cur < b.nTokens → b.nTokens ≤ cur + fuel → ∃ m, 1 ≤ m ∧ cur + m ≤ b.nTokens ∧
      b.simpleLoop nUbatch fuel cur idxs p = (idxs ++ range' cur m, p.useAll (range' cur m)) := by
  intro fuel
  induction fuel with
  | zero => intro cur idxs p h1 h2; omega
  | succ fuel ih =>
    intro cur idxs p hcur hfuel
    rw [Allocr.simpleLoop]
    split
    · exact ⟨1, le_rfl, by omega, rfl⟩
    · split
      · exact ⟨1, le_rfl, by omega, rfl⟩
      · obtain ⟨m, h1, h2, h3⟩ := ih (cur + 1) (idxs ++ [cur]) (p.use cur) (by omega) (by omega)
        refine ⟨m + 1, by omega, by omega, ?_⟩
        rw [h3, range'_succ, append_assoc]
        rfl

theorem splitSimple_none (h : b.splitSimple nUbatch p = none) :
    ∀ i < b.nTokens, p.used i = true := by
  simp only [Allocr.splitSimple] at h
  split at h
  · rename_i hle
    exact firstUnused_ge hle
  · cases h

/-- `split_simple` takes consecutive tokens from the first unused one on. -/
theorem splitSimple_some (h : b.splitSimple nUbatch p = some (c, p')) :
    ∃ m, 1 ≤ m ∧ b.firstUnused p + m ≤ b.nTokens ∧ c.idxs = range' (b.firstUnused p) m ∧
      p' = b.addOutputs (p.useAll c.idxs) c.idxs := by
  simp only [Allocr.splitSimple] at h
  split at h
  · cases h
  · rename_i hlt
    obtain ⟨m, h1, h2, h3⟩ := simpleLoop_spec (b := b) nUbatch b.nTokens
      (b.firstUnused p) [] p (by omega) (by omega)
    rw [h3] at h
    cases h
    exact ⟨m, h1, h2, rfl, rfl⟩

/-- The next token of a chain: unused, later, with a set inside the last one, and no such token
is passed over. -/
structure NextInside (b : Allocr E) (p : Progress) (i k : Nat) : Prop where
  lt : i < k
  lt_nTokens : k < b.nTokens
  unused : p.used k = false
  subset : b.seqSet k ⊆ b.seqSet i
  between : ∀ j, i < j → j < k → p.used j = false → ¬ b.seqSet j ⊆ b.seqSet i

theorem nextInside_eq_none (hcur : cur < b.nTokens) :
    b.nextInside p (b.seqSet cur) (range' (cur + 1) (b.nTokens - (cur + 1))) = none ↔
      ∀ j, cur < j → j < b.nTokens → p.used j = false → ¬ b.seqSet j ⊆ b.seqSet cur := by
  simp only [Allocr.nextInside, find?_eq_none, mem_range'_1, Bool.and_eq_true,
    Bool.not_eq_true', decide_eq_true_eq, Finset.inter_eq_right, not_and]
  constructor
  · intro h j h1 h2 h3
    exact h j ⟨by omega, by omega⟩ h3
  · intro h j hj h3
    exact h j (by omega) (by omega) h3

theorem nextInside_eq_some (hcur : cur < b.nTokens)
    (h : b.nextInside p (b.seqSet cur) (range' (cur + 1) (b.nTokens - (cur + 1))) = some k) :
    NextInside b p cur k := by
  have hk := mem_range'_1.mp (mem_of_find?_eq_some h)
  obtain ⟨h1, as, bs, h2, h3⟩ := find?_eq_some_iff_append.mp h
  simp only [Bool.and_eq_true, Bool.not_eq_true', decide_eq_true_eq, Finset.inter_eq_right] at h1
  refine ⟨by omega, by omega, h1.1, h1.2, fun j hj1 hj2 hj3 hsub => ?_⟩
  have hmem : j ∈ as := by
    have hj : j ∈ range' (cur + 1) (b.nTokens - (cur + 1)) := mem_range'_1.mpr ⟨by omega, by omega⟩
    rw [h2] at hj
    rcases mem_append.mp hj with hj | hj
    · exact hj
    · have hsorted : (k :: bs).Pairwise (· < ·) := by
        have := pairwise_lt_range' (s := cur + 1) (n := b.nTokens - (cur + 1))
        rw [h2] at this
        exact (pairwise_append.mp this).2.1
      rcases mem_cons.mp hj with rfl | hj
      · omega
      · have := rel_of_pairwise_cons hsorted hj
        omega
  have := h3 j hmem
  simp [hj3, Finset.inter_eq_right.mpr hsub] at this

/-- Tokens up to the current one do not matter for the next. -/
theorem NextInside.of_use {c : Nat} (h : NextInside b (p.use c) i k) (hc : c ≤ i) :
    NextInside b p i k := by
  have hused : ∀ j, i < j → ((p.use c).used j = false ↔ p.used j = false) := by
    intro j hj
    have hne : j ≠ c := by omega
    simp [Progress.use, hne]
  exact ⟨h.lt, h.lt_nTokens, (hused k h.lt).mp h.unused, h.subset,
    fun j h1 h2 h3 => h.between j h1 h2 ((hused j h1).mpr h3)⟩

theorem NextInside.pairwise_lt (h : l.IsChain (NextInside b p)) : l.Pairwise (· < ·) :=
  isChain_iff_pairwise.mp (h.imp fun _ _ h => h.lt)

/-- No token is left that could follow the last one. -/
def NoNext (b : Allocr E) (p : Progress) (i : Nat) : Prop :=
  ∀ j, i < j → j < b.nTokens → p.used j = false → ¬ b.seqSet j ⊆ b.seqSet i

theorem seqLoop_spec (nUbatch : Nat) : ∀ (fuel cur : Nat) (idxs : List Nat) (p : Progress),
    cur < b.nTokens → b.nTokens ≤ cur + fuel → ∃ l,
      b.seqLoop nUbatch fuel cur idxs p = (idxs ++ cur :: l, p.useAll (cur :: l)) ∧
      (cur :: l).IsChain (NextInside b p) ∧
      ((idxs ++ cur :: l).length < nUbatch → NoNext b p ((cur :: l).getLast (by simp))) := by
  intro fuel
  induction fuel with
  | zero => intro cur idxs p h1 h2; omega
  | succ fuel ih =>
    intro cur idxs p hcur hfuel
    have hused : ∀ j, cur < j → ((p.use cur).used j = false ↔ p.used j = false) := by
      intro j hj
      have hne : j ≠ cur := by omega
      simp [Progress.use, hne]
    rw [Allocr.seqLoop]
    split
    · rename_i hn
      refine ⟨[], rfl, isChain_singleton _, fun hlt => ?_⟩
      omega
    · cases hnext : b.nextInside (p.use cur) (b.seqSet cur)
          (range' (cur + 1) (b.nTokens - (cur + 1))) with
      | none =>
        refine ⟨[], rfl, isChain_singleton _, fun _ j h1 h2 h3 => ?_⟩
        exact (nextInside_eq_none hcur).mp hnext j h1 h2 ((hused j h1).mpr h3)
      | some k =>
        have hk := nextInside_eq_some hcur hnext
        obtain ⟨l, h1, h2, h3⟩ := ih k (idxs ++ [cur]) (p.use cur) hk.lt_nTokens
          (by have := hk.lt; omega)
        have hsorted := NextInside.pairwise_lt h2
        have hge : ∀ x ∈ k :: l, cur < x := by
          intro x hx
          rcases mem_cons.mp hx with rfl | hx
          · exact hk.lt
          · exact lt_trans hk.lt (rel_of_pairwise_cons hsorted hx)
        refine ⟨k :: l, ?_, ?_, fun hlen => ?_⟩
        · simp only [h1, append_assoc]
          rfl
        · refine isChain_cons_cons.mpr ⟨hk.of_use le_rfl, ?_⟩
          refine h2.imp_of_mem_imp fun x y hx _ hxy => hxy.of_use (hge x hx).le
        · have hlast := h3 (by simpa using hlen)
          rw [getLast_cons (by simp)]
          intro j hj1 hj2 hj3
          have hmem := hge _ (getLast_mem (l := k :: l) (by simp))
          exact hlast j hj1 hj2 ((hused j (by omega)).mpr hj3)

theorem splitSeq_none (h : b.splitSeq nUbatch p = none) : ∀ i < b.nTokens, p.used i = true := by
  simp only [Allocr.splitSeq] at h
  split at h
  · rename_i hle
    exact firstUnused_ge hle
  · cases h

/-- `split_seq` takes a chain from the first unused token on. -/
theorem splitSeq_some (h : b.splitSeq nUbatch p = some (c, p')) :
    b.firstUnused p < b.nTokens ∧ ∃ l, c.idxs = b.firstUnused p :: l ∧
      c.idxs.IsChain (NextInside b p) ∧
      (c.idxs.length < nUbatch → ∀ i, c.idxs.getLast? = some i → NoNext b p i) ∧
      p' = b.addOutputs (p.useAll c.idxs) c.idxs := by
  simp only [Allocr.splitSeq] at h
  split at h
  · cases h
  · rename_i hlt
    obtain ⟨l, h1, h2, h3⟩ := seqLoop_spec (b := b) nUbatch b.nTokens
      (b.firstUnused p) [] p (by omega) (by omega)
    rw [h1] at h
    cases h
    refine ⟨by omega, l, rfl, h2, fun hlen i hi => ?_, rfl⟩
    have hlast : (b.firstUnused p :: l).getLast (by simp) = i := by
      rw [nil_append, getLast?_eq_some_getLast (by simp)] at hi
      exact Option.some.inj hi
    rw [← hlast]
    exact h3 hlen

/-- The tokens of a set from its first unused one on. -/
def Allocr.laneRest (b : Allocr E) (p : Progress) (set : Finset Nat) : List Nat :=
  (b.seqSetMap set).drop (b.lane p set).cur

/-- The lanes after `k` turns. -/
def Allocr.laneAt (b : Allocr E) (p : Progress) (k : Nat) (set : Finset Nat) : Lane :=
  { set := set, cur := (b.lane p set).cur + k, idxs := (b.laneRest p set).take k }

theorem map_lane (sets : List (Finset Nat)) : sets.map (b.lane p) = sets.map (b.laneAt p 0) :=
  map_congr_left fun set _ => by simp [Allocr.laneAt, Allocr.lane]

theorem laneOpen_laneAt (k : Nat) (set : Finset Nat) :
    b.laneOpen (b.laneAt p k set) = true ↔ k < (b.laneRest p set).length := by
  rw [Allocr.laneOpen, decide_eq_true_iff, Allocr.laneRest, length_drop]
  simp only [Allocr.laneAt]
  omega

theorem laneRest_length_le (set : Finset Nat) : (b.laneRest p set).length ≤ b.nTokens := by
  have hfilter : (b.seqSetMap set).length ≤ b.nTokens := by
    have h := length_filter_le (fun i => decide (b.seqSet i = set)) (range b.nTokens)
    rwa [length_range] at h
  rw [Allocr.laneRest, length_drop]
  omega

theorem laneToken_laneAt (h : k < (b.laneRest p set).length) :
    b.laneToken (b.laneAt p k set) = (b.laneRest p set)[k] := by
  simp only [Allocr.laneToken, Allocr.laneAt, Allocr.laneRest, getElem_drop]
  rw [Allocr.laneRest, length_drop] at h
  rw [getD_eq_getElem?_getD, getElem?_eq_getElem (by omega), Option.getD_some]

theorem laneStep_laneAt (h : k < (b.laneRest p set).length) :
    b.laneStep (b.laneAt p k set) = b.laneAt p (k + 1) set := by
  rw [Allocr.laneStep, laneToken_laneAt h]
  simp only [Allocr.laneAt, take_add_one, getElem?_eq_getElem h, Option.toList_some]
  congr 1

/-- The first lane has taken as many tokens as there were turns. -/
theorem head_taken (hne : sets ≠ []) (hle : ∀ set ∈ sets, k ≤ (b.laneRest p set).length) :
    ((sets.map (b.laneAt p k)).head?.map fun l => l.idxs.length).getD 0 = k := by
  obtain ⟨set, rest, rfl⟩ := exists_cons_of_ne_nil hne
  exact length_take_of_le (hle set mem_cons_self)

/-- The tokens that the sets have given after `k` turns. -/
def Allocr.turns (b : Allocr E) (p : Progress) (sets : List (Finset Nat)) (k : Nat) : List Nat :=
  sets.flatMap fun set => (b.laneRest p set).take k

/-- A state with the tokens of the first `k` turns used. -/
structure AfterTurns (b : Allocr E) (p : Progress) (sets : List (Finset Nat)) (k : Nat)
    (q : Progress) : Prop where
  used : ∀ i, q.used i = true ↔ p.used i = true ∨ i ∈ b.turns p sets k
  count : q.nUsed = p.nUsed + k * sets.length
  outs : q.outIds = p.outIds

theorem AfterTurns.step {q : Progress} (h : AfterTurns b p sets k q)
    (hopen : ∀ set ∈ sets, k < (b.laneRest p set).length) :
    AfterTurns b p sets (k + 1)
      ((sets.map (b.laneAt p k)).foldl (fun q l => q.use (b.laneToken l)) q) := by
  have hfold : (sets.map (b.laneAt p k)).foldl (fun q l => q.use (b.laneToken l)) q =
      q.useAll ((sets.map (b.laneAt p k)).map b.laneToken) := by
    simp only [Progress.useAll, foldl_map]
  rw [hfold]
  refine ⟨fun i => ?_, ?_, ?_⟩
  · rw [Progress.useAll_used, h.used i]
    have hturn : i ∈ b.turns p sets (k + 1) ↔
        i ∈ (sets.map (b.laneAt p k)).map b.laneToken ∨ i ∈ b.turns p sets k := by
      simp only [Allocr.turns, map_map, mem_map, mem_flatMap, Function.comp_apply]
      constructor
      · rintro ⟨set, hset, hi⟩
        rw [take_add_one, mem_append, getElem?_eq_getElem (hopen set hset),
          Option.toList_some, mem_singleton] at hi
        rcases hi with hi | hi
        · exact .inr ⟨set, hset, hi⟩
        · exact .inl ⟨set, hset, by rw [laneToken_laneAt (hopen set hset), hi]⟩
      · rintro (⟨set, hset, hi⟩ | ⟨set, hset, hi⟩)
        · refine ⟨set, hset, ?_⟩
          rw [laneToken_laneAt (hopen set hset)] at hi
          rw [take_add_one, getElem?_eq_getElem (hopen set hset), Option.toList_some, hi]
          simp
        · refine ⟨set, hset, ?_⟩
          rw [take_add_one]
          exact mem_append_left _ hi
    rw [hturn]
    tauto
  · rw [Progress.useAll_nUsed, h.count]
    rw [length_map, length_map, Nat.succ_mul, Nat.add_assoc]
  · rw [Progress.useAll_outIds, h.outs]

/-- Equally many tokens are taken of every set, at least one more if each has one more, and no
more than the ubatch holds unless it is the first one. The loop ends because a set has no more or
because the ubatch is full. The number of turns never exceeds the number of tokens. -/
theorem expandLoop_spec (nUbatch : Nat) (hne : sets ≠ []) :
    ∀ (fuel k : Nat) (q : Progress), b.nTokens < k + fuel → AfterTurns b p sets k q →
    (∀ set ∈ sets, k ≤ (b.laneRest p set).length) →
    ∃ m q', k ≤ m ∧ (∀ set ∈ sets, m ≤ (b.laneRest p set).length) ∧
      ((∀ set ∈ sets, k < (b.laneRest p set).length) → k < m) ∧
      (m ≤ k + 1 ∨ m * sets.length ≤ nUbatch) ∧
      ((∃ set ∈ sets, (b.laneRest p set).length = m) ∨ nUbatch < (m + 1) * sets.length) ∧
      AfterTurns b p sets m q' ∧
      b.expandLoop nUbatch fuel (sets.map (b.laneAt p k)) q = (sets.map (b.laneAt p m), q') := by
  intro fuel
  induction fuel with
  | zero =>
    intro k q hfuel hq hle
    obtain ⟨set, hset⟩ := exists_mem_of_ne_nil sets hne
    have := le_trans (hle set hset) (laneRest_length_le set)
    omega
  | succ fuel ih =>
    intro k q hfuel hq hle
    rw [Allocr.expandLoop]
    split
    · rename_i hopen
      have hopen' : ∀ set ∈ sets, k < (b.laneRest p set).length := by
        intro set hset
        rw [all_eq_true] at hopen
        exact (laneOpen_laneAt k set).mp (hopen _ (mem_map_of_mem hset))
      have hmap : (sets.map (b.laneAt p k)).map b.laneStep = sets.map (b.laneAt p (k + 1)) := by
        rw [map_map]
        exact map_congr_left fun set hset => laneStep_laneAt (hopen' set hset)
      have hstep := hq.step hopen'
      simp only [hmap, head_taken hne hopen', length_map]
      split
      · rename_i hfull
        exact ⟨k + 1, _, by omega, hopen', fun _ => by omega, .inl le_rfl, .inr hfull, hstep, rfl⟩
      · rename_i hroom
        obtain ⟨m, q', h1, h2, -, h3, h4, h5, h6⟩ := ih (k + 1) _ (by omega) hstep hopen'
        refine ⟨m, q', by omega, h2, fun _ => by omega, .inr ?_, h4, h5, h6⟩
        rcases h3 with h3 | h3
        · exact (Nat.mul_le_mul_right _ h3).trans (not_lt.mp hroom)
        · exact h3
    · rename_i hopen
      have hshort : ∃ set ∈ sets, ¬ k < (b.laneRest p set).length := by
        by_contra hall
        push Not at hall
        refine hopen (all_eq_true.mpr fun l hl => ?_)
        obtain ⟨set, hset, rfl⟩ := mem_map.mp hl
        exact (laneOpen_laneAt k set).mpr (hall set hset)
      obtain ⟨set, hset, hlt⟩ := hshort
      have := hle set hset
      exact ⟨k, q, le_rfl, hle, fun hall => (hlt (hall set hset)).elim, .inl (Nat.le_succ k),
        .inl ⟨set, hset, by omega⟩, hq, rfl⟩

theorem laneRest_ne_nil (hi : i < b.nTokens) (hu : p.used i = false) :
    0 < (b.laneRest p (b.seqSet i)).length := by
  rw [Allocr.laneRest, length_drop]
  have hmem : i ∈ b.seqSetMap (b.seqSet i) := by simp [Allocr.seqSetMap, hi]
  have hlt : (b.lane p (b.seqSet i)).cur < (b.seqSetMap (b.seqSet i)).length :=
    findIdx_lt_length_of_exists ⟨i, hmem, by simp [hu]⟩
  omega

/-- What the loop over the tokens knows when it has seen the tokens before `k`: the sets of the
tokens `is` were chosen. -/
structure Chosen (b : Allocr E) (p : Progress) (sequential : Bool) (k : Nat) (is : List Nat) :
    Prop where
  /-- The tokens are in order. -/
  sorted : is.Pairwise (· < ·)
  /-- They have been seen. -/
  lt : ∀ i ∈ is, i < k
  unused : ∀ i ∈ is, p.used i = false
  /-- Their sets do not overlap. -/
  apart : is.Pairwise fun i j => b.seqSet i ∩ b.seqSet j = ∅
  /-- Another unused token was left out because of an overlap. -/
  seen : sequential = false → ∀ a < k, p.used a = false →
    ∃ x ∈ is, x ≤ a ∧ (x = a ∨ b.seqSet x ∩ b.seqSet a ≠ ∅)

theorem Chosen.skip (h : Chosen b p sequential k is)
    (hk : sequential = false → p.used k = false → ∃ x ∈ is, b.seqSet x ∩ b.seqSet k ≠ ∅) :
    Chosen b p sequential (k + 1) is := by
  refine ⟨h.sorted, fun i hi => Nat.lt_succ_of_lt (h.lt i hi), h.unused, h.apart, ?_⟩
  intro hs a ha hu
  rcases Nat.lt_succ_iff_lt_or_eq.mp ha with ha | rfl
  · exact h.seen hs a ha hu
  · obtain ⟨x, hx, hne⟩ := hk hs hu
    exact ⟨x, hx, (h.lt x hx).le, .inr hne⟩

theorem Chosen.join (h : Chosen b p sequential k is) (hu : p.used k = false)
    (hj : ∀ i ∈ is, b.seqSet i ∩ b.seqSet k = ∅) : Chosen b p sequential (k + 1) (is ++ [k]) := by
  refine ⟨?_, ?_, ?_, ?_, ?_⟩
  · exact pairwise_append.mpr ⟨h.sorted, by simp, fun i hi j hj => by
      rw [mem_singleton.mp hj]
      exact h.lt i hi⟩
  · intro i hi
    rcases mem_append.mp hi with hi | hi
    · exact Nat.lt_succ_of_lt (h.lt i hi)
    · rw [mem_singleton.mp hi]
      exact Nat.lt_succ_self k
  · intro i hi
    rcases mem_append.mp hi with hi | hi
    · exact h.unused i hi
    · rw [mem_singleton.mp hi]
      exact hu
  · exact pairwise_append.mpr ⟨h.apart, by simp, fun i hi j hk => by
      rw [mem_singleton.mp hk]
      exact hj i hi⟩
  · intro hs a ha hua
    rcases Nat.lt_succ_iff_lt_or_eq.mp ha with ha | rfl
    · obtain ⟨x, hx, hle⟩ := h.seen hs a ha hua
      exact ⟨x, mem_append_left _ hx, hle⟩
    · exact ⟨a, by simp, le_rfl, .inl rfl⟩

theorem joins_apart (hj : b.joins sequential (is.map b.seqSet) last k = true) :
    ∀ i ∈ is, b.seqSet i ∩ b.seqSet k = ∅ := by
  simpa [all_eq_true] using (Bool.and_eq_true_iff.mp hj).1

/-- Without the order of sequence ids, a set is left out only for an overlap. -/
theorem overlap_of_not_joins (hj : ¬ b.joins false (is.map b.seqSet) last k = true) :
    ∃ x ∈ is, b.seqSet x ∩ b.seqSet k ≠ ∅ := by
  by_contra hn
  push Not at hn
  apply hj
  simpa [Allocr.joins, all_eq_true] using hn

/-- The choice of the sets keeps what holds when a token is passed over and when its set is
added. -/
theorem chooseSets_invariant {I : Nat → List Nat → Int → Prop} (nUbatch : Nat) (sequential : Bool)
    (hskip : ∀ k is last, k < b.nTokens → I k is last →
      p.used k = true ∨ ¬ b.joins sequential (is.map b.seqSet) last k = true → I (k + 1) is last)
    (hjoin : ∀ k is last, k < b.nTokens → I k is last → p.used k = false →
      b.joins sequential (is.map b.seqSet) last k = true → I (k + 1) (is ++ [k]) (b.seqId k 0))
    (n : Nat) : ∀ (k : Nat) (is : List Nat) (last : Int), k + n = b.nTokens → I k is last →
    ∃ k' is' last', k' ≤ b.nTokens ∧ I k' is' last' ∧
      b.chooseSets p nUbatch sequential (range' k n) (is.map b.seqSet) last =
        is'.map b.seqSet ∧ (is'.length ≤ nUbatch → k' = b.nTokens) := by
  induction n with
  | zero => exact fun k is last hk h => ⟨k, is, last, by omega, h, rfl, fun _ => hk⟩
  | succ n ih =>
    intro k is last hk h
    rw [range'_succ, Allocr.chooseSets]
    split
    · rename_i hused
      exact ih (k + 1) is last (by omega) (hskip k is last (by omega) h (.inl hused))
    · rename_i hused
      split
      · rename_i hj
        have hadd := hjoin k is last (by omega) h (by simpa using hused) hj
        have hmap : is.map b.seqSet ++ [b.seqSet k] = (is ++ [k]).map b.seqSet := by simp
        rw [hmap]
        split
        · rename_i hbreak
          refine ⟨k + 1, is ++ [k], _, by omega, hadd, rfl, fun hle => ?_⟩
          rw [length_map] at hbreak
          omega
        · exact ih (k + 1) (is ++ [k]) (b.seqId k 0) (by omega) hadd
      · rename_i hj
        exact ih (k + 1) is last (by omega) (hskip k is last (by omega) h (.inr hj))

theorem chooseSets_chosen (nUbatch : Nat) (sequential : Bool) (n k : Nat) (is : List Nat)
    (last : Int) (hk : k + n = b.nTokens) (h : Chosen b p sequential k is) :
    ∃ k' is', k' ≤ b.nTokens ∧ Chosen b p sequential k' is' ∧
      b.chooseSets p nUbatch sequential (range' k n) (is.map b.seqSet) last =
        is'.map b.seqSet ∧ (is'.length ≤ nUbatch → k' = b.nTokens) := by
  obtain ⟨k', is', -, hspec⟩ := chooseSets_invariant (p := p)
    (I := fun k is _ => Chosen b p sequential k is) nUbatch sequential
    (fun k is last _ h hno => h.skip fun hs hu => by
      subst hs
      exact overlap_of_not_joins (hno.resolve_left (by simp [hu])))
    (fun k is last _ h hu hj => h.join hu (joins_apart hj)) n k is last hk h
  exact ⟨k', is', hspec⟩

/-- No more tokens are chosen than there are. -/
theorem Chosen.length_le {sequential : Bool} {k : Nat} {is : List Nat}
    (h : Chosen b p sequential k is) : is.length ≤ k := by
  have hsub : is ⊆ range k := fun i hi => mem_range.mpr (h.lt i hi)
  have hle := (subperm_of_subset (h.sorted.imp fun hlt => ne_of_lt hlt) hsub).length_le
  rwa [length_range] at hle

theorem chooseSets_keeps (l : List Nat) :
    ∀ (sets : List (Finset Nat)) (last : Int),
    sets <+: b.chooseSets p nUbatch sequential l sets last := by
  induction l with
  | nil => intro sets last; exact prefix_rfl
  | cons i l ih =>
    intro sets last
    rw [Allocr.chooseSets]
    split
    · exact ih sets last
    · split
      · split
        · exact prefix_append _ _
        · exact (prefix_append _ _).trans (ih _ _)
      · exact ih sets last

theorem chooseSets_ne_nil (hi : i ∈ l) (hu : p.used i = false) (last : Int) :
    b.chooseSets p nUbatch sequential l [] last ≠ [] := by
  induction l with
  | nil => simp at hi
  | cons k l ih =>
    rw [Allocr.chooseSets]
    split
    · rename_i hk
      refine ih ?_
      rcases mem_cons.mp hi with rfl | hi
      · rw [hu] at hk
        cases hk
      · exact hi
    · have hj : b.joins sequential [] last k = true := by simp [Allocr.joins]
      rw [if_pos hj]
      split
      · simp
      · exact List.IsPrefix.ne_nil (chooseSets_keeps l _ _) (by simp)

theorem splitEqual_none (hseq : sequential = true → b.hasCpl = false)
    (h : b.splitEqual nUbatch sequential p = none) : ∀ i < b.nTokens, p.used i = true := by
  intro i hi
  by_contra hu
  have hcpl : (sequential && b.hasCpl) = false := by
    cases sequential with
    | false => rfl
    | true => simpa using hseq rfl
  simp only [Allocr.splitEqual, hcpl, Bool.false_eq_true, if_false] at h
  rw [if_neg (chooseSets_ne_nil (mem_range.mpr hi) (by simpa using hu) _)] at h
  cases h

/-- `split_equal` takes equally many of the first unused tokens of each chosen set. -/
theorem splitEqual_some (h : b.splitEqual nUbatch sequential p = some (c, p')) :
    ∃ k is m q, k ≤ b.nTokens ∧ Chosen b p sequential k is ∧ is ≠ [] ∧
      (b.nTokens ≤ nUbatch → k = b.nTokens) ∧ 0 < m ∧
      (∀ i ∈ is, m ≤ (b.laneRest p (b.seqSet i)).length) ∧
      c.idxs = b.turns p (is.map b.seqSet) m ∧ (c.nSeqs = is.length ∧ c.equalSeqs = true) ∧
      AfterTurns b p (is.map b.seqSet) m q ∧ p' = b.addOutputs q c.idxs := by
  simp only [Allocr.splitEqual] at h
  split at h
  · cases h
  · split at h
    · cases h
    · rename_i hne
      obtain ⟨k, is, hk, hchosen, hs, hall⟩ := chooseSets_chosen (b := b) (p := p)
        nUbatch sequential b.nTokens 0 [] (-1) (by omega)
        ⟨List.Pairwise.nil, by simp, by simp, List.Pairwise.nil, fun _ a ha => (by omega)⟩
      rw [← range_eq_range', map_nil] at hs
      rw [hs] at h hne
      have hopen : ∀ set ∈ is.map b.seqSet, 0 < (b.laneRest p set).length := by
        intro set hset
        obtain ⟨i, hi, rfl⟩ := mem_map.mp hset
        exact laneRest_ne_nil (lt_of_lt_of_le (hchosen.lt i hi) hk) (hchosen.unused i hi)
      obtain ⟨m, q, h1, h2, h3, -, -, h4, h5⟩ := expandLoop_spec (b := b) (p := p) nUbatch
        hne (b.nTokens + 1) 0 p (by omega) ⟨fun i => by simp [Allocr.turns], by simp, rfl⟩
        fun set _ => Nat.zero_le _
      rw [map_lane, h5] at h
      cases h
      refine ⟨k, is, m, q, hk, hchosen, by simpa using hne,
        fun hle => hall ((hchosen.length_le.trans hk).trans hle),
        h3 hopen, fun i hi => h2 _ (mem_map_of_mem hi), ?_, ⟨by simp, rfl⟩, h4, ?_⟩
      · simp only [flatMap_map, Allocr.turns, Allocr.laneAt]
      · rfl

/-- The unused tokens of a set. -/
def Allocr.remaining (b : Allocr E) (p : Progress) (set : Finset Nat) : List Nat :=
  (b.seqSetMap set).filter fun i => !p.used i

theorem mem_remaining :
    i ∈ b.remaining p set ↔ i < b.nTokens ∧ b.seqSet i = set ∧ p.used i = false := by
  simp only [Allocr.remaining, Allocr.seqSetMap, mem_filter, mem_range,
    decide_eq_true_eq, Bool.not_eq_true', and_assoc]

theorem remaining_sorted (set : Finset Nat) : (b.remaining p set).Pairwise (· < ·) :=
  (pairwise_lt_range.filter _).filter _

/-- Where used elements stand before unused ones, dropping the first ones drops the used ones. -/
theorem drop_findIdx_eq_filter {u : Nat → Bool}
    (h : l.Pairwise fun i j => u j = true → u i = true) :
    l.drop (l.findIdx fun i => !u i) = l.filter fun i => !u i := by
  induction l with
  | nil => rfl
  | cons x l ih =>
    rw [pairwise_cons] at h
    cases hx : u x with
    | true => simp [findIdx_cons, hx, ih h.2]
    | false =>
      have hall : ∀ j ∈ l, (!u j) = true := by
        intro j hj
        cases hu : u j with
        | false => rfl
        | true =>
          rw [h.1 j hj hu] at hx
          cases hx
      simp [findIdx_cons, hx, filter_eq_self.mpr hall]

/-- Tokens of one set are used in order. -/
def UsedInOrder (b : Allocr E) (p : Progress) : Prop :=
  ∀ i j, i < j → j < b.nTokens → b.seqSet i = b.seqSet j → p.used j = true → p.used i = true

theorem laneRest_eq_remaining (h : UsedInOrder b p) (set : Finset Nat) :
    b.laneRest p set = b.remaining p set := by
  refine drop_findIdx_eq_filter ?_
  refine (pairwise_lt_range.filter _).imp_of_mem fun {i j} hi hj hlt hu => ?_
  have hi' := of_decide_eq_true (mem_filter.mp hi).2
  have hj' := of_decide_eq_true (mem_filter.mp hj).2
  exact h i j hlt (mem_range.mp (mem_filter.mp hj).1) (hi'.trans hj'.symm) hu

end Llama.Batch
