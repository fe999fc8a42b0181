import Llama.Batch.Checks

/-!
# The size of an ubatch

`split_simple` and `split_seq` stop at the size they are given. `split_equal` first chooses
sequence sets and then takes a token of each: it stops choosing when there is one set too many,
so with `nUbatch + 1` sets that can go together the ubatch has one token too many.
-/

namespace Llama.Batch

open List

variable {E : Type} {b : Allocr E} {p : Progress}

variable {nUbatch x k : Nat} {c : Cut} {p' : Progress} {sequential : Bool} {ds is : List Nat}
  {last : Int}

/-- A loop that takes one token a turn and goes on only below the size. -/
theorem takingLoop_length {loop : Nat → Nat → List Nat → Progress → List Nat × Progress}
    (hzero : ∀ cur idxs p, (loop 0 cur idxs p).1 = idxs)
    (hturn : ∀ fuel cur idxs p, (loop (fuel + 1) cur idxs p).1 = idxs ++ [cur] ∨
      (idxs ++ [cur]).length < nUbatch ∧
        ∃ next p', loop (fuel + 1) cur idxs p = loop fuel next (idxs ++ [cur]) p') :
    ∀ (fuel cur : Nat) (idxs : List Nat) (p : Progress), idxs.length < nUbatch →
      (loop fuel cur idxs p).1.length ≤ nUbatch := by
  intro fuel
  induction fuel with
  | zero =>
    intro cur idxs p h
    rw [hzero]
    exact le_of_lt h
  | succ fuel ih =>
    intro cur idxs p h
    rcases hturn fuel cur idxs p with hstop | ⟨hroom, next, p', hgo⟩
    · rw [hstop, length_append, length_singleton]
      exact h
    · rw [hgo]
      exact ih next (idxs ++ [cur]) p' hroom

theorem simpleLoop_length : ∀ (fuel cur : Nat)
    (idxs : List Nat) (p : Progress), idxs.length < nUbatch →
    (b.simpleLoop nUbatch fuel cur idxs p).1.length ≤ nUbatch := by
  refine takingLoop_length (fun _ _ _ => rfl) fun fuel cur idxs p => ?_
  rw [Allocr.simpleLoop]
  split
  · exact .inl rfl
  · split
    · exact .inl rfl
    · exact .inr ⟨by omega, cur + 1, p.use cur, rfl⟩

theorem splitSimple_length (hn : 1 ≤ nUbatch) (h : b.splitSimple nUbatch p = some (c, p')) :
    c.idxs.length ≤ nUbatch := by
  simp only [Allocr.splitSimple] at h
  split at h
  · cases h
  · cases h
    exact simpleLoop_length _ _ _ _ hn

theorem seqLoop_length : ∀ (fuel cur : Nat)
    (idxs : List Nat) (p : Progress), idxs.length < nUbatch →
    (b.seqLoop nUbatch fuel cur idxs p).1.length ≤ nUbatch := by
  refine takingLoop_length (fun _ _ _ => rfl) fun fuel cur idxs p => ?_
  rw [Allocr.seqLoop]
  split
  · exact .inl rfl
  · split
    · exact .inl rfl
    · rename_i next _
      exact .inr ⟨by omega, next, p.use cur, rfl⟩

theorem splitSeq_length (hn : 1 ≤ nUbatch) (h : b.splitSeq nUbatch p = some (c, p')) :
    c.idxs.length ≤ nUbatch := by
  simp only [Allocr.splitSeq] at h
  split at h
  · cases h
  · cases h
    exact seqLoop_length _ _ _ _ hn

/-- The loop over the chosen sets takes the same number of tokens of each, and after the first
turn it does not go over the limit. -/
theorem expandLoop_size (nUbatch : Nat) : ∀ (fuel k : Nat) (lanes : List Lane) (p : Progress),
    (∀ l ∈ lanes, l.idxs.length = k) → (k = 0 ∨ (k + 1) * lanes.length ≤ nUbatch) →
    ∃ m, (∀ l ∈ (b.expandLoop nUbatch fuel lanes p).1, l.idxs.length = m) ∧
      (b.expandLoop nUbatch fuel lanes p).1.length = lanes.length ∧
      (m ≤ 1 ∨ m * lanes.length ≤ nUbatch) := by
  intro fuel
  induction fuel with
  | zero =>
    intro k lanes p hk hle
    refine ⟨k, hk, rfl, hle.imp (fun h => by omega) fun h => ?_⟩
    exact le_trans (Nat.mul_le_mul_right _ (Nat.le_succ k)) h
  | succ fuel ih =>
    intro k lanes p hk hle
    have hbound : k + 1 ≤ 1 ∨ (k + 1) * lanes.length ≤ nUbatch := hle.imp (fun h => by omega) id
    have hstep : ∀ l ∈ lanes.map b.laneStep, l.idxs.length = k + 1 := by
      intro l hl
      obtain ⟨l', hl', rfl⟩ := mem_map.mp hl
      simp only [Allocr.laneStep, length_append, length_singleton, hk l' hl']
    rw [Allocr.expandLoop]
    split
    · simp only
      split
      · exact ⟨k + 1, hstep, length_map _, hbound⟩
      · rename_i hroom
        obtain ⟨m, h1, h2, h3⟩ := ih (k + 1) (lanes.map b.laneStep)
          (lanes.foldl (fun p l => p.use (b.laneToken l)) p) hstep (by
            cases lanes with
            | nil => simp
            | cons l lanes =>
              have := hstep (b.laneStep l) (by simp)
              simp only [map_cons, head?_cons, Option.map_some, Option.getD_some, this]
                at hroom
              simp only [map_cons]
              omega)
        rw [length_map] at h2 h3
        exact ⟨m, h1, h2, h3⟩
    · refine ⟨k, hk, rfl, hle.imp (fun h => by omega) fun h => ?_⟩
      exact le_trans (Nat.mul_le_mul_right _ (Nat.le_succ k)) h

/-- The sets that a call of `split_equal` chooses. -/
def Allocr.chosen (b : Allocr E) (p : Progress) (nUbatch : Nat) (sequential : Bool) :
    List (Finset Nat) :=
  b.chooseSets p nUbatch sequential (range b.nTokens) [] (-1)

/-- The ubatch fits exactly when there are not too many sets. -/
theorem splitEqual_length (h : b.splitEqual nUbatch sequential p = some (c, p')) :
    c.idxs.length ≤ nUbatch ↔ (b.chosen p nUbatch sequential).length ≤ nUbatch := by
  obtain ⟨-, is, m, -, -, -, -, -, hm, hlen, hidx, ⟨hseqs, -⟩, -, -⟩ := splitEqual_some h
  have hturns : c.idxs.length = m * c.nSeqs := by
    rw [hidx, hseqs, Allocr.turns, flatMap_map, Nat.mul_comm]
    refine Bytes.length_flatMap_block is fun i hi => ?_
    rw [length_take, Nat.min_eq_left (hlen i hi)]
  simp only [Allocr.splitEqual] at h
  split at h
  · cases h
  · split at h
    · cases h
    · rename_i hne
      obtain ⟨m', h1, h2, h3⟩ := expandLoop_size (b := b) nUbatch (b.nTokens + 1) 0
        ((b.chosen p nUbatch sequential).map (b.lane p)) p (by simp [Allocr.lane]) (.inl rfl)
      rw [length_map] at h2 h3
      have hsize : c.idxs.length = m' * (b.chosen p nUbatch sequential).length := by
        cases h
        rw [← h2, Nat.mul_comm]
        exact Bytes.length_flatMap_block _ h1
      have hnum : c.nSeqs = (b.chosen p nUbatch sequential).length := by
        cases h
        rfl
      have hpos : 0 < (b.chosen p nUbatch sequential).length := length_pos_iff.mpr hne
      rw [hnum] at hturns
      obtain rfl : m' = m := Nat.eq_of_mul_eq_mul_right hpos (hsize.symm.trans hturns)
      rw [hsize]
      refine ⟨fun hle => le_trans (Nat.le_mul_of_pos_left _ hm) hle, fun hle => ?_⟩
      rcases h3 with h3 | h3
      · obtain rfl : m' = 1 := by omega
        rwa [Nat.one_mul]
      · exact h3

/-- Unused tokens, in order, of which no two sets overlap, and every unused token up to the last
of them is one of them or overlaps an earlier one. -/
structure Allocr.Apart (b : Allocr E) (p : Progress) (is : List Nat) : Prop where
  sorted : is.Pairwise (· < ·)
  unused : ∀ i ∈ is, i < b.nTokens ∧ p.used i = false
  apart : is.Pairwise fun i j => b.seqSet i ∩ b.seqSet j = ∅
  first : ∀ x ∈ is, ∀ a ≤ x, p.used a = false →
    ∃ y ∈ is, y ≤ a ∧ (y = a ∨ b.seqSet y ∩ b.seqSet a ≠ ∅)

/-- Unused tokens, in order, whose sequence ids follow each other from that of the first unused
token on. -/
structure Allocr.Consecutive (b : Allocr E) (p : Progress) (is : List Nat) : Prop where
  sorted : is.Pairwise (· < ·)
  unused : ∀ i ∈ is, i < b.nTokens ∧ p.used i = false
  ids : ∀ j < is.length, b.seqId (is.getD j 0) 0 = b.seqId (b.firstUnused p) 0 + j

theorem pairwise_of_lt {R : Nat → Nat → Prop} {l : List Nat} (hlt : l.Pairwise (· < ·))
    (h : l.Pairwise R) {y : Nat} (hx : x ∈ l) (hy : y ∈ l) (hxy : x < y) : R x y := by
  induction l with
  | nil => cases hx
  | cons z l ih =>
    rw [pairwise_cons] at hlt h
    rcases mem_cons.mp hx with rfl | hxl
    · rcases mem_cons.mp hy with rfl | hyl
      · omega
      · exact h.1 y hyl
    · rcases mem_cons.mp hy with rfl | hyl
      · have := hlt.1 x hxl
        omega
      · exact ih hlt.2 h.2 hxl hyl

/-- The choice of sets that go together is determined. -/
theorem Allocr.Apart.mem_iff (hds : b.Apart p ds) (h : Chosen b p false k is) :
    ∀ a < k, (∃ x ∈ ds, a ≤ x) → (a ∈ ds ↔ a ∈ is) := by
  intro a
  induction a using Nat.strong_induction_on with
  | _ a ih =>
    rintro ha ⟨x, hx, hax⟩
    constructor
    · intro had
      obtain ⟨y, hy, hya, rfl | hne⟩ := h.seen rfl a ha (hds.unused a had).2
      · exact hy
      · rcases Nat.lt_or_eq_of_le hya with hlt | rfl
        · have hyd := (ih y hlt (by omega) ⟨x, hx, by omega⟩).mpr hy
          exact (hne (pairwise_of_lt hds.sorted hds.apart hyd had hlt)).elim
        · exact hy
    · intro hai
      obtain ⟨y, hy, hya, rfl | hne⟩ := hds.first x hx a hax (h.unused a hai)
      · exact hy
      · rcases Nat.lt_or_eq_of_le hya with hlt | rfl
        · have hyi := (ih y hlt (by omega) ⟨x, hx, by omega⟩).mp hy
          exact (hne (pairwise_of_lt h.sorted h.apart hyi hai hlt)).elim
        · exact hy

theorem Chosen.toApart (hk : k ≤ b.nTokens) (h : Chosen b p false k is) : b.Apart p is where
  sorted := h.sorted
  unused i hi := ⟨lt_of_lt_of_le (h.lt i hi) hk, h.unused i hi⟩
  apart := h.apart
  first x hx a hax hu := h.seen rfl a (lt_of_le_of_lt hax (h.lt x hx)) hu

/-- Without the order of sequence ids, too many sets are chosen when too many go together. -/
theorem chosen_apart :
    (b.chosen p nUbatch false).length ≤ nUbatch ↔ ∀ is, b.Apart p is → is.length ≤ nUbatch := by
  obtain ⟨k, is, hk, hch, hs, hall⟩ := chooseSets_chosen (b := b) (p := p)
    nUbatch false b.nTokens 0 [] (-1) (by omega)
    ⟨List.Pairwise.nil, by simp, by simp, List.Pairwise.nil, fun _ a ha => (by omega)⟩
  rw [← range_eq_range', map_nil] at hs
  rw [Allocr.chosen, hs, length_map]
  refine ⟨fun hle ds hds => ?_, fun h => h is (hch.toApart hk)⟩
  have hsub : ds ⊆ is := by
    intro a ha
    have hlt : a < k := by
      rw [hall hle]
      exact (hds.unused a ha).1
    exact (hds.mem_iff hch a hlt ⟨a, ha, le_rfl⟩).mp ha
  have hnd : ds.Nodup := hds.sorted.imp fun hlt => ne_of_lt hlt
  exact (subperm_of_subset hnd hsub).length_le.trans hle

/-- What a sequential choice knows when it has seen the tokens before `k`. -/
structure InRow (b : Allocr E) (p : Progress) (k : Nat) (is : List Nat) (last : Int) : Prop where
  row : b.Consecutive p is
  lt : ∀ i ∈ is, i < k
  none : is = [] → ∀ a < k, p.used a = true
  last_eq : is ≠ [] → last = b.seqId (b.firstUnused p) 0 + is.length - 1
  most : ∀ ds, b.Consecutive p ds → (ds.filter (· < k)).length ≤ is.length

/-- A sorted list around one of its elements. -/
theorem filter_lt_split {as bs : List Nat} (h : (as ++ k :: bs).Pairwise (· < ·)) :
    (as ++ k :: bs).filter (· < k) = as ∧ (as ++ k :: bs).filter (· < k + 1) = as ++ [k] := by
  rw [pairwise_append, pairwise_cons] at h
  have has : ∀ a ∈ as, a < k := fun a ha => h.2.2 a ha k (by simp)
  have hbs : ∀ c ∈ bs, k < c := h.2.1.1
  have h1 : as.filter (· < k) = as := filter_eq_self.mpr fun a ha => decide_eq_true (has a ha)
  have h2 : bs.filter (· < k) = [] := filter_eq_nil_iff.mpr fun c hc => by simpa using (hbs c hc).le
  have h3 : as.filter (· < k + 1) = as :=
    filter_eq_self.mpr fun a ha => decide_eq_true (Nat.lt_succ_of_lt (has a ha))
  have h4 : bs.filter (· < k + 1) = [] :=
    filter_eq_nil_iff.mpr fun c hc => by simpa using Nat.succ_le_of_lt (hbs c hc)
  constructor
  · rw [filter_append, filter_cons_of_neg (by simp), h1, h2, append_nil]
  · rw [filter_append, filter_cons_of_pos (by simp), h3, h4]

theorem filter_lt_succ_of_not_mem (hk : k ∉ ds) : ds.filter (· < k + 1) = ds.filter (· < k) := by
  refine filter_congr fun a ha => ?_
  have hne : a ≠ k := fun h => hk (h ▸ ha)
  rw [decide_eq_decide]
  omega

/-- A choice that a token belongs to gives its sequence id. -/
theorem Allocr.Consecutive.filter_succ (h : b.Consecutive p ds) (hk : k ∈ ds) :
    (ds.filter (· < k + 1)).length = (ds.filter (· < k)).length + 1 ∧
      b.seqId k 0 = b.seqId (b.firstUnused p) 0 + (ds.filter (· < k)).length := by
  obtain ⟨as, bs, rfl⟩ := append_of_mem hk
  obtain ⟨h1, h2⟩ := filter_lt_split h.sorted
  rw [h1, h2]
  refine ⟨by simp, ?_⟩
  have hid := h.ids as.length (by simp)
  simpa [getD_eq_getElem?_getD] using hid

/-- An unused token that does not continue the row belongs to no longer choice. -/
theorem InRow.skip (h : InRow b p k is last) (hnone : is = [] → p.used k = true)
    (hk : p.used k = false → is ≠ [] → b.seqId k 0 ≠ last + 1) : InRow b p (k + 1) is last where
  row := h.row
  lt i hi := Nat.lt_succ_of_lt (h.lt i hi)
  none hnil a ha := by
    rcases Nat.lt_succ_iff_lt_or_eq.mp ha with ha | rfl
    · exact h.none hnil a ha
    · exact hnone hnil
  last_eq := h.last_eq
  most ds hds := by
    by_cases hmem : k ∈ ds
    · have hu := (hds.unused k hmem).2
      obtain ⟨h1, h2⟩ := hds.filter_succ hmem
      have hle := h.most ds hds
      have hne : is ≠ [] := by
        intro hnil
        rw [hnone hnil] at hu
        cases hu
      have hid := hk hu hne
      have hlast := h.last_eq hne
      rw [h1]
      omega
    · rw [filter_lt_succ_of_not_mem hmem]
      exact h.most ds hds

theorem firstUnused_eq (hk : k < b.nTokens) (hu : p.used k = false)
    (hall : ∀ a < k, p.used a = true) : b.firstUnused p = k := by
  have hlt : b.firstUnused p < b.nTokens := by
    by_contra hge
    rw [firstUnused_ge (by omega) k hk] at hu
    cases hu
  obtain ⟨h1, h2⟩ := firstUnused_spec hlt
  rcases Nat.lt_trichotomy (b.firstUnused p) k with h | h | h
  · rw [hall _ h] at h1
    cases h1
  · exact h
  · rw [h2 k h] at hu
    cases hu

theorem InRow.join (h : InRow b p k is last) (hk : k < b.nTokens) (hu : p.used k = false)
    (hid : is ≠ [] → b.seqId k 0 = last + 1) : InRow b p (k + 1) (is ++ [k]) (b.seqId k 0) := by
  have hlen : b.seqId k 0 = b.seqId (b.firstUnused p) 0 + is.length := by
    by_cases hnil : is = []
    · rw [firstUnused_eq hk hu (h.none hnil), hnil]
      simp
    · rw [hid hnil, h.last_eq hnil]
      omega
  refine ⟨⟨?_, ?_, ?_⟩, ?_, by simp, ?_, ?_⟩
  · exact pairwise_append.mpr ⟨h.row.sorted, by simp, fun i hi j hj => by
      rw [mem_singleton.mp hj]
      exact h.lt i hi⟩
  · intro i hi
    rcases mem_append.mp hi with hi | hi
    · exact h.row.unused i hi
    · rw [mem_singleton.mp hi]
      exact ⟨hk, hu⟩
  · intro j hj
    rw [length_append, length_singleton] at hj
    rcases Nat.lt_succ_iff_lt_or_eq.mp hj with hj | rfl
    · have hid := h.row.ids j hj
      rw [getD_eq_getElem?_getD] at hid
      rw [getD_eq_getElem?_getD, getElem?_append_left hj]
      exact hid
    · rw [getD_eq_getElem?_getD, getElem?_concat_length]
      exact hlen
  · intro i hi
    rcases mem_append.mp hi with hi | hi
    · exact Nat.lt_succ_of_lt (h.lt i hi)
    · rw [mem_singleton.mp hi]
      exact Nat.lt_succ_self k
  · intro _
    rw [hlen, length_append, length_singleton]
    omega
  · intro ds hds
    have hle := h.most ds hds
    rw [length_append, length_singleton]
    by_cases hmem : k ∈ ds
    · rw [(hds.filter_succ hmem).1]
      omega
    · rw [filter_lt_succ_of_not_mem hmem]
      omega

/-- Every token is in one sequence at most, and sequence ids are not negative. -/
structure Allocr.Single (b : Allocr E) : Prop where
  one : ∀ i < b.nTokens, b.nSeqId i ≤ 1
  nonneg : ∀ i < b.nTokens, ∀ s ∈ b.seqs i, 0 ≤ s

theorem Allocr.Single.inter_eq_empty (hb : b.Single) {i j : Nat} (hi : i < b.nTokens)
    (hj : j < b.nTokens) (hne : b.seqId i 0 ≠ b.seqId j 0) : b.seqSet i ∩ b.seqSet j = ∅ := by
  have hseq : ∀ k < b.nTokens, ∀ s ∈ b.seqs k, s = b.seqId k 0 := by
    intro k hk s hs
    obtain ⟨n, hn, rfl⟩ := mem_map.mp hs
    have hone := hb.one k hk
    have hlt := mem_range.mp hn
    obtain rfl : n = 0 := by omega
    rfl
  rw [← Finset.disjoint_iff_inter_eq_empty, Finset.disjoint_left]
  intro t hti htj
  simp only [Allocr.seqSet, mem_toFinset, mem_map] at hti htj
  obtain ⟨s, hs, hst⟩ := hti
  obtain ⟨s', hs', hst'⟩ := htj
  have h1 := hb.nonneg i hi s hs
  have h2 := hb.nonneg j hj s' hs'
  refine hne ?_
  rw [← hseq i hi s hs, ← hseq j hj s' hs']
  omega

/-- In a row, the ids before the next one are smaller. -/
theorem Allocr.Consecutive.id_lt (h : b.Consecutive p is) (hx : x ∈ is) :
    b.seqId x 0 < b.seqId (b.firstUnused p) 0 + is.length := by
  obtain ⟨j, hj, rfl⟩ := mem_iff_getElem.mp hx
  have hid := h.ids j hj
  rw [getD_eq_getElem?_getD, getElem?_eq_getElem hj, Option.getD_some] at hid
  omega

theorem chooseSets_inRow (hb : b.Single) (nUbatch : Nat) (n : Nat) : ∀ (k : Nat)
    (is : List Nat) (last : Int), k + n = b.nTokens → InRow b p k is last →
    ∃ k' is' last', k' ≤ b.nTokens ∧ InRow b p k' is' last' ∧
      b.chooseSets p nUbatch true (range' k n) (is.map b.seqSet) last =
        is'.map b.seqSet ∧ (is'.length ≤ nUbatch → k' = b.nTokens) := by
  refine chooseSets_invariant nUbatch true ?_ ?_ n
  · rintro k is last hk h (hused | hj)
    · exact h.skip (fun _ => hused) fun hu => by
        rw [hu] at hused
        cases hused
    · refine h.skip (fun hnil => (hj (by simp [Allocr.joins, hnil])).elim) fun _ hne hid => hj ?_
      have hapart : ∀ x ∈ is, b.seqSet x ∩ b.seqSet k = ∅ := by
        intro x hx
        refine hb.inter_eq_empty (h.row.unused x hx).1 hk ?_
        have hlt := h.row.id_lt hx
        have hlast := h.last_eq hne
        omega
      simpa [Allocr.joins, hid] using hapart
  · intro k is last hk h hu hj
    refine h.join hk hu fun hne => ?_
    simpa [Allocr.joins, hne] using (Bool.and_eq_true_iff.mp hj).2

/-- With the order of sequence ids, too many sets are chosen when too many ids follow each
other. -/
theorem chosen_consecutive (hb : b.Single) :
    (b.chosen p nUbatch true).length ≤ nUbatch ↔
      ∀ is, b.Consecutive p is → is.length ≤ nUbatch := by
  obtain ⟨k, is, last, -, hrow, hs, hall⟩ := chooseSets_inRow (b := b) (p := p) hb nUbatch
    b.nTokens 0 [] (-1) (by omega) ⟨⟨List.Pairwise.nil, by simp, by simp⟩, by simp,
      fun _ a ha => (by omega), by simp, by simp⟩
  rw [← range_eq_range', map_nil] at hs
  rw [Allocr.chosen, hs, length_map]
  refine ⟨fun hle ds hds => ?_, fun h => h is hrow.row⟩
  have hmost := hrow.most ds hds
  have hself : ds.filter (· < k) = ds := by
    refine filter_eq_self.mpr fun a ha => decide_eq_true ?_
    rw [hall hle]
    exact (hds.unused a ha).1
  rw [hself] at hmost
  exact hmost.trans hle

/-- What keeps an ubatch within its size: for `split_equal`, not more tokens than that can start
a sequence set. A sequential split refuses coupled sequences. -/
def Mode.Room (b : Allocr E) (p : Progress) (nUbatch : Nat) : Mode → Prop
  | .simple => True
  | .equal false => ∀ is, b.Apart p is → is.length ≤ nUbatch
  | .equal true => b.hasCpl = true ∨ ∀ is, b.Consecutive p is → is.length ≤ nUbatch
  | .seq => True

/-- A call that returns no ubatch chose no sets. -/
theorem chosen_of_splitEqual_none (hcpl : (sequential && b.hasCpl) = false)
    (h : b.splitEqual nUbatch sequential p = none) : b.chosen p nUbatch sequential = [] := by
  by_contra hne
  rw [Allocr.chosen] at hne
  simp only [Allocr.splitEqual, hcpl, Bool.false_eq_true, if_false, if_neg hne] at h
  cases h

theorem splitEqual_fits_iff (hcpl : (sequential && b.hasCpl) = false) :
    (∀ c p', b.splitEqual nUbatch sequential p = some (c, p') → c.idxs.length ≤ nUbatch) ↔
      (b.chosen p nUbatch sequential).length ≤ nUbatch := by
  cases hs : b.splitEqual nUbatch sequential p with
  | none =>
    rw [chosen_of_splitEqual_none hcpl hs]
    simp
  | some r =>
    refine ⟨fun h => (splitEqual_length hs).mp (h r.1 r.2 rfl), fun h c p' hc => ?_⟩
    cases hc
    exact (splitEqual_length hs).mpr h

/-- Without coupled sequences the tokens of an accepted batch are in one sequence each. -/
theorem single_of_init {a : Args} {inp : Input E} (hinit : init a inp = some b)
    (hcpl : b.hasCpl = false) : b.Single := by
  obtain ⟨hadm, rfl⟩ := init_eq_some_iff.mp hinit
  refine ⟨fun i hi => ?_, fun i hi s hs => (hadm.below i hi s hs).1⟩
  have := any_eq_false.mp hcpl i (mem_range.mpr hi)
  simpa using this

/-- Whatever tokens are used, the next ubatch of an accepted batch fits exactly when there is
room. -/
theorem ubatch_fits_iff {a : Args} {inp : Input E} (hinit : init a inp = some b) {nUbatch : Nat}
    (hn : 1 ≤ nUbatch) (mode : Mode) (p : Progress) :
    (∀ c p', b.split mode nUbatch p = some (c, p') → (b.ubatch c).nTokens ≤ nUbatch) ↔
      mode.Room b p nUbatch := by
  match mode with
  | .simple => exact iff_of_true (fun c p' h => splitSimple_length hn h) trivial
  | .seq => exact iff_of_true (fun c p' h => splitSeq_length hn h) trivial
  | .equal false => exact (splitEqual_fits_iff rfl).trans chosen_apart
  | .equal true =>
    cases hcpl : b.hasCpl with
    | true =>
      refine iff_of_true (fun c p' h => ?_) (.inl hcpl)
      simp [Allocr.split, Allocr.splitEqual, hcpl] at h
    | false =>
      refine (splitEqual_fits_iff (by rw [hcpl]; rfl)).trans ?_
      rw [chosen_consecutive (single_of_init hinit hcpl), Mode.Room, hcpl]
      simp

/-- Two tokens of two sequences with room for two. -/
theorem ubatch_fits_twoSeqs :
    ∃ b, init plainArgs (textBatch [[0], [1]] [0, 0]) = some b ∧
      ∀ mode p, (∀ c p', b.split mode 2 p = some (c, p') → (b.ubatch c).nTokens ≤ 2) ↔
        mode.Room b p 2 := by
  have hinit : init plainArgs (textBatch [[0], [1]] [0, 0]) =
      some (fill plainArgs (textBatch [[0], [1]] [0, 0])) := by
    rw [init, if_pos (by decide)]
  exact ⟨_, hinit, ubatch_fits_iff hinit (by decide)⟩

/-- With room for one token, `split_equal` takes one of each of two sequences. -/
theorem ubatch_too_large :
    ∃ b, init plainArgs (textBatch [[0], [1]] [0, 0]) = some b ∧
      ∀ sequential, ∃ c p', b.split (.equal sequential) 1 Progress.reset = some (c, p') ∧
        (b.ubatch c).nTokens = 2 := by
  refine ⟨fill plainArgs (textBatch [[0], [1]] [0, 0]), by rw [init, if_pos (by decide)], ?_⟩
  have hrun : ∀ sequential, ((fill plainArgs (textBatch [[0], [1]] [0, 0])).split
      (.equal sequential) 1 Progress.reset).map (fun r => r.1.idxs) = some [0, 1] := by decide
  intro sequential
  obtain ⟨⟨c, p'⟩, h1, h2⟩ := Option.map_eq_some_iff.mp (hrun sequential)
  exact ⟨c, p', h1, congrArg List.length h2⟩

end Llama.Batch
