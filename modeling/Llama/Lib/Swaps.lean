import Mathlib.Algebra.Group.End
import Mathlib.Data.List.Nodup
import Mathlib.Data.List.Perm.Subperm

/-!
# Recorded exchanges

Arrays are functions of the index. A list of exchanges is the permutation that it leaves behind, and
what an array holds afterwards is read through that permutation. Selection sort records the
exchanges it makes, so that another array, or the rows of a flat one, can be brought into the same
order later.
-/

namespace Llama.Swaps

open List

variable {α : Type*}

/-- Exchange two entries. -/
def swapAt (f : Nat → α) (i j : Nat) : Nat → α := fun k => f (Equiv.swap i j k)

/-- The place from which the entry at an index comes after the exchanges. -/
def order (swaps : List (Nat × Nat)) : Equiv.Perm Nat :=
  swaps.foldl (fun σ s => σ * Equiv.swap s.1 s.2) 1

theorem order_append (swaps : List (Nat × Nat)) (s : Nat × Nat) :
    order (swaps ++ [s]) = order swaps * Equiv.swap s.1 s.2 := by
  simp [order]

theorem order_cons (s : Nat × Nat) (swaps : List (Nat × Nat)) :
    order (s :: swaps) = Equiv.swap s.1 s.2 * order swaps := by
  have hmul : ∀ (l : List (Nat × Nat)) (σ : Equiv.Perm Nat),
      l.foldl (fun σ s => σ * Equiv.swap s.1 s.2) σ = σ * order l := by
    intro l
    induction l with
    | nil => simp [order]
    | cons t l ih =>
      intro σ
      have hone : order (t :: l) = 1 * Equiv.swap t.1 t.2 * order l := ih (1 * Equiv.swap t.1 t.2)
      rw [foldl_cons, ih, hone, one_mul, mul_assoc]
  rw [order, foldl_cons, hmul, one_mul]

variable {swaps : List (Nat × Nat)} {r n w i : Nat}

/-- An index that no exchange touches keeps its entry. -/
theorem order_apply_of_forall (h : ∀ s ∈ swaps, r ≠ s.1 ∧ r ≠ s.2) : order swaps r = r := by
  induction swaps with
  | nil => rfl
  | cons s swaps ih =>
    have hs := h s mem_cons_self
    rw [order_cons, Equiv.Perm.mul_apply, ih fun t ht => h t (mem_cons_of_mem s ht),
      Equiv.swap_apply_of_ne_of_ne hs.1 hs.2]

/-- Exchanges below a bound keep the indices below it. -/
theorem order_lt (h : ∀ s ∈ swaps, s.1 < n ∧ s.2 < n) (hr : r < n) : order swaps r < n := by
  induction swaps with
  | nil => exact hr
  | cons s swaps ih =>
    have hs := h s mem_cons_self
    have hlt := ih fun t ht => h t (mem_cons_of_mem s ht)
    rw [order_cons, Equiv.Perm.mul_apply, Equiv.swap_apply_def]
    split_ifs
    · exact hs.2
    · exact hs.1
    · exact hlt

theorem map_order_perm (h : ∀ s ∈ swaps, s.1 < n ∧ s.2 < n) :
    ((range n).map (order swaps)).Perm (range n) := by
  have hnodup : ((range n).map (order swaps)).Nodup :=
    List.Nodup.map (order swaps).injective nodup_range
  have hsub : (range n).map (order swaps) ⊆ range n := by
    intro a ha
    obtain ⟨r, hr, rfl⟩ := mem_map.mp ha
    exact mem_range.mpr (order_lt h (mem_range.mp hr))
  exact (subperm_of_subset hnodup hsub).perm_of_length_le (by simp)

/-- Exchange two rows of width `w`, column by column. -/
def swapRows (w i j : Nat) (d : Nat → α) : Nat → α :=
  (range w).foldl (fun d k => swapAt d (i * w + k) (j * w + k)) d

/-- The address from which an entry comes when rows of width `w` are moved. -/
def rowAddr (w : Nat) (σ : Nat → Nat) (a : Nat) : Nat := σ (a / w) * w + a % w

theorem rowAddr_row {x : Nat} (σ : Nat → Nat) (q : Nat) (hx : x < w) :
    rowAddr w σ (q * w + x) = σ q * w + x := by
  have hw : 0 < w := Nat.zero_lt_of_lt hx
  rw [rowAddr, Nat.mul_comm q w, Nat.mul_add_div hw, Nat.div_eq_of_lt hx, Nat.add_zero,
    Nat.mul_add_mod, Nat.mod_eq_of_lt hx]

theorem rowAddr_comp (σ τ : Nat → Nat) (a : Nat) :
    rowAddr w σ (rowAddr w τ a) = rowAddr w (fun q => σ (τ q)) a := by
  rcases Nat.eq_zero_or_pos w with rfl | hw
  · simp [rowAddr]
  · exact rowAddr_row σ (τ (a / w)) (Nat.mod_lt a hw)

/-- Exchanging the columns one by one moves the rows. -/
theorem swapRows_apply (i j : Nat) (d : Nat → α) (a : Nat) :
    swapRows w i j d a = d (rowAddr w (Equiv.swap i j) a) := by
  rcases Nat.eq_zero_or_pos w with rfl | hw
  · simp [swapRows, rowAddr]
  -- after `m` columns the entries of these columns are exchanged
  have hcols : ∀ m ≤ w, ∀ a, (range m).foldl (fun d k => swapAt d (i * w + k) (j * w + k)) d a =
      if a % w < m then d (rowAddr w (Equiv.swap i j) a) else d a := by
    intro m
    induction m with
    | zero => exact fun _ a => by simp
    | succ m ih =>
      intro hm a
      have hmw : m < w := hm
      have hmod : ∀ q, (q * w + m) % w = m := fun q => by
        rw [Nat.mul_comm, Nat.mul_add_mod, Nat.mod_eq_of_lt hmw]
      rw [range_succ, foldl_append, foldl_cons, foldl_nil, swapAt, ih (Nat.le_of_lt hm)]
      by_cases hi : a = i * w + m
      · subst hi
        rw [Equiv.swap_apply_left, hmod, hmod, if_neg (Nat.lt_irrefl m),
          if_pos (Nat.lt_succ_self m),
          rowAddr_row _ i hmw, Equiv.swap_apply_left]
      · by_cases hj : a = j * w + m
        · subst hj
          rw [Equiv.swap_apply_right, hmod, hmod, if_neg (Nat.lt_irrefl m),
            if_pos (Nat.lt_succ_self m), rowAddr_row _ j hmw, Equiv.swap_apply_right]
        · rw [Equiv.swap_apply_of_ne_of_ne hi hj]
          by_cases hcol : a % w = m
          · have ha : a / w * w + m = a := by rw [← hcol, Nat.div_add_mod' a w]
            have hqi : a / w ≠ i := fun h => hi (by rw [← ha, h])
            have hqj : a / w ≠ j := fun h => hj (by rw [← ha, h])
            rw [hcol, if_neg (Nat.lt_irrefl m), if_pos (Nat.lt_succ_self m), rowAddr,
              Equiv.swap_apply_of_ne_of_ne hqi hqj, hcol, ha]
          · have hiff : a % w < m ↔ a % w < m + 1 := by omega
            simp only [hiff]
  have := hcols w le_rfl a
  rwa [if_pos (Nat.mod_lt a hw)] at this

/-- Exchange rows of width `w` one pair after the other. -/
def swapAllRows (w : Nat) (swaps : List (Nat × Nat)) (d : Nat → α) : Nat → α :=
  swaps.foldl (fun d s => swapRows w s.1 s.2 d) d

theorem swapAllRows_apply (w : Nat) (swaps : List (Nat × Nat)) (d : Nat → α) (a : Nat) :
    swapAllRows w swaps d a = d (rowAddr w (order swaps) a) := by
  induction swaps generalizing d with
  | nil =>
    rw [swapAllRows, foldl_nil, rowAddr]
    exact congrArg d (Nat.div_add_mod' a w).symm
  | cons s swaps ih =>
    have hrest := ih (swapRows w s.1 s.2 d)
    rw [swapAllRows] at hrest
    rw [swapAllRows, foldl_cons, hrest, swapRows_apply, rowAddr_comp, order_cons]
    rfl

/-- The index of the first smallest entry from `i` on. -/
def selectMin (f : Nat → Nat) (n i : Nat) : Nat :=
  (range' (i + 1) (n - (i + 1))).foldl (fun m j => if f j < f m then j else m) i

/-- One round of the sort. -/
def selectionStep (n : Nat) (st : (Nat → Nat) × List (Nat × Nat)) (i : Nat) :
    (Nat → Nat) × List (Nat × Nat) :=
  let m := selectMin st.1 n i
  if m = i then st else (swapAt st.1 i m, st.2 ++ [(i, m)])

/-- Sort the first `n` entries; also the exchanges made. -/
def selectionSort (f : Nat → Nat) (n : Nat) : (Nat → Nat) × List (Nat × Nat) :=
  (range (n - 1)).foldl (selectionStep n) (f, [])

theorem selectMin_spec (f : Nat → Nat) (hi : i < n) :
    i ≤ selectMin f n i ∧ selectMin f n i < n ∧ (∀ j, i ≤ j → j < n → f (selectMin f n i) ≤ f j) ∧
      ((∀ j, i ≤ j → j < n → f i ≤ f j) → selectMin f n i = i) := by
  have hloop : ∀ k ≤ n - (i + 1),
      let m := (range' (i + 1) k).foldl (fun m j => if f j < f m then j else m) i
      i ≤ m ∧ m < n ∧ (∀ j, i ≤ j → j < i + 1 + k → f m ≤ f j) ∧
        ((∀ j, i ≤ j → j < n → f i ≤ f j) → m = i) := by
    intro k
    induction k with
    | zero =>
      intro _
      refine ⟨le_rfl, hi, fun j h1 h2 => ?_, fun _ => rfl⟩
      have hj : j = i := by omega
      rw [hj]
      exact le_rfl
    | succ k ih =>
      intro hk
      obtain ⟨h1, h2, h3, h4⟩ := ih (by omega)
      simp only [range'_concat, foldl_append, foldl_cons, foldl_nil, Nat.one_mul] at *
      split
      · rename_i hlt
        refine ⟨by omega, by omega, fun j hj1 hj2 => ?_, fun hmin => ?_⟩
        · by_cases hj : j = i + 1 + k
          · rw [hj]
          · exact hlt.le.trans (h3 j hj1 (by omega))
        · rw [h4 hmin] at hlt
          exact absurd (hmin (i + 1 + k) (by omega) (by omega)) (Nat.not_le.mpr hlt)
      · rename_i hge
        refine ⟨h1, h2, fun j hj1 hj2 => ?_, h4⟩
        by_cases hj : j = i + 1 + k
        · rw [hj]
          exact Nat.not_lt.mp hge
        · exact h3 j hj1 (by omega)
  obtain ⟨h1, h2, h3, h4⟩ := hloop (n - (i + 1)) le_rfl
  exact ⟨h1, h2, fun j hj1 hj2 => h3 j hj1 (by omega), h4⟩

/-- State of the sort of `f` after the rounds below `k`. -/
structure Sorting (f : Nat → Nat) (n k : Nat) (st : (Nat → Nat) × List (Nat × Nat)) : Prop where
  eq : ∀ r, st.1 r = f (order st.2 r)
  bounds : ∀ s ∈ st.2, s.1 < s.2 ∧ s.2 < n ∧ s.1 < k
  rounds : st.2.Pairwise fun s t => s.1 < t.1
  sorted : ∀ i j, i < k → i < j → j < n → st.1 i ≤ st.1 j
  still : (∀ i j, i < j → j < n → f i ≤ f j) → st.2 = []

theorem Sorting.step {f : Nat → Nat} {k : Nat} {st : (Nat → Nat) × List (Nat × Nat)}
    (h : Sorting f n k st) (hk : k < n) : Sorting f n (k + 1) (selectionStep n st k) := by
  obtain ⟨h1, h2, h3, h4⟩ := selectMin_spec st.1 hk
  unfold selectionStep
  by_cases hm : selectMin st.1 n k = k
  · simp only [hm, if_true]
    refine ⟨h.eq, fun s hs => ?_, h.rounds, fun i j hi hij hj => ?_, h.still⟩
    · have := h.bounds s hs
      omega
    · rcases Nat.lt_succ_iff_lt_or_eq.mp hi with hlt | rfl
      · exact h.sorted i j hlt hij hj
      · have := h3 j hij.le hj
        rwa [hm] at this
  · simp only [hm, if_false]
    have hkm : k < selectMin st.1 n k := by omega
    refine ⟨fun r => ?_, fun s hs => ?_, ?_, fun i j hi hij hj => ?_, fun hf => ?_⟩
    · rw [order_append, Equiv.Perm.mul_apply]
      exact h.eq _
    · rcases mem_append.mp hs with hs | hs
      · have := h.bounds s hs
        omega
      · rw [mem_singleton.mp hs]
        exact ⟨hkm, h2, Nat.lt_succ_self k⟩
    · refine pairwise_append.mpr ⟨h.rounds, pairwise_singleton _ _, fun s hs t ht => ?_⟩
      rw [mem_singleton.mp ht]
      exact (h.bounds s hs).2.2
    · -- the entry that comes to `j` was behind `i` before, and not before `k` if `i` is `k`
      have hj' : i < Equiv.swap k (selectMin st.1 n k) j ∨ i = k ∧
          k ≤ Equiv.swap k (selectMin st.1 n k) j := by
        rw [Equiv.swap_apply_def]
        split_ifs <;> omega
      have hn' : Equiv.swap k (selectMin st.1 n k) j < n := by
        rw [Equiv.swap_apply_def]
        split_ifs <;> omega
      change st.1 _ ≤ st.1 _
      rcases Nat.lt_succ_iff_lt_or_eq.mp hi with hlt | rfl
      · rw [Equiv.swap_apply_of_ne_of_ne (by omega) (by omega)]
        exact h.sorted i _ hlt (by omega) hn'
      · rw [Equiv.swap_apply_left]
        exact h3 _ (by omega) hn'
    · have hnil := h.still hf
      refine absurd (h4 fun j hj1 hj2 => ?_) hm
      rw [h.eq, h.eq, hnil]
      rcases Nat.eq_or_lt_of_le hj1 with rfl | hlt
      · exact le_rfl
      · exact hf k j hlt hj2

/-- The sort ends with the entries in order. -/
theorem selectionSort_sorting (f : Nat → Nat) (n : Nat) :
    Sorting f n (n - 1) (selectionSort f n) := by
  have hrounds : ∀ k ≤ n - 1, Sorting f n k ((range k).foldl (selectionStep n) (f, [])) := by
    intro k
    induction k with
    | zero =>
      exact fun _ => ⟨fun _ => rfl, fun _ hs => absurd hs not_mem_nil, List.Pairwise.nil,
        fun i _ hi => absurd hi (Nat.not_lt_zero i), fun _ => rfl⟩
    | succ k ih =>
      intro hk
      rw [range_succ, foldl_append]
      exact (ih (by omega)).step (by omega)
  exact hrounds (n - 1) le_rfl

section

variable {f : Nat → Nat} {n : Nat}

theorem selectionSort_le {j : Nat} (hij : i < j) (hj : j < n) :
    (selectionSort f n).1 i ≤ (selectionSort f n).1 j :=
  (selectionSort_sorting f n).sorted i j (by omega) hij hj

theorem selectionSort_bounds : ∀ s ∈ (selectionSort f n).2, s.1 < n ∧ s.2 < n := by
  intro s hs
  have := (selectionSort_sorting f n).bounds s hs
  omega

/-- The sorted entries are the entries. -/
theorem selectionSort_perm : ((range n).map (selectionSort f n).1).Perm ((range n).map f) := by
  have heq : (selectionSort f n).1 = f ∘ order (selectionSort f n).2 :=
    funext (selectionSort_sorting f n).eq
  rw [heq, ← map_map]
  exact (map_order_perm selectionSort_bounds).map f

/-- Exchanges are made exactly if the array is not sorted. -/
theorem selectionSort_swaps_eq_nil_iff :
    (selectionSort f n).2 = [] ↔ ∀ i j, i < j → j < n → f i ≤ f j := by
  refine ⟨fun h i j hij hj => ?_, (selectionSort_sorting f n).still⟩
  have heq := (selectionSort_sorting f n).eq
  simp only [h, order, foldl_nil, Equiv.Perm.one_apply] at heq
  rw [← heq, ← heq]
  exact selectionSort_le hij hj

/-- The first exchange brings an entry to its final place, and the entries before it never move. -/
theorem selectionSort_first (h : (selectionSort f n).2 ≠ []) :
    ∃ i < n, i < order (selectionSort f n).2 i ∧ ∀ r < i, order (selectionSort f n).2 r = r := by
  have hs := selectionSort_sorting f n
  cases hswaps : (selectionSort f n).2 with
  | nil => exact absurd hswaps h
  | cons s swaps =>
    have hrounds := hs.rounds
    have hbounds := hs.bounds
    rw [hswaps] at hrounds hbounds
    obtain ⟨hlater, -⟩ := pairwise_cons.mp hrounds
    have hfirst := hbounds s mem_cons_self
    have hafter : ∀ t ∈ swaps, s.1 < t.1 ∧ t.1 < t.2 := fun t ht =>
      ⟨hlater t ht, (hbounds t (mem_cons_of_mem s ht)).1⟩
    refine ⟨s.1, by omega, ?_, fun r hr => order_apply_of_forall fun t ht => ?_⟩
    · rw [order_cons, Equiv.Perm.mul_apply, order_apply_of_forall fun t ht => ?_,
        Equiv.swap_apply_left]
      · exact hfirst.1
      · have := hafter t ht
        omega
    · rcases mem_cons.mp ht with rfl | ht
      · omega
      · have := hafter t ht
        omega

end

/-- Rows moved with the wrong width do not come to their places: if some row moves forward and the
rows before it stay, the two addresses differ somewhere in the rows of the right width. -/
theorem exists_rowAddr_ne {w' : Nat} {σ : Nat → Nat} (hw : 0 < w) (hw' : 0 < w') (hne : w ≠ w')
    (hi : i < n) (hmove : i < σ i) (hstay : ∀ r < i, σ r = r) :
    ∃ q x, q < n ∧ x < w ∧ rowAddr w' σ (q * w + x) ≠ rowAddr w σ (q * w + x) := by
  have hat : ∀ v, 0 < v → rowAddr v σ (i * v) = σ i * v := fun v hv => by
    simpa using rowAddr_row σ i hv
  rcases Nat.eq_zero_or_pos i with rfl | hpos
  · refine ⟨0, 0, hi, hw, ?_⟩
    have h1 := hat w hw
    have h2 := hat w' hw'
    rw [Nat.zero_mul] at h1 h2
    rw [Nat.zero_mul, h1, h2]
    exact fun he => hne (Nat.eq_of_mul_eq_mul_left hmove he).symm
  -- row `i` of the smaller width begins in a row that stays for the larger width
  have hstays : ∀ v v', 0 < v' → v < v' → rowAddr v' σ (i * v) = i * v := by
    intro v v' hv' hlt
    have hdiv : i * v / v' < i := (Nat.div_lt_iff_lt_mul hv').mpr
      (Nat.mul_lt_mul_of_pos_left hlt hpos)
    rw [rowAddr, hstay _ hdiv, Nat.div_add_mod']
  rcases Nat.lt_or_gt_of_ne hne with hlt | hgt
  · refine ⟨i, 0, hi, hw, ?_⟩
    rw [Nat.add_zero, hstays w w' hw' hlt, hat w hw]
    exact fun he => absurd (Nat.eq_of_mul_eq_mul_right hw he) (Nat.ne_of_lt hmove)
  · have hdiv : i * w' / w < i := (Nat.div_lt_iff_lt_mul hw).mpr
      (Nat.mul_lt_mul_of_pos_left hgt hpos)
    refine ⟨i * w' / w, i * w' % w, hdiv.trans hi, Nat.mod_lt _ hw, ?_⟩
    rw [Nat.div_add_mod', hstays w' w hw hgt, hat w' hw']
    exact fun he => absurd (Nat.eq_of_mul_eq_mul_right hw' he) (Nat.ne_of_gt hmove)

end Llama.Swaps
