import Llama.Kv.CacheInv

/-!
# What `apply_ubatch` does to the cache

Outside its slot, `apply_ubatch` only purges: a cell loses every sequence whose position
there is not above a position of that sequence that the ubatch has overwritten.
-/

namespace Llama.Kv

open List Function

/-- `x'` is `x` after some of its sequences were removed. -/
structure Cell.Shrunk (x x' : Cell) : Prop where
  sub : x'.seq ⊆ x.seq
  eq : x'.seq = x.seq → x'.pos = x.pos ∧ x'.ext = x.ext

theorem Cell.Shrunk.refl (x : Cell) : x.Shrunk x := ⟨Finset.Subset.refl _, fun _ => ⟨rfl, rfl⟩⟩

theorem Cell.Shrunk.trans {x y z : Cell} (h : x.Shrunk y) (h' : y.Shrunk z) : x.Shrunk z where
  sub := h'.sub.trans h.sub
  eq he := by
    have hy : y.seq = x.seq := Finset.Subset.antisymm h.sub (he ▸ h'.sub)
    obtain ⟨h1, h2⟩ := h.eq hy
    obtain ⟨h3, h4⟩ := h'.eq (he.trans hy.symm)
    exact ⟨h3.trans h1, h4.trans h2⟩

/-- Effect of the purge of one sequence on one record. -/
def Cell.dropBelow (q : SeqId) (m : Int) (x : Cell) : Cell :=
  if q ∈ x.seq ∧ x.pos ≤ m then x.without q else x

theorem Cell.dropBelow_shrunk (q : SeqId) (m : Int) (x : Cell) : x.Shrunk (x.dropBelow q m) := by
  unfold Cell.dropBelow
  split
  · rename_i h
    have hne : x.seq.erase q ≠ x.seq := fun he => by
      have := Finset.notMem_erase q x.seq
      rw [he] at this
      exact this h.1
    unfold Cell.without
    split
    · rename_i he
      refine ⟨Finset.empty_subset _, fun h' => ?_⟩
      exact absurd (he.trans h') hne
    · exact ⟨Finset.erase_subset _ _, fun h' => absurd h' hne⟩
  · exact Cell.Shrunk.refl x

theorem Cell.mem_dropBelow (q r : SeqId) (m : Int) (x : Cell) :
    r ∈ (x.dropBelow q m).seq ↔ r ∈ x.seq ∧ ¬ (r = q ∧ x.pos ≤ m) := by
  unfold Cell.dropBelow
  split
  · rename_i h
    unfold Cell.without
    split
    · rename_i he
      have : r ∉ x.seq.erase q := by simp [he]
      rw [Finset.mem_erase] at this
      have hp := h.2
      simp only [Finset.notMem_empty, false_iff]
      tauto
    · have hp := h.2
      simp only [Finset.mem_erase]
      tauto
  · rename_i h
    constructor
    · intro hr
      exact ⟨hr, fun ⟨he, hp⟩ => h ⟨he ▸ hr, hp⟩⟩
    · exact And.left

variable {q : SeqId} {r : Cache.RmMax} {x : Cell}

theorem Cell.pos_dropBelow {r : SeqId} {m : Int} (h : r ∈ (x.dropBelow q m).seq) :
    (x.dropBelow q m).pos = x.pos := by
  unfold Cell.dropBelow at h ⊢
  split
  · rename_i hq
    rw [if_pos hq] at h
    unfold Cell.without at h ⊢
    split
    · rename_i he
      rw [if_pos he] at h
      simp at h
    · rfl
  · rfl

/-- What the purge leaves of a record. -/
def Cell.purged (r : Cache.RmMax) (x : Cell) : Cell :=
  (finRange maxSeq).foldl (fun x q => x.dropBelow q (r q)) x

private theorem purge_foldl (r : Cache.RmMax) : ∀ (l : List SeqId) (x : Cell),
    x.Shrunk (l.foldl (fun x q => x.dropBelow q (r q)) x) ∧
      ∀ q, q ∈ (l.foldl (fun x q => x.dropBelow q (r q)) x).seq ↔
        q ∈ x.seq ∧ ¬ (q ∈ l ∧ x.pos ≤ r q)
  | [], x => ⟨Cell.Shrunk.refl x, by simp⟩
  | a :: l, x => by
    obtain ⟨h1, h2⟩ := purge_foldl r l (x.dropBelow a (r a))
    refine ⟨(x.dropBelow_shrunk a (r a)).trans h1, fun q => ?_⟩
    rw [foldl_cons, h2, mem_cons]
    constructor
    · rintro ⟨hq, hn⟩
      rw [Cell.pos_dropBelow hq] at hn
      obtain ⟨hm, hn'⟩ := (Cell.mem_dropBelow a q (r a) x).mp hq
      refine ⟨hm, ?_⟩
      rintro ⟨rfl | hl, hp⟩
      · exact hn' ⟨rfl, hp⟩
      · exact hn ⟨hl, hp⟩
    · rintro ⟨hm, hn⟩
      have hq := (Cell.mem_dropBelow a q (r a) x).mpr ⟨hm, fun ⟨he, hp⟩ => hn ⟨.inl he, he ▸ hp⟩⟩
      refine ⟨hq, ?_⟩
      rw [Cell.pos_dropBelow hq]
      exact fun ⟨hl, hp⟩ => hn ⟨.inr hl, hp⟩

theorem Cell.purged_shrunk (r : Cache.RmMax) (x : Cell) : x.Shrunk (x.purged r) :=
  (purge_foldl r _ x).1

theorem Cell.mem_purged : q ∈ (x.purged r).seq ↔ q ∈ x.seq ∧ r q < x.pos := by
  rw [Cell.purged, (purge_foldl r _ x).2]
  simp

/-- A record that keeps a sequence keeps its place. -/
private theorem purge_foldl_pos (r : Cache.RmMax) {q : SeqId} : ∀ (l : List SeqId) {x : Cell},
    q ∈ x.seq → r q < x.pos → (l.foldl (fun x q => x.dropBelow q (r q)) x).pos = x.pos
  | [], _, _, _ => rfl
  | a :: l, x, hq, hp => by
    have hmem : q ∈ (x.dropBelow a (r a)).seq := by
      rw [Cell.mem_dropBelow]
      refine ⟨hq, ?_⟩
      rintro ⟨rfl, hle⟩
      omega
    have hpos := Cell.pos_dropBelow hmem
    rw [foldl_cons, purge_foldl_pos r l hmem (by rwa [hpos]), hpos]

theorem Cell.pos_purged (hq : q ∈ x.seq) (hp : r q < x.pos) : (x.purged r).pos = x.pos := by
  rw [Cell.purged, purge_foldl_pos r (finRange maxSeq) hq hp]

/-- The slot contains cell `i` of stream `t`. -/
def SlotInfo.Covers (si : SlotInfo) (t i : Nat) : Prop :=
  ∃ s < si.strm.length, si.strmAt s = t ∧ i ∈ si.idxsAt s

namespace Cache

variable {c : Cache} {u : Ubatch} {si : SlotInfo}

/-- The slot contains a cell of sequence `q` at position `p` or above. -/
def Overwrites (c : Cache) (si : SlotInfo) (q : SeqId) (p : Int) : Prop :=
  ∃ s < si.strm.length, ∃ i ∈ si.idxsAt s,
    q ∈ ((c.cells (si.strmAt s)).cell i).seq ∧ p ≤ ((c.cells (si.strmAt s)).cell i).pos

variable {q : SeqId} {t k s : Nat} {st : Cache × RmMax}

/-- An overwritten sequence belongs to a stream of the slot. -/
theorem Inv.home_of_overwrites (h : c.Inv) (hs : si.Fits c u) {p : Int} (ho : c.Overwrites si q p) :
    ∃ s < si.strm.length, c.cfg.Home (si.strmAt s) q := by
  obtain ⟨s, hlt, i, hi, hq, -⟩ := ho
  exact ⟨s, hlt, (h.cells _ (hs.stream s hlt)).home i (hs.usable s hlt i hi).1 q hq⟩

@[simp] theorem lowerHead_cells (c : Cache) (t m : Nat) : (c.lowerHead t m).cells = c.cells := by
  unfold lowerHead
  split <;> rfl

@[simp] theorem lowerHead_cfg (c : Cache) (t m : Nat) : (c.lowerHead t m).cfg = c.cfg := by
  unfold lowerHead
  split <;> rfl

@[simp] theorem lowerHead_ok (c : Cache) (t m : Nat) : (c.lowerHead t m).ok = c.ok := by
  unfold lowerHead
  split <;> rfl

theorem lowerHead_heads_of_ne (c : Cache) {t' : Nat} (m : Nat) (h : t' ≠ t) :
    (c.lowerHead t m).heads t' = c.heads t' := by
  unfold lowerHead
  split
  · exact update_of_ne h _ _
  · rfl

theorem lowerHead_heads_le (c : Cache) (t t' m : Nat) :
    (c.lowerHead t m).heads t' ≤ c.heads t' := by
  by_cases h : t' = t
  · subst h
    unfold lowerHead
    split
    · rename_i hm
      simpa [setHead] using le_of_lt hm.2
    · exact le_refl _
  · rw [lowerHead_heads_of_ne c m h]

/-- Overwriting a stream by a good one. -/
theorem Inv.setCells (h : c.Inv) {t : Nat} {x : Cells}
    (hx : x.Good c.cfg.kvSize (c.cfg.Home t)) : (c.setCells t x).Inv where
  cfg := h.cfg
  ok := h.ok
  cells t' ht' := by
    by_cases he : t' = t
    · subst he
      simpa [Cache.setCells] using hx
    · simpa [Cache.setCells, update_of_ne he] using h.cells t' ht'
  heads := h.heads

theorem Inv.setHead (h : c.Inv) {t m : Nat} (hm : m ≤ c.cfg.kvSize) : (c.setHead t m).Inv where
  cfg := h.cfg
  ok := h.ok
  cells := h.cells
  heads t' ht' := by
    by_cases he : t' = t
    · subst he
      simpa [Cache.setHead] using hm
    · simpa [Cache.setHead, update_of_ne he] using h.heads t' ht'

/-- A sweep that leaves its stream good keeps the invariant. -/
theorem Inv.sweep (h : c.Inv) {t : Nat} {body : Cells × Nat → Nat → Cells × Nat}
    (hx : ((range (c.cells t).size).foldl body (c.cells t, (c.cells t).size)).1.Good
      c.cfg.kvSize (c.cfg.Home t)) : (c.sweep t body).Inv := by
  have hi := h.setCells hx
  refine ⟨?_, ?_, ?_, ?_⟩
  · simpa [Cache.sweep] using hi.cfg
  · simpa [Cache.sweep] using hi.ok
  · simpa [Cache.sweep] using hi.cells
  · intro t' ht'
    rw [Cache.sweep, lowerHead_cfg] at ht'
    rw [Cache.sweep, lowerHead_cfg]
    exact (lowerHead_heads_le _ _ _ _).trans (hi.heads t' ht')

theorem assert_eq {p : Bool} (h : p = true) : c.assert p = c := by simp [Cache.assert, h]

/-- `seq_rm` of one sequence removes it from the records in range. -/
theorem Inv.seqRm_some (h : c.Inv) (hq : c.cfg.ValidSeq q) (p0 p1 : Int) :
    (c.seqRm (some q) p0 p1).Inv ∧ (c.seqRm (some q) p0 p1).cfg = c.cfg ∧
      (∀ t, t ≠ c.cfg.seqToStream q → (c.seqRm (some q) p0 p1).cells t = c.cells t) ∧
      (∀ i < c.cfg.kvSize, ((c.seqRm (some q) p0 p1).cells (c.cfg.seqToStream q)).cell i =
        ((c.cells (c.cfg.seqToStream q)).cell i).seqRmRange q (lower p0) (upper p1)) ∧
      ∀ t, t ≠ c.cfg.seqToStream q → (c.seqRm (some q) p0 p1).heads t = c.heads t := by
  have hg := h.cells _ (h.cfg.seqToStream_lt hq)
  have hloop := seqRm_loop q (upper p1) (lower_nonneg p0) hg (c.cells (c.cfg.seqToStream q)).size
  rw [← hg.size] at hloop
  have hass : c.assert (decide (c.cfg.ValidSeq q)) = c := assert_eq (decide_eq_true hq)
  simp only [Cache.seqRm, hass]
  refine ⟨h.sweep (by rw [← hg.size]; exact hloop.1), by simp [Cache.sweep, Cache.setCells],
    fun t ht => ?_, fun i hi => ?_, fun t ht => ?_⟩
  · simp [Cache.sweep, Cache.setCells, update_of_ne ht]
  · have := hloop.2 i
    rw [if_pos (hg.lt_size hi)] at this
    simpa [Cache.sweep, Cache.setCells] using this
  · rw [Cache.sweep, lowerHead_heads_of_ne _ _ ht]
    rfl

/-- State after the placing loop over the first `k` entries of the slot. -/
structure Placed (c : Cache) (si : SlotInfo) (k : Nat) (st : Cache × RmMax) : Prop where
  inv : st.1.Inv
  cfg : st.1.cfg = c.cfg
  heads : st.1.heads = c.heads
  other : ∀ t, (∀ s < k, si.strmAt s ≠ t) → st.1.cells t = c.cells t
  outside : ∀ t i, (∀ s < k, si.strmAt s = t → i ∉ si.idxsAt s) →
    (st.1.cells t).cell i = (c.cells t).cell i
  maxima : ∀ q p, p ≤ st.2 q ↔ p ≤ -1 ∨ ∃ s < k, ∃ i ∈ si.idxsAt s,
    q ∈ ((c.cells (si.strmAt s)).cell i).seq ∧ p ≤ ((c.cells (si.strmAt s)).cell i).pos

theorem Fits.token (hs : si.Fits c u) (hu : u.Sound) (hlt : s < si.strm.length) (hk : k < si.size) :
    u.Token (c.cfg.Home (si.strmAt s)) (s * si.size + k) := by
  have hi : s * si.size + k < u.nTokens := by
    rw [hs.tokens]
    calc s * si.size + k < (s + 1) * si.size := by rw [Nat.add_mul]; omega
      _ ≤ si.strm.length * si.size := Nat.mul_le_mul_right _ hlt
  obtain ⟨h1, h2, h3⟩ := hu _ hi
  exact ⟨h1, h2, h3, hs.home s hlt k hk⟩

theorem Fits.strmAt_inj (hs : si.Fits c u) {s' : Nat} (h : s < si.strm.length)
    (h' : s' < si.strm.length) (he : si.strmAt s = si.strmAt s') : s = s' := by
  rw [SlotInfo.strmAt, SlotInfo.strmAt, getD_eq_getElem _ _ h, getD_eq_getElem _ _ h'] at he
  exact hs.nodup.getElem_inj_iff.mp he

section

variable (hst : Placed c si k st) (h : c.Inv) (hs : si.Fits c u) (hu : u.Sound)
  (hk : k < si.strm.length)
include hst h hs hu hk

/-- What one turn of the outer placing loop does to its stream: the cells of the entry take
the records of the tokens, the others stay. -/
theorem Placed.turn : ∃ x r, placeStream u si st k = (st.1.setCells (si.strmAt k) x, r) ∧
      x.Good c.cfg.kvSize (c.cfg.Home (si.strmAt k)) ∧
      (∀ i, i ∉ si.idxsAt k → x.cell i = (c.cells (si.strmAt k)).cell i) ∧
      (∀ j < si.size, x.cell ((si.idxsAt k).getD j 0) =
        u.record (k * si.size + j) ((c.cells (si.strmAt k)).cell ((si.idxsAt k).getD j 0))) ∧
      ∀ q p, p ≤ r q ↔ p ≤ st.2 q ∨ ∃ i ∈ si.idxsAt k,
        q ∈ ((c.cells (si.strmAt k)).cell i).seq ∧ p ≤ ((c.cells (si.strmAt k)).cell i).pos := by
  have hsame : st.1.cells (si.strmAt k) = c.cells (si.strmAt k) :=
    hst.other _ fun s hlt he => by
      have := Fits.strmAt_inj hs (by omega) hk he
      omega
  have hg := h.cells _ (hs.stream k hk)
  have hloop := placeLoop_spec (u := u) (b := k * si.size) hg st.2 (hs.idxsNodup k hk)
    (fun i hi => ⟨(hs.usable k hk i hi).1,
      hg.canUse_cases (hs.usable k hk i hi).1 (hs.usable k hk i hi).2⟩)
    (fun j hj => Fits.token hs hu hk (by rwa [hs.size k hk] at hj))
  rw [hs.size k hk] at hloop
  exact ⟨_, _, by rw [placeStream, hsame], hloop⟩

/-- One turn of the outer placing loop. -/
theorem Placed.step : Placed c si (k + 1) (placeStream u si st k) := by
  obtain ⟨x, r, heq, hgood, hout, -, hmax⟩ := hst.turn h hs hu hk
  rw [heq]
  refine ⟨hst.inv.setCells (by rw [hst.cfg]; exact hgood), hst.cfg, hst.heads, fun t ht => ?_,
    fun t i hi => ?_, fun q p => ?_⟩
  · have hne : t ≠ si.strmAt k := fun he => ht k (Nat.lt_succ_self k) he.symm
    simp only [Cache.setCells, update_of_ne hne]
    exact hst.other t fun s hlt => ht s (by omega)
  · by_cases he : t = si.strmAt k
    · subst he
      simp only [Cache.setCells, update_self]
      exact hout i (hi k (Nat.lt_succ_self k) rfl)
    · simp only [Cache.setCells, update_of_ne he]
      exact hst.outside t i fun s hlt => hi s (by omega)
  · rw [hmax q p, hst.maxima q p]
    constructor
    · rintro ((hp | ⟨s, hlt, hp⟩) | hp)
      · exact .inl hp
      · exact .inr ⟨s, by omega, hp⟩
      · exact .inr ⟨k, by omega, hp⟩
    · rintro (hp | ⟨s, hlt, hp⟩)
      · exact .inl (.inl hp)
      · by_cases he : s = k
        · subst he
          exact .inr hp
        · exact .inl (.inr ⟨s, by omega, hp⟩)

end

theorem placed_all (h : c.Inv) (hs : si.Fits c u) (hu : u.Sound) :
    Placed c si si.strm.length
      ((range si.strm.length).foldl (placeStream u si) (c, fun _ => -1)) := by
  apply Loop.foldl_range_induction (motive := fun k st => Placed c si k st)
  · exact ⟨h, rfl, rfl, fun _ _ => rfl, fun _ _ _ => rfl, by simp⟩
  · intro k hk st hst
    exact hst.step h hs hu hk

/-- One purge: below the overwritten maximum the sequence disappears from every cell. -/
theorem Inv.purgeSeq (h : c.Inv) {r : RmMax} {q : SeqId} (hr : -1 ≤ r q)
    (hq : r q ≠ -1 → c.cfg.ValidSeq q) :
    (purgeSeq r c q).Inv ∧ (purgeSeq r c q).cfg = c.cfg ∧
      (∀ t < c.cfg.nStream, ∀ i < c.cfg.kvSize, ((purgeSeq r c q).cells t).cell i =
        ((c.cells t).cell i).dropBelow q (r q)) ∧
      ∀ t, (r q ≠ -1 → t ≠ c.cfg.seqToStream q) → (purgeSeq r c q).heads t = c.heads t := by
  -- cells that the purge does not reach
  have hkeep : ∀ t < c.cfg.nStream, ∀ i < c.cfg.kvSize,
      (q ∈ ((c.cells t).cell i).seq → r q < ((c.cells t).cell i).pos) →
      (c.cells t).cell i = ((c.cells t).cell i).dropBelow q (r q) := by
    intro t _ i _ hno
    rw [Cell.dropBelow, if_neg]
    rintro ⟨hm, hp⟩
    have := hno hm
    omega
  by_cases hneg : r q = -1
  · rw [Cache.purgeSeq, if_pos hneg]
    refine ⟨h, rfl, fun t ht i hi => hkeep t ht i hi fun hm => ?_, fun _ _ => rfl⟩
    have := (h.cells t ht).pos_of_mem hi hm
    omega
  · have hvalid := hq hneg
    have hlt := h.cfg.seqToStream_lt hvalid
    have hg := h.cells _ hlt
    rw [Cache.purgeSeq, if_neg hneg, assert_eq (decide_eq_true hvalid)]
    have hhome : ∀ t < c.cfg.nStream, t ≠ c.cfg.seqToStream q → ∀ i < c.cfg.kvSize,
        q ∉ ((c.cells t).cell i).seq := fun t ht hne i hi hm =>
      hne ((h.cells t ht).home i hi q hm).2.symm
    have hmin : ∀ i < c.cfg.kvSize, q ∈ ((c.cells (c.cfg.seqToStream q)).cell i).seq →
        0 ≤ c.seqPosMin q ∧
          c.seqPosMin q ≤ ((c.cells (c.cfg.seqToStream q)).cell i).pos := by
      intro i hi hm
      rcases hg.toInv.seqPosMin_spec q with ⟨j, hj, hjq, hjp, hall⟩ | ⟨hnone, -⟩
      · refine ⟨?_, hall i (hg.lt_size hi) hm⟩
        rw [Cache.seqPosMin, ← hjp]
        exact hg.pos_of_mem (by rwa [hg.size] at hj) hjq
      · exact absurd hm (hnone i (hg.lt_size hi))
    by_cases hle : c.seqPosMin q ≤ r q
    · rw [if_pos hle]
      obtain ⟨hinv, hcfg, hother, hcell, hheads⟩ := h.seqRm_some hvalid (c.seqPosMin q) (r q + 1)
      refine ⟨hinv, hcfg, fun t ht i hi => ?_, fun t ht => hheads t (ht hneg)⟩
      by_cases he : t = c.cfg.seqToStream q
      · subst he
        rw [hcell i hi]
        have hup : upper (r q + 1) = r q + 1 := by
          unfold upper
          rw [if_neg (by omega)]
        rw [Cell.seqRmRange, Cell.dropBelow, hup]
        by_cases hm : q ∈ ((c.cells (c.cfg.seqToStream q)).cell i).seq
        · obtain ⟨h0, h1⟩ := hmin i hi hm
          have hlow : lower (c.seqPosMin q) = c.seqPosMin q := by
            unfold lower
            rw [if_neg (by omega)]
          simp only [hlow, h1, hm, true_and, and_true, Int.lt_add_one_iff]
        · simp [hm]
      · rw [hother t he]
        exact hkeep t ht i hi fun hm => absurd hm (hhome t ht he i hi)
    · rw [if_neg hle]
      refine ⟨h, rfl, fun t ht i hi => hkeep t ht i hi fun hm => ?_, fun _ _ => rfl⟩
      by_cases he : t = c.cfg.seqToStream q
      · subst he
        have := (hmin i hi hm).2
        omega
      · exact absurd hm (hhome t ht he i hi)

theorem Inv.purge_list {r : RmMax} (hr : ∀ q, -1 ≤ r q) : ∀ (l : List SeqId) {c : Cache},
    c.Inv → (∀ q, r q ≠ -1 → c.cfg.ValidSeq q) →
    (l.foldl (Cache.purgeSeq r) c).Inv ∧ (l.foldl (Cache.purgeSeq r) c).cfg = c.cfg ∧
      (∀ t < c.cfg.nStream, ∀ i < c.cfg.kvSize, ((l.foldl (Cache.purgeSeq r) c).cells t).cell i =
        l.foldl (fun x q => x.dropBelow q (r q)) ((c.cells t).cell i)) ∧
      ∀ t, (∀ q, r q ≠ -1 → t ≠ c.cfg.seqToStream q) →
        (l.foldl (Cache.purgeSeq r) c).heads t = c.heads t
  | [], c, h, _ => ⟨h, rfl, fun _ _ _ _ => rfl, fun _ _ => rfl⟩
  | q :: l, c, h, hq => by
    obtain ⟨h1, h2, h3, h4⟩ := h.purgeSeq (hr q) (hq q)
    obtain ⟨h1', h2', h3', h4'⟩ := Inv.purge_list hr l h1 (by rw [h2]; exact hq)
    rw [h2] at h2' h3' h4'
    refine ⟨h1', h2', fun t ht i hi => ?_, fun t ht => ?_⟩
    · rw [foldl_cons, h3' t ht i hi, h3 t ht i hi, foldl_cons]
    · rw [foldl_cons, h4' t ht, h4 t (ht q)]

theorem moveHead_loop (si : SlotInfo) (c : Cache) (k : Nat) :
    ((range k).foldl (moveHead si) c).cfg = c.cfg ∧
      ((range k).foldl (moveHead si) c).cells = c.cells ∧
      ((range k).foldl (moveHead si) c).ok = c.ok ∧
      (∀ t, (∀ s < k, si.strmAt s ≠ t) → ((range k).foldl (moveHead si) c).heads t = c.heads t) ∧
      ∀ n, (∀ s < k, (si.idxsAt s).getLastD 0 + 1 ≤ n) → ∀ t, c.heads t ≤ n →
        ((range k).foldl (moveHead si) c).heads t ≤ n := by
  induction k with
  | zero => exact ⟨rfl, rfl, rfl, fun _ _ => rfl, fun _ _ _ h => h⟩
  | succ k ih =>
    obtain ⟨h1, h2, h3, h4, h5⟩ := ih
    rw [range_succ, foldl_append]
    refine ⟨h1, h2, h3, fun t ht => ?_, fun n hn t ht => ?_⟩
    · have hne : t ≠ si.strmAt k := fun he => ht k (Nat.lt_succ_self k) he.symm
      simp only [foldl_cons, foldl_nil, moveHead, Cache.setHead, update_of_ne hne]
      exact h4 t fun s hs => ht s (by omega)
    · have hold := h5 n (fun s hs => hn s (by omega)) t ht
      have hnew := hn k (Nat.lt_succ_self k)
      by_cases he : t = si.strmAt k
      · subst he
        simpa [moveHead, Cache.setHead] using hnew
      · simpa [moveHead, Cache.setHead, update_of_ne he] using hold

section Steps

variable {st : Cache × RmMax}

section

variable (hpl : Placed c si si.strm.length st)
include hpl

theorem Placed.neg_one_le (q : SeqId) : -1 ≤ st.2 q := (hpl.maxima q (-1)).mpr (.inl (le_refl _))

/-- The maxima of the placing loop, in terms of the slot. -/
theorem Placed.le_iff_overwrites (q : SeqId) {p : Int} (hp : 0 ≤ p) :
    p ≤ st.2 q ↔ c.Overwrites si q p := by
  rw [hpl.maxima q p]
  constructor
  · rintro (h' | h')
    · omega
    · exact h'
  · exact .inr

theorem Placed.home (h : c.Inv) (hs : si.Fits c u) (hq : st.2 q ≠ -1) :
    ∃ s < si.strm.length, c.cfg.Home (si.strmAt s) q := by
  have := hpl.neg_one_le q
  exact h.home_of_overwrites hs ((hpl.le_iff_overwrites q (le_refl 0)).mp (by omega))

/-- What the purge after the placing loop does. -/
theorem Placed.purge (h : c.Inv) (hs : si.Fits c u) :
    ((finRange maxSeq).foldl (Cache.purgeSeq st.2) st.1).Inv ∧
      ((finRange maxSeq).foldl (Cache.purgeSeq st.2) st.1).cfg = c.cfg ∧
      (∀ t < c.cfg.nStream, ∀ i < c.cfg.kvSize,
        (((finRange maxSeq).foldl (Cache.purgeSeq st.2) st.1).cells t).cell i =
          ((st.1.cells t).cell i).purged st.2) ∧
      ∀ t, (∀ q, st.2 q ≠ -1 → t ≠ c.cfg.seqToStream q) →
        ((finRange maxSeq).foldl (Cache.purgeSeq st.2) st.1).heads t = st.1.heads t := by
  have key := Inv.purge_list hpl.neg_one_le (finRange maxSeq) hpl.inv (by
    intro q hq
    obtain ⟨s, -, hh⟩ := hpl.home h hs hq
    rw [hpl.cfg]
    exact hh.1)
  rwa [hpl.cfg] at key

end

end Steps

theorem applyUbatch_eq (hs : si.Fits c u) : c.applyUbatch si u =
    (range si.strm.length).foldl (moveHead si) ((finRange maxSeq).foldl
      (Cache.purgeSeq ((range si.strm.length).foldl (placeStream u si) (c, fun _ => -1)).2)
      ((range si.strm.length).foldl (placeStream u si) (c, fun _ => -1)).1) := by
  have hass : c.assert (u.nTokens == si.strm.length * si.size) = c :=
    assert_eq (by simpa using hs.tokens)
  rw [Cache.applyUbatch, hass]

/-- Every cell after `apply_ubatch`: the placing loop and then the purge. -/
theorem Inv.applyUbatch_cell (h : c.Inv) (hs : si.Fits c u) (hu : u.Sound) {i : Nat}
    (ht : t < c.cfg.nStream) (hi : i < c.cfg.kvSize) :
    ((c.applyUbatch si u).cells t).cell i =
      ((((range si.strm.length).foldl (placeStream u si) (c, fun _ => -1)).1.cells t).cell
        i).purged ((range si.strm.length).foldl (placeStream u si) (c, fun _ => -1)).2 := by
  rw [applyUbatch_eq hs, (moveHead_loop si _ si.strm.length).2.1]
  exact ((placed_all h hs hu).purge h hs).2.2.1 t ht i hi

/-- Effect of `apply_ubatch`, as far as it concerns the cells outside the slot. -/
structure Applied (c : Cache) (si : SlotInfo) (c' : Cache) : Prop where
  inv : c'.Inv
  cfg : c'.cfg = c.cfg
  heads : ∀ t, (∀ s < si.strm.length, si.strmAt s ≠ t) → c'.heads t = c.heads t
  shrunk : ∀ t < c.cfg.nStream, ∀ i < c.cfg.kvSize, ¬ si.Covers t i →
    ((c.cells t).cell i).Shrunk ((c'.cells t).cell i)
  /-- It loses those that the slot overwrites at its position or above. -/
  mem : ∀ t < c.cfg.nStream, ∀ i < c.cfg.kvSize, ¬ si.Covers t i → ∀ q,
    q ∈ ((c'.cells t).cell i).seq ↔
      q ∈ ((c.cells t).cell i).seq ∧ ¬ c.Overwrites si q ((c.cells t).cell i).pos

/-- `apply_ubatch` of a slot that fits keeps the invariant and purges outside the slot. -/
theorem Inv.applyUbatch (h : c.Inv) (hs : si.Fits c u) (hu : u.Sound) :
    Applied c si (c.applyUbatch si u) := by
  have hpl := placed_all h hs hu
  have hcell : ∀ t < c.cfg.nStream, ∀ i < c.cfg.kvSize, ¬ si.Covers t i →
      ((c.applyUbatch si u).cells t).cell i = ((c.cells t).cell i).purged
        ((range si.strm.length).foldl (placeStream u si) (c, fun _ => -1)).2 := by
    intro t ht i hi hcov
    rw [h.applyUbatch_cell hs hu ht hi, hpl.outside t i fun s hlt he hm => hcov ⟨s, hlt, he, hm⟩]
  rw [applyUbatch_eq hs] at hcell ⊢
  generalize (range si.strm.length).foldl (placeStream u si) (c, fun _ => -1) = st at hpl hcell ⊢
  obtain ⟨h1, h2, -, h4⟩ := hpl.purge h hs
  obtain ⟨m1, m2, m3, m4, m5⟩ := moveHead_loop si
    ((finRange maxSeq).foldl (Cache.purgeSeq st.2) st.1) si.strm.length
  refine ⟨⟨?_, ?_, ?_, ?_⟩, m1.trans h2, fun t ht => ?_, fun t ht i hi hcov => ?_,
    fun t ht i hi hcov q => ?_⟩
  · rw [m1]
    exact h1.cfg
  · rw [m3]
    exact h1.ok
  · rw [m1, m2]
    exact h1.cells
  · intro t ht
    rw [m1] at ht ⊢
    refine m5 _ (fun s hlt => ?_) t (h1.heads t ht)
    rw [h2]
    have hlen : 0 < (si.idxsAt s).length := by
      rw [hs.size s hlt]
      exact hs.pos
    have hne := ne_nil_of_length_pos hlen
    rw [getLastD_eq_getLast?, getLast?_eq_some_getLast hne]
    exact (hs.usable s hlt _ (getLast_mem hne)).1
  · rw [m4 t ht, h4 t ?_, hpl.heads]
    intro q hq
    obtain ⟨s, hlt, hh⟩ := hpl.home h hs hq
    rw [hh.2]
    exact fun he => ht s hlt he.symm
  · rw [hcell t ht i hi hcov]
    exact Cell.purged_shrunk _ _
  · rw [hcell t ht i hi hcov, Cell.mem_purged]
    constructor
    · rintro ⟨hq, hlt⟩
      refine ⟨hq, fun ho => ?_⟩
      have := (hpl.le_iff_overwrites q ((h.cells t ht).pos_of_mem hi hq)).mpr ho
      omega
    · rintro ⟨hq, hno⟩
      refine ⟨hq, ?_⟩
      by_contra hle
      exact hno ((hpl.le_iff_overwrites q ((h.cells t ht).pos_of_mem hi hq)).mp (by omega))

end Cache

end Llama.Kv
