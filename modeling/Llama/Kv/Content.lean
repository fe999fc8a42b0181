import Llama.Kv.Tidy

/-!
# What a cache without a sliding window contains

Without a sliding window a slot consists of empty cells. Placing an ubatch then adds the
positions of its tokens and removes none, a dry run leaves every record as it was, and
`seq_rm` removes exactly a range of one sequence. Only records are considered: none of the
assertions of the cells is used.
-/

namespace Llama.Kv

open List Function

/-- What is left of a record after `seq_rm`, seen from a sequence. -/
theorem Cell.mem_seqRmRange {q r : SeqId} {p0 p1 p : Int} {e : Cell} :
    r ∈ (e.seqRmRange q p0 p1).seq ∧ (e.seqRmRange q p0 p1).pos = p ↔
      (r ∈ e.seq ∧ e.pos = p) ∧ ¬ (r = q ∧ p0 ≤ p ∧ p < p1) := by
  unfold Cell.seqRmRange Cell.without
  by_cases hin : (p0 ≤ e.pos ∧ e.pos < p1) ∧ q ∈ e.seq
  · rw [if_pos hin]
    by_cases he : e.seq.erase q = ∅
    · -- the sequence was the only one
      rw [if_pos he]
      have honly : ∀ s ∈ e.seq, s = q := fun s hs => by
        by_contra hne
        exact Finset.notMem_empty s (he ▸ Finset.mem_erase.mpr ⟨hne, hs⟩)
      constructor
      · rintro ⟨hr, -⟩
        cases hr
      · rintro ⟨⟨hr, rfl⟩, hn⟩
        exact (hn ⟨honly r hr, hin.1⟩).elim
    · rw [if_neg he, Finset.mem_erase]
      constructor
      · rintro ⟨⟨hne, hr⟩, rfl⟩
        exact ⟨⟨hr, rfl⟩, fun h => hne h.1⟩
      · rintro ⟨⟨hr, rfl⟩, hn⟩
        exact ⟨⟨fun h => hn ⟨h, hin.1⟩, hr⟩, rfl⟩
  · rw [if_neg hin]
    constructor
    · rintro ⟨hr, rfl⟩
      exact ⟨⟨hr, rfl⟩, fun ⟨h, hp⟩ => hin ⟨hp, h ▸ hr⟩⟩
    · exact And.left

namespace Cells

theorem set_cp_cell (y : Cells) : ∀ (l : List Nat) (x : Cells),
    (∀ i ∈ l, ((x.set l (y.cp l)).cell i).pos = (y.cell i).pos ∧
      ((x.set l (y.cp l)).cell i).seq = (y.cell i).seq) ∧
      ∀ i, i ∉ l → (x.set l (y.cp l)).cell i = x.cell i
  | [], _ => ⟨by simp, fun _ _ => rfl⟩
  | j :: l, x => by
    obtain ⟨hin, hout⟩ := set_cp_cell y l (x.setOne j { y.cell j with shift := 0 })
    have heq : x.set (j :: l) (y.cp (j :: l)) =
        (x.setOne j { y.cell j with shift := 0 }).set l (y.cp l) := rfl
    rw [heq]
    refine ⟨fun i hi => ?_, fun i hi => ?_⟩
    · by_cases hm : i ∈ l
      · exact hin i hm
      · obtain rfl : i = j := (mem_cons.mp hi).resolve_right hm
        rw [hout i hm, setOne_cell]
        simp [Cells.put]
    · have hij : i ≠ j := fun he => hi (he ▸ mem_cons_self)
      rw [hout i fun hm => hi (mem_cons_of_mem j hm), setOne_cell]
      simp [Cells.put, hij]

theorem seqAdds_cell (idx : Nat) : ∀ (l : List SeqId) (x : Cells),
    (l.foldl (fun x q => x.seqAdd idx q) x).cell =
      update x.cell idx { x.cell idx with seq := (x.cell idx).seq ∪ l.toFinset }
  | [], x => by simp
  | q :: l, x => by
    have hcell : (x.seqAdd idx q).cell =
        update x.cell idx { x.cell idx with seq := insert q (x.cell idx).seq } := rfl
    rw [foldl_cons, seqAdds_cell idx l, hcell, update_self, update_idem]
    congr 2
    rw [toFinset_cons, Finset.union_insert, Finset.insert_union]

end Cells

namespace Cache

variable {c d : Cache} {u : Ubatch} {si : SlotInfo} {f : Config}

/-- A cell of the sequence's stream holds the sequence at the position. -/
def Contains (c : Cache) (q : SeqId) (p : Int) : Prop :=
  ∃ i < (c.cells (c.cfg.seqToStream q)).size,
    q ∈ ((c.cells (c.cfg.seqToStream q)).cell i).seq ∧
      ((c.cells (c.cfg.seqToStream q)).cell i).pos = p

theorem seqRmStep_cells (q : SeqId) (p0 p1 : Int) (x : Cells) (i : Nat) :
    (seqRmStep q p0 p1 x i).size = x.size ∧ (seqRmStep q p0 p1 x i).cell =
      update x.cell i ((x.cell i).seqRmRange q p0 p1) := by
  rw [seqRmStep, seqRmBody_eq, Cell.seqRmRange]
  split
  · rw [Cells.seqRm, Cell.without]
    by_cases he : (x.cell i).seq.erase q = ∅
    · simp [he, Cells.assert, Cells.put, Cells.seqPosDec, Cells.usedErase]
    · simp [he, Cells.assert, Cells.put, Cells.seqPosDec]
  · exact ⟨rfl, (update_eq_self i x.cell).symm⟩

theorem seqRm_cells (q : SeqId) (p0 p1 : Int) (x : Cells) (m : Nat) :
    ((range x.size).foldl (seqRmBody q p0 p1) (x, m)).1.size = x.size ∧
      ∀ j, ((range x.size).foldl (seqRmBody q p0 p1) (x, m)).1.cell j =
        if j < x.size then (x.cell j).seqRmRange q p0 p1 else x.cell j := by
  rw [Loop.foldl_fst (seqRmBody_fst q p0 p1)]
  exact Loop.foldl_range_table (I := fun y => y.size = x.size) (t := Cells.cell)
    (p := fun _ _ => True) (g := fun _ => Cell.seqRmRange q p0 p1) rfl (fun _ _ => trivial)
    fun y i _ hy _ => ⟨(seqRmStep_cells q p0 p1 y i).1.trans hy, (seqRmStep_cells q p0 p1 y i).2⟩

theorem sweep_cells (c : Cache) (t : Nat) (body : Cells × Nat → Nat → Cells × Nat) :
    (c.sweep t body).cfg = c.cfg ∧ (c.sweep t body).cells = update c.cells t
      ((range (c.cells t).size).foldl body (c.cells t, (c.cells t).size)).1 := by
  simp only [sweep, lowerHead]
  split <;> exact ⟨rfl, rfl⟩

/-- The cell of the sequence's stream holds the sequence at the position. -/
def CellAt (c : Cache) (q : SeqId) (i : Nat) (p : Int) : Prop :=
  i < (c.cells (c.cfg.seqToStream q)).size ∧
    q ∈ ((c.cells (c.cfg.seqToStream q)).cell i).seq ∧
      ((c.cells (c.cfg.seqToStream q)).cell i).pos = p

/-- `seq_rm` takes the sequence out of the cells with a position in the range. -/
theorem cellAt_seqRm {q r : SeqId} {p0 p1 p : Int} {i : Nat} :
    (c.seqRm (some q) p0 p1).CellAt r i p ↔
      c.CellAt r i p ∧ ¬ (r = q ∧ lower p0 ≤ p ∧ p < upper p1) := by
  obtain ⟨hcfg, hcells⟩ := sweep_cells (c.assert (decide (c.cfg.ValidSeq q)))
    (c.cfg.seqToStream q) (seqRmBody q (lower p0) (upper p1))
  have hrm : c.seqRm (some q) p0 p1 = (c.assert (decide (c.cfg.ValidSeq q))).sweep
    (c.cfg.seqToStream q) (seqRmBody q (lower p0) (upper p1)) := rfl
  rw [← hrm] at hcfg hcells
  unfold CellAt
  rw [hcfg, hcells]
  simp only [assert]
  by_cases ht : c.cfg.seqToStream r = c.cfg.seqToStream q
  · rw [ht, update_self]
    obtain ⟨hsize, hcell⟩ := seqRm_cells q (lower p0) (upper p1) (c.cells (c.cfg.seqToStream q))
      (c.cells (c.cfg.seqToStream q)).size
    rw [hsize, hcell]
    by_cases hi : i < (c.cells (c.cfg.seqToStream q)).size
    · rw [if_pos hi, Cell.mem_seqRmRange]
      simp only [hi, true_and]
    · simp [hi]
  · rw [update_of_ne ht]
    exact ⟨fun h => ⟨h, fun he => ht (he.1 ▸ rfl)⟩, And.left⟩

/-- `seq_rm` of a sequence removes its positions in the range and nothing else. -/
theorem contains_seqRm (q r : SeqId) (p0 p1 p : Int) : (c.seqRm (some q) p0 p1).Contains r p ↔
    c.Contains r p ∧ ¬ (r = q ∧ lower p0 ≤ p ∧ p < upper p1) := by
  have hcontains : ∀ d : Cache, d.Contains r p ↔ ∃ i, d.CellAt r i p := fun _ => Iff.rfl
  simp only [hcontains, cellAt_seqRm, exists_and_right]

variable {i k s : Nat}

theorem placeToken_vacant {st : Cells × RmMax} {idx : Nat} (hp : (st.1.cell idx).pos = -1) :
    (placeToken u st idx i).2 = st.2 ∧ ∃ e, (placeToken u st idx i).1.cell =
      update st.1.cell idx e ∧ e.pos = u.pos i ∧
        e.seq = (st.1.cell idx).seq ∪ (u.seqId i).toFinset := by
  have hclear : clearFor st idx = (st.1.assert (st.1.isEmptyPre idx), st.2) := by
    simp [clearFor, Cells.isEmpty, hp]
  rw [placeToken_eq, hclear]
  refine ⟨rfl, ?_⟩
  dsimp only [writeToken]
  rw [Cells.seqAdds_cell]
  split
  · refine ⟨{ st.1.cell idx with
      pos := u.pos i, ext := u.ext i, seq := (st.1.cell idx).seq ∪ (u.seqId i).toFinset }, ?_,
        rfl, rfl⟩
    simp [Cells.extSet, Cells.posSet, Cells.put, Cells.usedInsert, Cells.assert]
  · refine ⟨{ st.1.cell idx with
      pos := u.pos i, seq := (st.1.cell idx).seq ∪ (u.seqId i).toFinset }, ?_, rfl, rfl⟩
    simp [Cells.posSet, Cells.put, Cells.usedInsert, Cells.assert]

/-- A slot of empty cells. -/
structure Vacant (c : Cache) (si : SlotInfo) : Prop where
  len : si.idxs.length = si.strm.length
  nodup : si.strm.Nodup
  size : ∀ s < si.strm.length, (si.idxsAt s).length = si.size
  idxsNodup : ∀ s < si.strm.length, (si.idxsAt s).Nodup
  inside : ∀ s < si.strm.length, ∀ i ∈ si.idxsAt s, i < (c.cells (si.strmAt s)).size
  pos : ∀ s < si.strm.length, ∀ i ∈ si.idxsAt s, ((c.cells (si.strmAt s)).cell i).pos = -1
  seq : ∀ s < si.strm.length, ∀ i ∈ si.idxsAt s, ((c.cells (si.strmAt s)).cell i).seq = ∅

/-- The cache after an ubatch was written into the first `n` entries of a slot of empty cells. -/
structure Written (c : Cache) (si : SlotInfo) (u : Ubatch) (n : Nat) (d : Cache) : Prop where
  cfg : d.cfg = c.cfg
  size : ∀ t, (d.cells t).size = (c.cells t).size
  inside : ∀ s < n, ∀ k < si.size,
    ((d.cells (si.strmAt s)).cell ((si.idxsAt s).getD k 0)).pos = u.pos (s * si.size + k) ∧
      ((d.cells (si.strmAt s)).cell ((si.idxsAt s).getD k 0)).seq =
        (u.seqId (s * si.size + k)).toFinset
  outside : ∀ t i, (∀ s < n, si.strmAt s = t → i ∉ si.idxsAt s) →
    (d.cells t).cell i = (c.cells t).cell i

/-- The placing loop over different empty cells. -/
theorem placeTokens_vacant : ∀ (l : List (Nat × Nat)) (st : Cells × RmMax),
    (l.map Prod.fst).Nodup →
    (∀ e ∈ l, (st.1.cell e.1).pos = -1 ∧ (st.1.cell e.1).seq = ∅) →
    (l.foldl (fun st e => placeToken u st e.1 e.2) st).2 = st.2 ∧
      (∀ e ∈ l, ((l.foldl (fun st e => placeToken u st e.1 e.2) st).1.cell e.1).pos = u.pos e.2 ∧
        ((l.foldl (fun st e => placeToken u st e.1 e.2) st).1.cell e.1).seq =
          (u.seqId e.2).toFinset) ∧
      ∀ j, j ∉ l.map Prod.fst →
        (l.foldl (fun st e => placeToken u st e.1 e.2) st).1.cell j = st.1.cell j
  | [], _, _, _ => ⟨rfl, by simp, fun _ _ => rfl⟩
  | e :: l, st, hnd, hv => by
    obtain ⟨hnot, hnd'⟩ := nodup_cons.mp hnd
    obtain ⟨hp, hs⟩ := hv e mem_cons_self
    obtain ⟨hr, x, hcell, hxp, hxs⟩ := placeToken_vacant (u := u) (i := e.2) hp
    have hne : ∀ e' ∈ l, e'.1 ≠ e.1 := fun e' he' h => hnot (h ▸ mem_map_of_mem he')
    obtain ⟨h1, h2, h3⟩ := placeTokens_vacant l (placeToken u st e.1 e.2) hnd' fun e' he' => by
      rw [hcell, update_of_ne (hne e' he')]
      exact hv e' (mem_cons_of_mem e he')
    rw [foldl_cons]
    refine ⟨h1.trans hr, fun e' he' => ?_, fun j hj => ?_⟩
    · rcases mem_cons.mp he' with rfl | he'
      · rw [h3 _ hnot, hcell, update_self, hxp, hxs, hs, Finset.empty_union]
        exact ⟨rfl, rfl⟩
      · exact h2 e' he'
    · rw [map_cons, mem_cons, not_or] at hj
      rw [h3 j hj.2, hcell, update_of_ne hj.1]

theorem Vacant.strmAt_ne (hv : c.Vacant si) (hs : s < k) (hk : k < si.strm.length) :
    si.strmAt s ≠ si.strmAt k := by
  have hs' : s < si.strm.length := hs.trans hk
  intro he
  rw [SlotInfo.strmAt, SlotInfo.strmAt, getD_eq_getElem _ _ hs', getD_eq_getElem _ _ hk] at he
  have := (List.Nodup.getElem_inj_iff hv.nodup).mp he
  omega

theorem Written.placeStream {n : Nat} {r : RmMax} (h : Written c si u n d) (hv : c.Vacant si)
    (hn : n < si.strm.length) : (Cache.placeStream u si (d, r) n).2 = r ∧
      Written c si u (n + 1) (Cache.placeStream u si (d, r) n).1 := by
  have hfresh : ∀ i, (d.cells (si.strmAt n)).cell i = (c.cells (si.strmAt n)).cell i := fun i =>
    h.outside _ i fun s hs he => (hv.strmAt_ne hs hn he).elim
  have hlen := hv.size n hn
  -- the loop as one over pairs of a cell and a token
  have hfold : (range si.size).foldl (fun st ii => placeToken u st ((si.idxsAt n).getD ii 0)
      (n * si.size + ii)) (d.cells (si.strmAt n), r) = ((range si.size).map fun ii =>
        ((si.idxsAt n).getD ii 0, n * si.size + ii)).foldl (fun st e => placeToken u st e.1 e.2)
          (d.cells (si.strmAt n), r) := by
    rw [foldl_map]
  have hfst : ((range si.size).map fun ii => ((si.idxsAt n).getD ii 0, n * si.size + ii)).map
      Prod.fst = si.idxsAt n := by
    rw [map_map]
    refine ext_getElem (by simp [hlen]) fun i h1 h2 => ?_
    simp [h2]
  obtain ⟨h1, h2, h3⟩ := placeTokens_vacant (u := u) ((range si.size).map fun ii =>
    ((si.idxsAt n).getD ii 0, n * si.size + ii)) (d.cells (si.strmAt n), r)
    (by rw [hfst]; exact hv.idxsNodup n hn) fun e he => by
      have hmem : e.1 ∈ si.idxsAt n := hfst ▸ mem_map_of_mem he
      rw [hfresh]
      exact ⟨hv.pos n hn _ hmem, hv.seq n hn _ hmem⟩
  rw [← hfold] at h1 h2 h3
  rw [hfst] at h3
  refine ⟨h1, h.cfg, fun t => ?_, fun s hs k hk => ?_, fun t i hi => ?_⟩
  · simp only [Cache.placeStream, Cache.setCells]
    by_cases ht : t = si.strmAt n
    · subst ht
      rw [update_self, Cells.foldl_fst_size (fun st _ => placeToken_size u st _ _), h.size]
    · rw [update_of_ne ht, h.size]
  · simp only [Cache.placeStream, Cache.setCells]
    by_cases he : s = n
    · subst he
      rw [update_self]
      exact h2 _ (mem_map.mpr ⟨k, mem_range.mpr hk, rfl⟩)
    · have hlt : s < n := by omega
      rw [update_of_ne (hv.strmAt_ne hlt hn)]
      exact h.inside s hlt k hk
  · simp only [Cache.placeStream, Cache.setCells]
    have hold := h.outside t i fun s hs => hi s (hs.trans (Nat.lt_succ_self n))
    by_cases ht : t = si.strmAt n
    · subst ht
      rw [update_self, h3 i (hi n (Nat.lt_succ_self n) rfl)]
      exact hold
    · rw [update_of_ne ht]
      exact hold

theorem applyUbatch_written (hv : c.Vacant si) (u : Ubatch) :
    Written c si u si.strm.length (c.applyUbatch si u) := by
  have hplace : ((range si.strm.length).foldl (placeStream u si)
        (c.assert (u.nTokens == si.strm.length * si.size), fun _ => -1)).2 = (fun _ => -1) ∧
      Written c si u si.strm.length ((range si.strm.length).foldl (placeStream u si)
        (c.assert (u.nTokens == si.strm.length * si.size), fun _ => -1)).1 :=
    Loop.foldl_range_induction
      (motive := fun n (st : Cache × RmMax) => st.2 = (fun _ => -1) ∧ Written c si u n st.1)
      ⟨rfl, rfl, fun _ => rfl, by simp, fun _ _ _ => rfl⟩ fun n hn st hst => by
        obtain ⟨h1, h2⟩ := hst.2.placeStream (r := st.2) hv hn
        exact ⟨h1.trans hst.1, h2⟩
  have hpurge : ∀ (l : List SeqId) (e : Cache), l.foldl (purgeSeq fun _ => -1) e = e := by
    intro l
    induction l with
    | nil => exact fun e => rfl
    | cons q l ih =>
      intro e
      rw [foldl_cons, purgeSeq, if_pos rfl, ih]
  have hheads : ∀ (l : List Nat) (e : Cache), (l.foldl (moveHead si) e).cfg = e.cfg ∧
      (l.foldl (moveHead si) e).cells = e.cells := by
    intro l
    induction l with
    | nil => exact fun e => ⟨rfl, rfl⟩
    | cons s l ih => exact fun e => ih (moveHead si e s)
  simp only [applyUbatch, hplace.1, hpurge]
  obtain ⟨hcfg, hcells⟩ := hheads (range si.strm.length)
    ((range si.strm.length).foldl (placeStream u si)
      (c.assert (u.nTokens == si.strm.length * si.size), fun _ => -1)).1
  have hw := hplace.2
  refine ⟨hcfg.trans hw.cfg, fun t => ?_, fun s hs k hk => ?_, fun t i hi => ?_⟩
  · rw [hcells, hw.size]
  · rw [hcells]
    exact hw.inside s hs k hk
  · rw [hcells]
    exact hw.outside t i hi

/-- A cell that the slot has is the one of some token. -/
theorem Vacant.exists_token (hv : c.Vacant si) (hs : s < si.strm.length) (hi : i ∈ si.idxsAt s) :
    ∃ k < si.size, (si.idxsAt s).getD k 0 = i := by
  obtain ⟨k, hk, rfl⟩ := getElem_of_mem hi
  exact ⟨k, hv.size s hs ▸ hk, getD_eq_getElem _ _ hk⟩

theorem Vacant.getD_mem (hv : c.Vacant si) (hs : s < si.strm.length) (hk : k < si.size) :
    (si.idxsAt s).getD k 0 ∈ si.idxsAt s := by
  rw [← hv.size s hs] at hk
  rw [getD_eq_getElem _ _ hk]
  exact getElem_mem hk

/-- The tokens of every entry of the slot belong to sequences of the entry's stream. -/
structure Settled (f : Config) (si : SlotInfo) (u : Ubatch) : Prop where
  tokens : u.nTokens = si.strm.length * si.size
  stream : ∀ s < si.strm.length, ∀ k < si.size, ∀ q ∈ u.seqId (s * si.size + k),
    f.seqToStream q = si.strmAt s

/-- Placing adds the positions of the tokens and removes none. -/
theorem Written.contains (h : Written c si u si.strm.length d) (hv : c.Vacant si)
    (hu : Settled c.cfg si u) (q : SeqId) (p : Int) :
    d.Contains q p ↔ c.Contains q p ∨ ∃ i < u.nTokens, q ∈ u.seqId i ∧ u.pos i = p := by
  unfold Contains
  rw [h.cfg, h.size]
  constructor
  · rintro ⟨i, hi, hq, hp⟩
    by_cases hcov : ∃ s < si.strm.length, si.strmAt s = c.cfg.seqToStream q ∧ i ∈ si.idxsAt s
    · right
      obtain ⟨s, hs, ht, hmem⟩ := hcov
      obtain ⟨k, hk, rfl⟩ := hv.exists_token hs hmem
      rw [← ht, (h.inside s hs k hk).2, mem_toFinset] at hq
      rw [← ht, (h.inside s hs k hk).1] at hp
      refine ⟨s * si.size + k, ?_, hq, hp⟩
      rw [hu.tokens]
      calc s * si.size + k < s * si.size + si.size := Nat.add_lt_add_left hk _
        _ = (s + 1) * si.size := (Nat.succ_mul s si.size).symm
        _ ≤ si.strm.length * si.size := Nat.mul_le_mul_right _ hs
    · left
      rw [h.outside _ i fun s hs ht hmem => hcov ⟨s, hs, ht, hmem⟩] at hq hp
      exact ⟨i, hi, hq, hp⟩
  · rintro (⟨i, hi, hq, hp⟩ | ⟨i, hi, hq, hp⟩)
    · refine ⟨i, hi, ?_⟩
      rw [h.outside]
      · exact ⟨hq, hp⟩
      · intro s hs ht hmem
        have hseq := hv.seq s hs i hmem
        rw [ht] at hseq
        rw [hseq] at hq
        cases hq
    · have hpos : 0 < si.size := by
        rw [hu.tokens] at hi
        exact Nat.pos_of_ne_zero fun h0 => by simp [h0] at hi
      have hs : i / si.size < si.strm.length := by
        rw [Nat.div_lt_iff_lt_mul hpos, ← hu.tokens]
        exact hi
      have hk : i % si.size < si.size := Nat.mod_lt i hpos
      have hidx : i / si.size * si.size + i % si.size = i := Nat.div_add_mod' i si.size
      have hmem := hv.getD_mem hs hk
      obtain ⟨h1, h2⟩ := h.inside _ hs _ hk
      have hstream := hu.stream _ hs _ hk q (by rw [hidx]; exact hq)
      rw [hidx] at h1 h2
      rw [hstream]
      refine ⟨_, hv.inside _ hs _ hmem, ?_, h1.trans hp⟩
      rw [h2, mem_toFinset]
      exact hq

/-- Two caches with the same positions and sequences in all cells. -/
structure Agree (c d : Cache) : Prop where
  cfg : d.cfg = c.cfg
  size : ∀ t, (d.cells t).size = (c.cells t).size
  pos : ∀ t i, ((d.cells t).cell i).pos = ((c.cells t).cell i).pos
  seq : ∀ t i, ((d.cells t).cell i).seq = ((c.cells t).cell i).seq

theorem Agree.refl (c : Cache) : Agree c c := ⟨rfl, fun _ => rfl, fun _ _ => rfl, fun _ _ => rfl⟩

theorem Agree.trans {e : Cache} (h : Agree c d) (h' : Agree d e) : Agree c e :=
  ⟨h'.cfg.trans h.cfg, fun t => (h'.size t).trans (h.size t),
    fun t i => (h'.pos t i).trans (h.pos t i), fun t i => (h'.seq t i).trans (h.seq t i)⟩

theorem Agree.tidy (h : Agree c d) (hc : c.Tidy) : d.Tidy := by
  intro t i q hq
  rw [h.seq] at hq
  rw [h.pos]
  exact hc t i q hq

theorem Agree.contains (h : Agree c d) (q : SeqId) (p : Int) : d.Contains q p ↔ c.Contains q p := by
  unfold Contains
  simp only [h.cfg, h.size, h.pos, h.seq]

theorem Agree.vacant (h : Agree c d) (hv : c.Vacant si) : d.Vacant si where
  len := hv.len
  nodup := hv.nodup
  size := hv.size
  idxsNodup := hv.idxsNodup
  inside s hs i hi := (hv.inside s hs i hi).trans_eq (h.size _).symm
  pos s hs i hi := (h.pos _ i).trans (hv.pos s hs i hi)
  seq s hs i hi := (h.seq _ i).trans (hv.seq s hs i hi)

/-- The same ubatch goes to the same cells. -/
theorem Agree.written {c' d' : Cache} (h : Agree c d) (hv : c.Vacant si)
    (hc : Written c si u si.strm.length c') (hd : Written d si u si.strm.length d') :
    Agree c' d' := by
  have hcell : ∀ t i, ((d'.cells t).cell i).pos = ((c'.cells t).cell i).pos ∧
      ((d'.cells t).cell i).seq = ((c'.cells t).cell i).seq := by
    intro t i
    by_cases hcov : ∃ s < si.strm.length, si.strmAt s = t ∧ i ∈ si.idxsAt s
    · obtain ⟨s, hs, rfl, hmem⟩ := hcov
      obtain ⟨k, hk, rfl⟩ := hv.exists_token hs hmem
      obtain ⟨h1, h2⟩ := hc.inside s hs k hk
      obtain ⟨h3, h4⟩ := hd.inside s hs k hk
      exact ⟨h3.trans h1.symm, h4.trans h2.symm⟩
    · have hout : ∀ s < si.strm.length, si.strmAt s = t → i ∉ si.idxsAt s :=
        fun s hs ht hmem => hcov ⟨s, hs, ht, hmem⟩
      rw [hc.outside t i hout, hd.outside t i hout]
      exact ⟨h.pos t i, h.seq t i⟩
  exact ⟨hd.cfg.trans (h.cfg.trans hc.cfg.symm), fun t => by rw [hd.size, h.size, hc.size],
    fun t i => (hcell t i).1, fun t i => (hcell t i).2⟩

/-- The cache `e` after the first `n` entries of a slot were written back in `d`. -/
structure GivenBack (c d : Cache) (si : SlotInfo) (n : Nat) (e : Cache) : Prop where
  cfg : e.cfg = d.cfg
  size : ∀ t, (e.cells t).size = (d.cells t).size
  inside : ∀ s < n, ∀ i ∈ si.idxsAt s,
    ((e.cells (si.strmAt s)).cell i).pos = ((c.cells (si.strmAt s)).cell i).pos ∧
      ((e.cells (si.strmAt s)).cell i).seq = ((c.cells (si.strmAt s)).cell i).seq
  outside : ∀ t i, (∀ s < n, si.strmAt s = t → i ∉ si.idxsAt s) →
    (e.cells t).cell i = (d.cells t).cell i

theorem restore_givenBack (hv : c.Vacant si) (d : Cache) :
    GivenBack c d si si.strm.length (restore d (c.save si)) := by
  refine Loop.foldl_range_induction (motive := fun n e => GivenBack c d si n e)
    ⟨rfl, fun _ => rfl, by simp, fun _ _ _ => rfl⟩ fun n hn e he => ?_
  have hn' : n < si.strm.length := hn
  have hcp : (c.save si).cells.getD n [] = (c.cells (si.strmAt n)).cp (si.idxsAt n) := by
    rw [getD_eq_getElem _ _ (by simpa [save] using hn')]
    simp [save]
  have heq : restoreEntry (c.save si) e n = (e.setCells (si.strmAt n)
      ((e.cells (si.strmAt n)).set (si.idxsAt n)
        ((c.cells (si.strmAt n)).cp (si.idxsAt n)))).setHead (si.strmAt n) (c.heads n) := by
    rw [restoreEntry, hcp]
    rfl
  obtain ⟨hin, hout⟩ := Cells.set_cp_cell (c.cells (si.strmAt n)) (si.idxsAt n)
    (e.cells (si.strmAt n))
  rw [heq]
  refine ⟨he.cfg, fun t => ?_, fun s hs i hi => ?_, fun t i hi => ?_⟩
  · simp only [setHead, setCells]
    by_cases ht : t = si.strmAt n
    · subst ht
      rw [update_self, Cells.set_size, he.size]
    · rw [update_of_ne ht, he.size]
  · simp only [setHead, setCells]
    by_cases hsn : s = n
    · subst hsn
      rw [update_self]
      exact hin i hi
    · have hlt : s < n := by omega
      rw [update_of_ne (hv.strmAt_ne hlt hn')]
      exact he.inside s hlt i hi
  · simp only [setHead, setCells]
    have hold := he.outside t i fun s hs => hi s (hs.trans (Nat.lt_succ_self n))
    by_cases ht : t = si.strmAt n
    · subst ht
      rw [update_self, hout i (hi n (Nat.lt_succ_self n) rfl)]
      exact hold
    · rw [update_of_ne ht]
      exact hold

/-- A placement and its undo leave every record as it was. -/
theorem Agree.restore {c' : Cache} (hv : c.Vacant si) (hw : Written c si u si.strm.length c')
    (h : Agree c' d) : Agree c (d.restore (c.save si)) := by
  have hb := restore_givenBack hv d
  have hcell : ∀ t i, (((d.restore (c.save si)).cells t).cell i).pos = ((c.cells t).cell i).pos ∧
      (((d.restore (c.save si)).cells t).cell i).seq = ((c.cells t).cell i).seq := by
    intro t i
    by_cases hcov : ∃ s < si.strm.length, si.strmAt s = t ∧ i ∈ si.idxsAt s
    · obtain ⟨s, hs, rfl, hmem⟩ := hcov
      exact hb.inside s hs i hmem
    · have hout : ∀ s < si.strm.length, si.strmAt s = t → i ∉ si.idxsAt s :=
        fun s hs ht hmem => hcov ⟨s, hs, ht, hmem⟩
      rw [hb.outside t i hout, h.pos, h.seq, hw.outside t i hout]
      exact ⟨rfl, rfl⟩
  exact ⟨hb.cfg.trans (h.cfg.trans hw.cfg), fun t => by rw [hb.size, h.size, hw.size],
    fun t i => (hcell t i).1, fun t i => (hcell t i).2⟩

/-- A cache of the right sizes in which every sequence has a position. -/
structure Plain (f : Config) (c : Cache) : Prop extends Sized f c where
  /-- Sequences have positions. -/
  tidy : c.Tidy

theorem Agree.plain (h : Agree c d) (hc : c.Plain f) (hd : ∀ t < f.nStream, d.heads t ≤ f.kvSize) :
    d.Plain f :=
  ⟨⟨h.cfg.trans hc.cfg, fun t ht => (h.size t).trans (hc.size t ht), hd⟩, h.tidy hc.tidy⟩

theorem Fit.tokens_eq (hu : u.Fit f) : (u.slotSeqs f).length * u.perStream f = u.nTokens := by
  unfold Ubatch.slotSeqs Ubatch.perStream
  by_cases hs : 1 < f.nStream
  · rw [if_pos hs, if_pos hs]
    exact Nat.mul_div_cancel' (Nat.dvd_of_mod_eq_zero (hu.blocks hs))
  · have hlen := length_pos_of_ne_nil hu.unq
    rw [if_neg hs, if_neg hs, length_take, Nat.min_eq_left hlen, Nat.one_mul]

theorem Fit.slotSeqs_ne_nil (hu : u.Fit f) : u.slotSeqs f ≠ [] := by
  unfold Ubatch.slotSeqs
  split
  · exact hu.unq
  · obtain ⟨q, l, hl⟩ := exists_cons_of_ne_nil hu.unq
    rw [hl]
    simp

/-- Without a window the search returns empty cells, one list of them per stream. -/
theorem Plain.vacant (h : c.Plain f) (hf : f.Valid) (hswa : f.swaType = .none) (hu : u.Fit f)
    (hsi : (c.findSlot u false).1 = some si) :
    c.Vacant si ∧ si.strm = (u.slotSeqs f).map f.seqToStream ∧ si.size = u.perStream f := by
  obtain rfl := h.cfg
  obtain ⟨hstrm, hslots⟩ := (h.toSized.findsSlots hf hu false).sound si hsi
  obtain ⟨hlen, hget⟩ := forall₂_iff_get.mp hslots
  have hlen' : si.strm.length = (u.slotSeqs c.cfg).length := by rw [hstrm, length_map]
  have hat : ∀ s < si.strm.length, si.strmAt s < c.cfg.nStream ∧
      (c.cells (si.strmAt s)).Choice c.cfg (u.perStream c.cfg) (si.idxsAt s) := by
    intro s hs
    have h1 : s < (u.slotSeqs c.cfg).length := hlen' ▸ hs
    have h2 : s < si.idxs.length := hlen ▸ h1
    have hidx : si.idxsAt s = si.idxs.get ⟨s, h2⟩ := getD_eq_getElem _ _ h2
    have hst : si.strmAt s = c.cfg.seqToStream ((u.slotSeqs c.cfg).get ⟨s, h1⟩) := by
      rw [SlotInfo.strmAt, getD_eq_getElem _ _ hs]
      simp [hstrm]
    rw [hst, hidx]
    exact ⟨hu.slotSeqs_stream hf (get_mem _ _), hget s h1 h2⟩
  have hsize : si.size = u.perStream c.cfg := by
    have h0 : 0 < si.strm.length := by
      rw [hlen']
      exact length_pos_of_ne_nil (Fit.slotSeqs_ne_nil hu)
    have hhead : si.idxsAt 0 = si.idxs.headD [] := by
      rw [SlotInfo.idxsAt]
      cases si.idxs <;> rfl
    rw [SlotInfo.size, ← hhead]
    exact (hat 0 h0).2.1
  refine ⟨⟨hlen.symm.trans hlen'.symm, ?_, fun s hs => ?_, fun s hs => (hat s hs).2.2.1,
    fun s hs i hi => ((hat s hs).2.2.2 i hi).1, fun s hs i hi => ?_, fun s hs i hi => ?_⟩,
      hstrm, hsize⟩
  · rw [hstrm]
    unfold Ubatch.slotSeqs
    by_cases hs : 1 < c.cfg.nStream
    · rw [if_pos hs]
      exact hu.nodup.map fun q r he => Config.seqToStream_inj hs he
    · rw [if_neg hs]
      obtain ⟨q, l, hl⟩ := exists_cons_of_ne_nil hu.unq
      rw [hl]
      simp
  · rw [hsize]
    exact (hat s hs).2.1
  all_goals
    have hpos : ((c.cells (si.strmAt s)).cell i).pos = -1 := by
      rcases ((hat s hs).2.2.2 i hi).2 with hp | ⟨q, -, hm⟩
      · exact hp
      · rw [hswa] at hm
        cases hm
  · exact hpos
  · exact (h.tidy _ i).seq_eq_empty hpos

/-- An ubatch whose tokens have positions, in a form that the search takes. -/
structure Fed (f : Config) (u : Ubatch) : Prop extends u.Fit f where
  pos : ∀ i < u.nTokens, 0 ≤ u.pos i

/-- One ubatch is placed after its slot was found. -/
theorem Plain.place (h : c.Plain f) (hf : f.Valid) (hswa : f.swaType = .none) (hu : Fed f u)
    (hsi : (c.findSlot u false).1 = some si) (p : Bool) :
    ((c.assert p).applyUbatch si u).Plain f ∧
      Written c si u si.strm.length ((c.assert p).applyUbatch si u) := by
  obtain ⟨hv, hstrm, hsize⟩ := h.vacant hf hswa hu.toFit hsi
  have hw : Written c si u si.strm.length ((c.assert p).applyUbatch si u) := by
    have hv' : (c.assert p).Vacant si :=
      ⟨hv.len, hv.nodup, hv.size, hv.idxsNodup, hv.inside, hv.pos, hv.seq⟩
    obtain ⟨h1, h2, h3, h4⟩ := applyUbatch_written hv' u
    exact ⟨h1, h2, h3, h4⟩
  refine ⟨⟨(h.toSized.assert p).applyUbatch (h.toSized.findSlot_inside hf hu.toFit hsi) u,
    fun t i => ?_⟩, hw⟩
  by_cases hcov : ∃ s < si.strm.length, si.strmAt s = t ∧ i ∈ si.idxsAt s
  · obtain ⟨s, hs, rfl, hmem⟩ := hcov
    obtain ⟨k, hk, rfl⟩ := hv.exists_token hs hmem
    refine Cell.tidy_of_nonneg ?_
    rw [(hw.inside s hs k hk).1]
    refine hu.pos _ ?_
    rw [← Fit.tokens_eq hu.toFit, ← hsize]
    have hs' : s < (u.slotSeqs f).length := by rwa [hstrm, length_map] at hs
    calc s * si.size + k < s * si.size + si.size := Nat.add_lt_add_left hk _
      _ = (s + 1) * si.size := (Nat.succ_mul s si.size).symm
      _ ≤ (u.slotSeqs f).length * si.size := Nat.mul_le_mul_right _ hs'
  · rw [hw.outside t i fun s hs ht hmem => hcov ⟨s, hs, ht, hmem⟩]
    exact h.tidy t i

/-- Every ubatch that the dry run tries can be searched for. -/
def Tried (f : Config) (c : Cache) : List Ubatch → Prop
  | [] => True
  | u :: us => Fed f u ∧
    match (c.findSlot u false).1 with
    | none => True
    | some si => Tried f ((c.assert (c.findSlot u false).2).applyUbatch si u) us

/-- The slots that the dry run finds one after the other. -/
def FoundSlots (f : Config) (c : Cache) : List Ubatch → List SlotInfo → Prop
  | [], sis => sis = []
  | u :: us, sis => ∃ si rest, sis = si :: rest ∧ Fed f u ∧ (c.findSlot u false).1 = some si ∧
      FoundSlots f ((c.assert (c.findSlot u false).2).applyUbatch si u) us rest

theorem prepareLoop_agree (hf : f.Valid) (hswa : f.swaType = .none) :
    ∀ (us : List Ubatch) (p : Prep), p.cache.Plain f → Tried f p.cache us →
      ∃ inner sis, (prepareLoop p us).states = inner ++ p.states ∧
        (prepareLoop p us).res = p.res ++ sis ∧
        Agree p.cache (inner.foldl restore (prepareLoop p us).cache) ∧
        (inner.foldl restore (prepareLoop p us).cache).Sized f ∧
        ((prepareLoop p us).success = true → FoundSlots f p.cache us sis)
  | [], p, h, _ => ⟨[], [], rfl, by simp [prepareLoop], Agree.refl _, h.toSized, fun _ => rfl⟩
  | u :: us, p, h, ht => by
    obtain ⟨hu, hrest⟩ := ht
    simp only [prepareLoop]
    cases hsi : (p.cache.findSlot u false).1 with
    | none =>
      refine ⟨[], [], rfl, by simp, ⟨rfl, fun _ => rfl, fun _ _ => rfl, fun _ _ => rfl⟩,
        h.toSized.assert _, fun h => ?_⟩
      cases h
    | some si =>
      rw [hsi] at hrest
      obtain ⟨hplain, hw⟩ := h.place hf hswa hu hsi (p.cache.findSlot u false).2
      obtain ⟨hv, hstrm, -⟩ := h.vacant hf hswa hu.toFit hsi
      obtain ⟨inner, sis, hst, hres, hag, hsz, hsucc⟩ := prepareLoop_agree hf hswa us
        { p with
          cache := (p.cache.assert (p.cache.findSlot u false).2).applyUbatch si u
          states := (p.cache.assert (p.cache.findSlot u false).2).save si :: p.states
          res := p.res ++ [si] } hplain hrest
      have hsave : (p.cache.assert (p.cache.findSlot u false).2).save si = p.cache.save si := rfl
      dsimp only at hst hres hag hsz hsucc ⊢
      rw [hsave] at hst hres hag hsz hsucc ⊢
      refine ⟨inner ++ [p.cache.save si], si :: sis, ?_, ?_, ?_, ?_, fun hs => ?_⟩
      · rw [hst, append_assoc, singleton_append]
      · rw [hres, append_assoc, singleton_append]
      · rw [foldl_append]
        exact Agree.restore hv hw hag
      · rw [foldl_append]
        refine hsz.restore ⟨?_, h.heads⟩
        have hlen := Fit.slotSeqs_length_le hu.toFit hf
        simpa [save, hstrm] using hlen
      · exact ⟨si, sis, rfl, hu, hsi, hsucc hs⟩

/-- `prepare` keeps every record, and returns the slots that it found. -/
theorem Plain.prepare (h : c.Plain f) (hf : f.Valid) (hswa : f.swaType = .none) {us : List Ubatch}
    (ht : Tried f c us) : Agree c (c.prepare us).1 ∧ (c.prepare us).1.Plain f ∧
      ((c.prepare us).2 ≠ [] → FoundSlots f c us (c.prepare us).2) := by
  obtain ⟨inner, sis, hst, hres, hag, hsz, hsucc⟩ := prepareLoop_agree hf hswa us
    { cache := c, states := [], res := [], success := true } h ht
  have hassert : ∀ (l : List Saved) (e : Cache) (p : Bool),
      l.foldl restore (e.assert p) = (l.foldl restore e).assert p := by
    intro l
    induction l with
    | nil => exact fun _ _ => rfl
    | cons sv l ih =>
      intro e p
      have hstep : restore (e.assert p) sv = (restore e sv).assert p := by
        unfold restore
        generalize range sv.sinfo.strm.length = is
        induction is generalizing e with
        | nil => rfl
        | cons s is ih' => exact ih' (restoreEntry sv e s)
      rw [foldl_cons, foldl_cons, hstep, ih]
  rw [append_nil] at hst
  have hagree : Agree c (c.prepare us).1 := by
    simp only [Cache.prepare, hst, hassert]
    exact hag.trans ⟨rfl, fun _ => rfl, fun _ _ => rfl, fun _ _ => rfl⟩
  refine ⟨hagree, hagree.plain h fun t ht => ?_, fun hne => ?_⟩
  · simp only [Cache.prepare, hst, hassert]
    exact hsz.heads t ht
  · simp only [Cache.prepare] at hne ⊢
    split at hne
    · rename_i hs
      rw [if_pos hs, hres]
      exact hsucc hs
    · exact (hne rfl).elim

end Cache

end Llama.Kv
