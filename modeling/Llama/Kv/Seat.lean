import Llama.Kv.Window

/-!
# Removing a sequence and placing it again

`seq_rm` over all positions followed by `find_slot` and `apply_ubatch` for an ubatch of that
sequence alone. Without a window only empty cells are used, so nothing else changes.
-/

namespace Llama.Kv

open List

variable {q : SeqId} {x : Cell}

/-- The range of `seq_rm(seq_id, -1, -1)` ends before the greatest position. -/
theorem Cell.seqRmRange_all (h : q ∈ x.seq → 0 ≤ x.pos) :
    x.seqRmRange q (Cache.lower (-1)) (Cache.upper (-1)) = x.dropBelow q (posMax - 1) := by
  have hlow : Cache.lower (-1) = 0 := rfl
  have hup : Cache.upper (-1) = posMax := rfl
  rw [Cell.seqRmRange, Cell.dropBelow, hlow, hup]
  congr 1
  rw [eq_iff_iff]
  constructor
  · rintro ⟨⟨-, h1⟩, h2⟩
    exact ⟨h2, by omega⟩
  · rintro ⟨h1, h2⟩
    exact ⟨⟨h h1, by omega⟩, h1⟩

/-- A record is free once a sequence is removed from it. -/
def Cell.freeFor (q : SeqId) (x : Cell) : Prop := x.pos = -1 ∨ (x.seq = {q} ∧ x.pos < posMax)

instance (q : SeqId) (x : Cell) : Decidable (x.freeFor q) := instDecidableOr

theorem Cell.dropBelow_pos_eq {T : SeqId → Prop} (h : x.Wf T) :
    (x.dropBelow q (posMax - 1)).pos = -1 ↔ x.freeFor q := by
  rw [Cell.dropBelow, Cell.freeFor]
  by_cases hq : q ∈ x.seq ∧ x.pos ≤ posMax - 1
  · have hne : x.pos ≠ -1 := by
      intro he
      have := hq.1
      rw [h.owned.mp he] at this
      simp at this
    have hlt : x.pos < posMax := by
      have := hq.2
      omega
    rw [if_pos hq, Cell.without]
    by_cases he : x.seq.erase q = ∅
    · have hs : x.seq = {q} := by
        rw [← Finset.insert_erase hq.1, he]
        rfl
      simp [hs, hlt]
    · have hs : x.seq ≠ {q} := by
        intro hs
        rw [hs] at he
        simp at he
      simp [he, hs, hne]
  · rw [if_neg hq]
    constructor
    · exact .inl
    · rintro (hp | ⟨hs, hp⟩)
      · exact hp
      · exact absurd ⟨by simp [hs], by omega⟩ hq

namespace Cache

variable {c : Cache} {b : SeqId} {u : Ubatch}

/-- The cells of the stream of `b` that are free once `b` is removed. -/
def freeFor (c : Cache) (b : SeqId) : List Nat :=
  (range c.cfg.kvSize).filter fun i =>
    decide (((c.cells (c.cfg.seqToStream b)).cell i).freeFor b)

variable {i : Nat}

/-- Every cell after a sequence was removed. -/
theorem Inv.removed (h : c.Inv) (hb : c.cfg.ValidSeq b) {t : Nat} (ht : t < c.cfg.nStream)
    (hi : i < c.cfg.kvSize) : ((c.seqRm (some b) (-1) (-1)).cells t).cell i =
      ((c.cells t).cell i).dropBelow b (posMax - 1) := by
  obtain ⟨-, -, hother, hcell, -⟩ := h.seqRm_some hb (-1) (-1)
  have hg := h.cells t ht
  by_cases he : t = c.cfg.seqToStream b
  · subst he
    rw [hcell i hi]
    exact Cell.seqRmRange_all fun hm => hg.pos_of_mem hi hm
  · rw [hother t he, Cell.dropBelow, if_neg]
    rintro ⟨hm, -⟩
    exact he (hg.home i hi b hm).2.symm

/-- Without a window only empty cells can be used. -/
theorem canUse_none (x : Cells) (n i : Nat) : x.canUse n .none i = x.isEmpty i := by
  rw [Cells.canUse]
  cases x.seqGet i <;> simp [isMaskedSwa]

/-- With one sequence in the ubatch, `find_slot` searches one stream. -/
theorem findSlot_one (hu : u.seqIdUnq = [b]) : (c.findSlot u false).1 =
    (findSlotStream c.cfg (c.cells (c.cfg.seqToStream b)) (c.heads (c.cfg.seqToStream b))
      u.nTokens false).1.map fun idxs =>
        { s0 := min maxSeq (c.cfg.seqToStream b), s1 := max 0 (c.cfg.seqToStream b)
          strm := [c.cfg.seqToStream b], idxs := [idxs] } := by
  have hloop : ∀ n, (findSlotLoop c u false n [b] 0
      { s0 := maxSeq, s1 := 0, strm := [], idxs := [] }).1 =
      (findSlotStream c.cfg (c.cells (c.cfg.seqToStream b)) (c.heads (c.cfg.seqToStream b))
        n false).1.map fun idxs =>
          { s0 := min maxSeq (c.cfg.seqToStream b), s1 := max 0 (c.cfg.seqToStream b)
            strm := [c.cfg.seqToStream b], idxs := [idxs] } := by
    intro n
    simp only [findSlotLoop]
    cases findSlotStream c.cfg (c.cells (c.cfg.seqToStream b)) (c.heads (c.cfg.seqToStream b))
        n false with
    | mk found ok =>
      cases found with
      | none => rfl
      | some idxs => rfl
  rw [findSlot]
  by_cases hs : 1 < c.cfg.nStream
  · simp only [if_pos hs, hu, length_singleton, Nat.div_one]
    exact hloop _
  · simp only [if_neg hs, hu, take_succ_cons, take_zero]
    exact hloop _

/-- `c'` is `c` with sequence `b` moved to the cells `idxs` of its stream. -/
structure Seated (c : Cache) (b : SeqId) (pos : Nat → Int) (idxs : List Nat) (c' : Cache) :
    Prop where
  /-- The invariant is kept. -/
  inv : c'.Inv
  /-- The configuration is constant. -/
  cfg : c'.cfg = c.cfg
  /-- No cell twice. -/
  nodup : idxs.Nodup
  /-- The cells exist and contained no other sequence. -/
  free : ∀ i ∈ idxs, i < c.cfg.kvSize ∧ ((c.cells (c.cfg.seqToStream b)).cell i).freeFor b
  /-- They contain the sequence at the positions. -/
  inside : ∀ k (hk : k < idxs.length),
    b ∈ ((c'.cells (c.cfg.seqToStream b)).cell idxs[k]).seq ∧
      ((c'.cells (c.cfg.seqToStream b)).cell idxs[k]).pos = pos k
  /-- The other cells lose the sequence, below the greatest position. -/
  outside : ∀ t < c.cfg.nStream, ∀ i < c.cfg.kvSize, (t = c.cfg.seqToStream b → i ∉ idxs) →
    ∀ q, (q ∈ ((c'.cells t).cell i).seq ↔
        q ∈ ((c.cells t).cell i).seq ∧ ¬ (q = b ∧ ((c.cells t).cell i).pos ≤ posMax - 1)) ∧
      (q ∈ ((c'.cells t).cell i).seq → ((c'.cells t).cell i).pos = ((c.cells t).cell i).pos)

/-- The ubatch of a single sequence. -/
structure OneSeq (u : Ubatch) (b : SeqId) : Prop where
  tokens : 0 < u.nTokens
  unq : u.seqIdUnq = [b]
  seqId : ∀ i, u.seqId i = [b]
  pos : ∀ i < u.nTokens, 0 ≤ u.pos i

theorem OneSeq.shape (h : OneSeq u b) (hb : c.cfg.ValidSeq b) : u.Shape c.cfg where
  tokens := h.tokens
  unq := by simp [h.unq]
  nodup := by simp [h.unq]
  valid i _ q hq := by
    rw [h.seqId, mem_singleton] at hq
    rwa [hq]
  blocks _ := by rw [h.unq, length_singleton, Nat.mod_one]
  block _ s hs k _ := by
    rw [h.seqId]
    simp [h.unq]

theorem OneSeq.sound (h : OneSeq u b) : u.Sound := by
  intro i hi
  rw [h.seqId]
  exact ⟨h.pos i hi, by simp, by simp⟩

/-- A slot of empty cells: nothing is overwritten, and the cells take the tokens. -/
theorem Inv.applyUbatch_empty {si : SlotInfo} (h : c.Inv) (hs : si.Fits c u) (hu : u.Sound)
    (hempty : ∀ s < si.strm.length, ∀ i ∈ si.idxsAt s, ((c.cells (si.strmAt s)).cell i).seq = ∅) :
    (∀ s < si.strm.length, ∀ k < si.size, ∀ q,
      (q ∈ (((c.applyUbatch si u).cells (si.strmAt s)).cell ((si.idxsAt s).getD k 0)).seq ↔
        q ∈ u.seqId (s * si.size + k)) ∧
      (((c.applyUbatch si u).cells (si.strmAt s)).cell ((si.idxsAt s).getD k 0)).pos =
        u.pos (s * si.size + k)) ∧
    ∀ t < c.cfg.nStream, ∀ i < c.cfg.kvSize, ¬ si.Covers t i →
      (((c.applyUbatch si u).cells t).cell i).seq = ((c.cells t).cell i).seq ∧
      (((c.applyUbatch si u).cells t).cell i).pos = ((c.cells t).cell i).pos := by
  have hno : ∀ q p, ¬ c.Overwrites si q p := by
    rintro q p ⟨s, hlt, i, hi, hq, -⟩
    rw [hempty s hlt i hi] at hq
    simp at hq
  constructor
  · intro s hlt k hk q
    have hpl := placed_all h hs hu
    have htoken := Fits.token hs hu hlt hk
    have hmem : (si.idxsAt s).getD k 0 ∈ si.idxsAt s := by
      have hk' : k < (si.idxsAt s).length := by rwa [hs.size s hlt]
      rw [getD_eq_getElem _ _ hk']
      exact getElem_mem hk'
    have hlow : ∀ r, ((range si.strm.length).foldl (placeStream u si)
        (c, fun _ => -1)).2 r < u.pos (s * si.size + k) := by
      intro r
      have := mt (hpl.le_iff_overwrites r (le_refl 0)).mp (hno r 0)
      have := htoken.pos
      omega
    rw [h.applyUbatch_cell hs hu (hs.stream s hlt) (hs.usable s hlt _ hmem).1,
      placed_inside h hs hu hlt hk]
    constructor
    · rw [Cell.mem_purged]
      constructor
      · rintro ⟨hq, -⟩
        exact mem_toFinset.mp hq
      · intro hq
        exact ⟨mem_toFinset.mpr hq, hlow q⟩
    · obtain ⟨r, hr⟩ := exists_mem_of_ne_nil _ htoken.owned
      rw [Cell.pos_purged (q := r) (mem_toFinset.mpr hr) (hlow r)]
      rfl
  · intro t ht i hi hcov
    have happ := h.applyUbatch hs hu
    have hseq : (((c.applyUbatch si u).cells t).cell i).seq = ((c.cells t).cell i).seq := by
      ext q
      rw [happ.mem t ht i hi hcov q]
      exact and_iff_left (hno q _)
    exact ⟨hseq, ((happ.shrunk t ht i hi hcov).eq hseq).1⟩

section

variable (h : c.Inv) (hb : c.cfg.ValidSeq b) (hswa : c.cfg.swaType = .none)
include h hb hswa

/-- The usable cells after the removal. -/
theorem Inv.canUse_removed (hi : i < c.cfg.kvSize) :
    ((c.seqRm (some b) (-1) (-1)).cells (c.cfg.seqToStream b)).canUse c.cfg.nSwa c.cfg.swaType i =
      decide (((c.cells (c.cfg.seqToStream b)).cell i).freeFor b) := by
  have ht := h.cfg.seqToStream_lt hb
  rw [hswa, canUse_none, Cells.isEmpty, h.removed hb ht hi, Bool.eq_iff_iff, beq_iff_eq,
    decide_eq_true_eq]
  exact Cell.dropBelow_pos_eq ((h.cells _ ht).wf hi)

/-- The destination is removed and placed again, when there is room. -/
theorem Inv.seat (hu : OneSeq u b) (hroom : u.nTokens ≤ (c.freeFor b).length) :
    ∃ si idxs, (c.seqRm (some b) (-1) (-1)).findSlot u false = (some si, true) ∧
      si.strm = [c.cfg.seqToStream b] ∧ si.idxs = [idxs] ∧ idxs.length = u.nTokens ∧
      Seated c b u.pos idxs ((c.seqRm (some b) (-1) (-1)).applyUbatch si u) := by
  obtain ⟨hinv, hcfg, -⟩ := h.seqRm_some hb (-1) (-1)
  have huse := fun {i} => h.canUse_removed (i := i) hb hswa
  have hrem := fun {t i} => h.removed (t := t) (i := i) hb
  generalize hd : c.seqRm (some b) (-1) (-1) = d at hinv hcfg huse hrem ⊢
  have ht := h.cfg.seqToStream_lt hb
  have hb' : d.cfg.ValidSeq b := by rwa [hcfg]
  have hg := hinv.cells (c.cfg.seqToStream b) (by rwa [hcfg])
  rw [hcfg] at hg
  -- a slot is found
  have hfound : ∃ idxs, (findSlotStream d.cfg (d.cells (d.cfg.seqToStream b))
      (d.heads (d.cfg.seqToStream b)) u.nTokens false).1 = some idxs := by
    rw [hcfg]
    apply findSlotStream_isSome hg
    · have := hinv.heads (c.cfg.seqToStream b) (by rwa [hcfg])
      rwa [hcfg] at this
    · exact hu.tokens
    · rw [hg.size, filter_congr fun i hi => huse (mem_range.mp hi)]
      exact hroom
  obtain ⟨idxs, hidxs⟩ := hfound
  have hslot := findSlot_one (c := d) hu.unq
  rw [hidxs, Option.map_some] at hslot
  obtain ⟨si, hsi, hstrm, hsidx⟩ : ∃ si, (d.findSlot u false).1 = some si ∧
      si.strm = [c.cfg.seqToStream b] ∧ si.idxs = [idxs] := ⟨_, hslot, by rw [hcfg], rfl⟩
  obtain ⟨hok, hfits⟩ := hinv.findSlot (hu.shape hb')
  have hfits := hfits si hsi
  have hlen : si.strm.length = 1 := by rw [hstrm]; rfl
  have hat : si.strmAt 0 = c.cfg.seqToStream b := by rw [SlotInfo.strmAt, hstrm]; rfl
  have hix : si.idxsAt 0 = idxs := by rw [SlotInfo.idxsAt, hsidx]; rfl
  have hsz : si.size = idxs.length := by rw [SlotInfo.size, hsidx]; rfl
  refine ⟨si, idxs, Prod.ext hsi hok, hstrm, hsidx, ?_, ?_⟩
  · rw [hfits.tokens, hlen, hsz, Nat.one_mul]
  have hfree : ∀ i ∈ idxs, i < c.cfg.kvSize ∧
      ((c.cells (c.cfg.seqToStream b)).cell i).freeFor b := by
    intro i hi
    obtain ⟨h1, h2⟩ := hfits.usable 0 (by omega) i (by rwa [hix])
    rw [hcfg] at h1 h2
    rw [hat, huse h1, decide_eq_true_eq] at h2
    exact ⟨h1, h2⟩
  have happ := hinv.applyUbatch hfits hu.sound
  obtain ⟨hin, hout⟩ := hinv.applyUbatch_empty hfits hu.sound (by
    intro s hs i hi
    obtain rfl : s = 0 := by omega
    rw [hix] at hi
    obtain ⟨h1, h2⟩ := hfree i hi
    rw [hat, ← (hg.wf h1).owned, hrem ht h1]
    exact (Cell.dropBelow_pos_eq ((h.cells _ ht).wf h1)).mpr h2)
  refine ⟨happ.inv, happ.cfg.trans hcfg, ?_, hfree, fun k hk => ?_, fun t ht' i hi hno q => ?_⟩
  · rw [← hix]
    exact hfits.idxsNodup 0 (by omega)
  · obtain ⟨hmem, hpos⟩ := hin 0 (by omega) k (by omega) b
    rw [hat, hix, getD_eq_getElem _ _ hk, Nat.zero_mul, Nat.zero_add] at hmem hpos
    refine ⟨hmem.mpr ?_, hpos⟩
    rw [hu.seqId]
    exact mem_singleton_self b
  · have hcov : ¬ si.Covers t i := by
      rintro ⟨s, hs, he, hm⟩
      obtain rfl : s = 0 := by omega
      rw [hix] at hm
      exact hno (he.symm.trans hat) hm
    obtain ⟨hseq, hpos⟩ := hout t (by rwa [hcfg]) i (by rwa [hcfg]) hcov
    rw [hseq, hpos, hrem ht' hi]
    exact ⟨Cell.mem_dropBelow b q (posMax - 1) _, fun hq => Cell.pos_dropBelow hq⟩

end

end Cache

end Llama.Kv
