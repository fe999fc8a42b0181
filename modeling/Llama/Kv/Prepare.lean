import Llama.Kv.Run

/-!
# The dry run of `prepare`

`prepare` places the ubatches one after the other and then undoes the placements in
reverse order. The undo rewrites the cells of each slot and the heads of its streams.
It takes the head of slot entry `s` from entry `s` of the saved heads, and it does not
reach the cells that a placement has purged outside its slot.
-/

namespace Llama.Kv

open List Function

/-- `state_t` of `prepare`: what is remembered before an ubatch is placed. -/
structure Saved where
  /-- The slot of the ubatch. -/
  sinfo : SlotInfo
  /-- `v_heads_old`. -/
  headsOld : Nat → Nat
  /-- Copies of the cells of the slot, per entry. -/
  cells : List (List Cell)

namespace Cache

/-- Remember the state of a slot. -/
def save (c : Cache) (si : SlotInfo) : Saved :=
  { sinfo := si
    headsOld := c.heads
    cells := (range si.strm.length).map fun s => (c.cells (si.strmAt s)).cp (si.idxsAt s) }

/-- State of the placing loop of `prepare`. -/
structure Prep where
  cache : Cache
  /-- The recovery stack, last placement first. -/
  states : List Saved
  /-- The slots found so far. -/
  res : List SlotInfo
  /-- Every ubatch has fitted. -/
  success : Bool

/-- The placing loop of `prepare`. -/
def prepareLoop (p : Prep) : List Ubatch → Prep
  | [] => p
  | u :: us =>
    let r := p.cache.findSlot u false
    let c := p.cache.assert r.2
    match r.1 with
    | none => { p with cache := c, success := false }
    | some si => prepareLoop { p with
        cache := c.applyUbatch si u, states := c.save si :: p.states, res := p.res ++ [si] } us

/-- Undo entry `s` of a placement. -/
def restoreEntry (sv : Saved) (c : Cache) (s : Nat) : Cache :=
  let t := sv.sinfo.strmAt s
  (c.setCells t ((c.cells t).set (sv.sinfo.idxsAt s) (sv.cells.getD s []))).setHead t
    (sv.headsOld s)

/-- Undo one placement. -/
def restore (c : Cache) (sv : Saved) : Cache :=
  (range sv.sinfo.strm.length).foldl (restoreEntry sv) c

/-- `prepare(ubatches)`: the cache afterwards and the returned slots. -/
def prepare (c : Cache) (us : List Ubatch) : Cache × List SlotInfo :=
  let p := prepareLoop { cache := c, states := [], res := [], success := true } us
  let c := p.cache.assert (!p.states.isEmpty || !p.success)
  (p.states.foldl restore c, if p.success then p.res else [])

/-- Two caches with the same cells (positions, spatial positions, sequences, used cells and
position maps) and heads. -/
structure SameContent (c c' : Cache) : Prop where
  cell : ∀ t < c.cfg.nStream, ∀ i < c.cfg.kvSize,
    ((c'.cells t).cell i).pos = ((c.cells t).cell i).pos ∧
      ((c'.cells t).cell i).ext = ((c.cells t).cell i).ext ∧
      ((c'.cells t).cell i).seq = ((c.cells t).cell i).seq
  used : ∀ t < c.cfg.nStream, (c'.cells t).used = (c.cells t).used
  seqPos : ∀ t < c.cfg.nStream, (c'.cells t).seqPos = (c.cells t).seqPos
  heads : ∀ t < c.cfg.nStream, c'.heads t = c.heads t

/-- No cell outside the slots `done` has a sequence that the slot `si` overwrites at the
position of the cell or above, so `apply_ubatch` purges nothing there. -/
def KeepsOutside (c : Cache) (done : List SlotInfo) (si : SlotInfo) : Prop :=
  ∀ t < c.cfg.nStream, ∀ i < c.cfg.kvSize, (∀ d ∈ done, ¬ d.Covers t i) →
    ∀ q ∈ ((c.cells t).cell i).seq, ¬ c.Overwrites si q ((c.cells t).cell i).pos

/-- The head at the index of a slot entry is the head of its stream, for the streams that the
slots `done` have not touched. -/
def HeadsMatch (c : Cache) (done : List SlotInfo) (si : SlotInfo) : Prop :=
  ∀ s < si.strm.length, (∀ d ∈ done, ∀ k < d.strm.length, d.strmAt k ≠ si.strmAt s) →
    c.heads s = c.heads (si.strmAt s)

/-- The placements of a list of ubatches, in turn, can all be undone; `done` are the slots
placed before. -/
def Restorable (done : List SlotInfo) (c : Cache) : List Ubatch → Prop
  | [] => True
  | u :: us =>
    match (c.findSlot u false).1 with
    | none => True
    | some si => c.KeepsOutside (si :: done) si ∧ c.HeadsMatch done si ∧
        Restorable (si :: done) (c.applyUbatch si u) us

/-- Place the rest of the ubatches and undo them. -/
def undo (c : Cache) : List Ubatch → Cache
  | [] => c
  | u :: us =>
    match (c.findSlot u false).1 with
    | none => c
    | some si => restore (undo (c.applyUbatch si u) us) (c.save si)

variable {u : Ubatch} {si : SlotInfo}

/-- The stack discipline: the recovery stack undoes the inner placements first. -/
theorem prepareLoop_restore : ∀ (us : List Ubatch) (p : Prep), p.cache.Inv →
    (∀ u ∈ us, u.Shape p.cache.cfg ∧ u.Sound) →
    (prepareLoop p us).states.foldl restore (prepareLoop p us).cache =
      p.states.foldl restore (undo p.cache us)
  | [], _, _, _ => rfl
  | u :: us, p, h, hu => by
    obtain ⟨hok, hfits⟩ := h.findSlot (hu u mem_cons_self).1
    simp only [prepareLoop, undo, hok, assert_eq rfl]
    cases hsi : (p.cache.findSlot u false).1 with
    | none => rfl
    | some si =>
      have happ := h.applyUbatch (hfits si hsi) (hu u mem_cons_self).2
      simp only
      rw [prepareLoop_restore us _ happ.inv fun v hv => by
        simpa only [happ.cfg] using hu v (mem_cons_of_mem u hv)]
      rfl

end Cache

namespace Cells

/-- Writing saved records back: the indices take the saved content, the others stay. -/
theorem Inv.set_cp {y : Cells} {n : Nat} {T : SeqId → Prop} (hy : y.Good n T) :
    ∀ (l : List Nat) {x : Cells}, x.Inv → x.size = n → (∀ i ∈ l, i < n) →
      (x.set l (y.cp l)).Inv ∧ (x.set l (y.cp l)).size = n ∧
      (∀ i ∈ l, ((x.set l (y.cp l)).cell i).pos = (y.cell i).pos ∧
        ((x.set l (y.cp l)).cell i).ext = (y.cell i).ext ∧
        ((x.set l (y.cp l)).cell i).seq = (y.cell i).seq) ∧
      ∀ i, i ∉ l → (x.set l (y.cp l)).cell i = x.cell i
  | [], x, h, hn, _ => ⟨h, hn, by simp, fun _ _ => rfl⟩
  | j :: l, x, h, hn, hl => by
    have hj := hl j mem_cons_self
    have hlt : j < x.size := by rwa [hn]
    have hw := hy.wf hj
    have hrep := h.setOne (y := { y.cell j with shift := 0 }) hlt hw.owned.mp
    have hinv := hrep.inv h hlt hw.pos hw.owned.mp
    obtain ⟨h1, h2, h3, h4⟩ := Inv.set_cp hy l hinv (hrep.size.trans hn)
      fun i hi => hl i (mem_cons_of_mem j hi)
    have heq : x.set (j :: l) (y.cp (j :: l)) =
        (x.setOne j { y.cell j with shift := 0 }).set l (y.cp l) := rfl
    rw [heq]
    refine ⟨h1, h2, fun i hi => ?_, fun i hi => ?_⟩
    · by_cases hm : i ∈ l
      · exact h3 i hm
      · obtain rfl : i = j := (mem_cons.mp hi).resolve_right hm
        rw [h4 i hm, hrep.cell_self]
        exact ⟨rfl, rfl, rfl⟩
    · rw [h4 i fun hm => hi (mem_cons_of_mem j hm),
        hrep.cell_of_ne fun he => hi (he ▸ mem_cons_self)]

end Cells

namespace Cache

variable {c : Cache} {u : Ubatch} {si : SlotInfo}

/-- The cells of every stream satisfy their invariant; assertions are not considered. -/
structure Weak (f : Config) (c : Cache) : Prop where
  cfg : c.cfg = f
  inv : ∀ t < f.nStream, (c.cells t).Inv
  size : ∀ t < f.nStream, (c.cells t).size = f.kvSize

theorem Inv.weak (h : c.Inv) : c.Weak c.cfg :=
  ⟨rfl, fun t ht => (h.cells t ht).toInv, fun t ht => (h.cells t ht).size⟩

/-- Cache `e` after the first `k` entries of a placement on `c` were undone in `d`. -/
structure Restored (c : Cache) (si : SlotInfo) (d : Cache) (k : Nat) (e : Cache) : Prop where
  weak : e.Weak c.cfg
  inside : ∀ s < k, ∀ i ∈ si.idxsAt s,
    ((e.cells (si.strmAt s)).cell i).pos = ((c.cells (si.strmAt s)).cell i).pos ∧
      ((e.cells (si.strmAt s)).cell i).ext = ((c.cells (si.strmAt s)).cell i).ext ∧
      ((e.cells (si.strmAt s)).cell i).seq = ((c.cells (si.strmAt s)).cell i).seq
  outside : ∀ t i, (∀ s < k, si.strmAt s = t → i ∉ si.idxsAt s) →
    (e.cells t).cell i = (d.cells t).cell i
  headIn : ∀ s < k, e.heads (si.strmAt s) = c.heads s
  headOut : ∀ t, (∀ s < k, si.strmAt s ≠ t) → e.heads t = d.heads t

variable {d e : Cache} {done : List SlotInfo}

theorem Restored.step {k : Nat} (hr : Restored c si d k e) (h : c.Inv) (hs : si.Fits c u)
    (hk : k < si.strm.length) : Restored c si d (k + 1) (restoreEntry (c.save si) e k) := by
  have hstream := hs.stream k hk
  have hcp : (c.save si).cells.getD k [] = (c.cells (si.strmAt k)).cp (si.idxsAt k) := by
    rw [getD_eq_getElem _ _ (by simpa [save] using hk)]
    simp [save]
  have hset := Cells.Inv.set_cp (h.cells _ hstream) (si.idxsAt k) (hr.weak.inv _ hstream)
    (hr.weak.size _ hstream) fun i hi => (hs.usable k hk i hi).1
  obtain ⟨h1, h2, h3, h4⟩ := hset
  have heq : restoreEntry (c.save si) e k = (e.setCells (si.strmAt k)
      ((e.cells (si.strmAt k)).set (si.idxsAt k)
        ((c.cells (si.strmAt k)).cp (si.idxsAt k)))).setHead (si.strmAt k) (c.heads k) := by
    rw [restoreEntry, hcp]
    rfl
  have hne : ∀ s < k, si.strmAt s ≠ si.strmAt k := fun s hlt he => by
    have := Fits.strmAt_inj hs (by omega) hk he
    omega
  rw [heq]
  refine ⟨⟨hr.weak.cfg, fun t ht => ?_, fun t ht => ?_⟩, fun s hlt i hi => ?_, fun t i hi => ?_,
    fun s hlt => ?_, fun t ht => ?_⟩
  · by_cases he : t = si.strmAt k
    · subst he
      simpa [Cache.setHead, Cache.setCells] using h1
    · simpa [Cache.setHead, Cache.setCells, update_of_ne he] using hr.weak.inv t ht
  · by_cases he : t = si.strmAt k
    · subst he
      simpa [Cache.setHead, Cache.setCells] using h2
    · simpa [Cache.setHead, Cache.setCells, update_of_ne he] using hr.weak.size t ht
  · by_cases he : s = k
    · subst he
      simpa [Cache.setHead, Cache.setCells] using h3 i hi
    · have hlt' : s < k := by omega
      simpa [Cache.setHead, Cache.setCells, update_of_ne (hne s hlt')] using hr.inside s hlt' i hi
  · by_cases he : t = si.strmAt k
    · subst he
      have := h4 i (hi k (Nat.lt_succ_self k) rfl)
      simp only [Cache.setHead, Cache.setCells, update_self, this]
      exact hr.outside _ i fun s hlt => hi s (by omega)
    · simp only [Cache.setHead, Cache.setCells, update_of_ne he]
      exact hr.outside t i fun s hlt => hi s (by omega)
  · by_cases he : s = k
    · subst he
      simp [Cache.setHead]
    · have hlt' : s < k := by omega
      simpa [Cache.setHead, Cache.setCells, update_of_ne (hne s hlt')] using hr.headIn s hlt'
  · have hne' : t ≠ si.strmAt k := fun he => ht k (Nat.lt_succ_self k) he.symm
    simp only [Cache.setHead, Cache.setCells, update_of_ne hne']
    exact hr.headOut t fun s hlt => ht s (by omega)

theorem restore_spec (h : c.Inv) (hs : si.Fits c u) (hd : d.Weak c.cfg) :
    Restored c si d si.strm.length (restore d (c.save si)) := by
  apply Loop.foldl_range_induction (motive := fun k e => Restored c si d k e)
  · exact ⟨hd, by simp, fun _ _ _ => rfl, by simp, fun _ _ => rfl⟩
  · intro k hk e he
    exact he.step h hs hk

/-- What the undo leaves: consistent cells that have at most lost sequences. -/
structure Undone (c d : Cache) : Prop where
  weak : d.Weak c.cfg
  shrunk : ∀ t < c.cfg.nStream, ∀ i < c.cfg.kvSize, ((c.cells t).cell i).Shrunk ((d.cells t).cell i)

/-- A cell that the slot covers is restored, the others pass through. -/
theorem Restored.cases (hr : Restored c si d si.strm.length e) (t i : Nat) :
    (si.Covers t i ∧ ((e.cells t).cell i).pos = ((c.cells t).cell i).pos ∧
      ((e.cells t).cell i).ext = ((c.cells t).cell i).ext ∧
      ((e.cells t).cell i).seq = ((c.cells t).cell i).seq) ∨
    (¬ si.Covers t i ∧ (e.cells t).cell i = (d.cells t).cell i) := by
  by_cases hcov : si.Covers t i
  · left
    refine ⟨hcov, ?_⟩
    obtain ⟨s, hlt, rfl, hi⟩ := hcov
    exact hr.inside s hlt i hi
  · exact .inr ⟨hcov, hr.outside t i fun s hlt he hi => hcov ⟨s, hlt, he, hi⟩⟩

theorem undo_undone : ∀ (us : List Ubatch) {c : Cache}, c.Inv →
    (∀ u ∈ us, u.Shape c.cfg ∧ u.Sound) → Undone c (c.undo us)
  | [], c, h, _ => ⟨h.weak, fun _ _ _ _ => Cell.Shrunk.refl _⟩
  | u :: us, c, h, hu => by
    obtain ⟨-, hfits⟩ := h.findSlot (hu u mem_cons_self).1
    rw [undo]
    split
    · exact ⟨h.weak, fun _ _ _ _ => Cell.Shrunk.refl _⟩
    · rename_i si hsi
      have happ := h.applyUbatch (hfits si hsi) (hu u mem_cons_self).2
      have ih := undo_undone us happ.inv fun v hv => by
        simpa only [happ.cfg] using hu v (mem_cons_of_mem u hv)
      have hr := restore_spec h (hfits si hsi) (happ.cfg ▸ ih.weak)
      refine ⟨hr.weak, fun t ht i hi => ?_⟩
      rcases hr.cases t i with ⟨-, hp, he, hq⟩ | ⟨hcov, hcell⟩
      · exact ⟨hq.le, fun _ => ⟨hp, he⟩⟩
      · rw [hcell]
        exact (happ.shrunk t ht i hi hcov).trans
          (ih.shrunk t (by rwa [happ.cfg]) i (by rwa [happ.cfg]))

/-- Outside the slots `done` the undo gives every cell its sequences back. -/
def CellsBack (done : List SlotInfo) (c d : Cache) : Prop :=
  ∀ t < c.cfg.nStream, ∀ i < c.cfg.kvSize, (∀ x ∈ done, ¬ x.Covers t i) →
    ((d.cells t).cell i).seq = ((c.cells t).cell i).seq

/-- The undo gives back the heads of the streams outside the slots `done`. -/
def HeadsBack (done : List SlotInfo) (c d : Cache) : Prop :=
  ∀ t < c.cfg.nStream, (∀ x ∈ done, ∀ k < x.strm.length, x.strmAt k ≠ t) → d.heads t = c.heads t

section

variable (h : c.Inv) (hs : si.Fits c u) (happ : Applied c si (c.applyUbatch si u))
  (hd : Undone (c.applyUbatch si u) d)
include h hs happ hd

/-- One placement and its undo, for the cells. -/
theorem cellsBack_step : CellsBack done c (restore d (c.save si)) ↔
      c.KeepsOutside (si :: done) si ∧ CellsBack (si :: done) (c.applyUbatch si u) d := by
  have hr := restore_spec h hs (happ.cfg ▸ hd.weak)
  have hsplit : ∀ t i, (∀ x ∈ si :: done, ¬ x.Covers t i) ↔
      ¬ si.Covers t i ∧ ∀ x ∈ done, ¬ x.Covers t i := fun t i => by simp
  constructor
  · intro hback
    -- both the placement and the inner undo must have kept every sequence
    have hboth : ∀ t < c.cfg.nStream, ∀ i < c.cfg.kvSize, (∀ x ∈ si :: done, ¬ x.Covers t i) →
        (((c.applyUbatch si u).cells t).cell i).seq = ((c.cells t).cell i).seq ∧
          ((d.cells t).cell i).seq = (((c.applyUbatch si u).cells t).cell i).seq := by
      intro t ht i hi hcov
      obtain ⟨hc, hdone⟩ := (hsplit t i).mp hcov
      have hfull := hback t ht i hi hdone
      rcases hr.cases t i with ⟨h', -⟩ | ⟨-, hcell⟩
      · exact absurd h' hc
      · rw [hcell] at hfull
        have h1 := (happ.shrunk t ht i hi hc).sub
        have h2 := (hd.shrunk t (by rwa [happ.cfg]) i (by rwa [happ.cfg])).sub
        have h3 : (((c.applyUbatch si u).cells t).cell i).seq = ((c.cells t).cell i).seq :=
          Finset.Subset.antisymm h1 (hfull ▸ h2)
        exact ⟨h3, hfull.trans h3.symm⟩
    refine ⟨fun t ht i hi hcov q hq ho => ?_, fun t ht i hi hcov => ?_⟩
    · have hc := ((hsplit t i).mp hcov).1
      rw [← (hboth t ht i hi hcov).1] at hq
      exact ((happ.mem t ht i hi hc q).mp hq).2 ho
    · rw [happ.cfg] at ht hi
      exact (hboth t ht i hi hcov).2
  · rintro ⟨hkeep, hback⟩ t ht i hi hdone
    rcases hr.cases t i with ⟨-, -, -, hq⟩ | ⟨hc, hcell⟩
    · exact hq
    · have hcov := (hsplit t i).mpr ⟨hc, hdone⟩
      rw [hcell, hback t (by rwa [happ.cfg]) i (by rwa [happ.cfg]) hcov]
      ext q
      rw [happ.mem t ht i hi hc q]
      exact ⟨And.left, fun hq => ⟨hq, hkeep t ht i hi hcov q hq⟩⟩

/-- One placement and its undo, for the heads. -/
theorem headsBack_step : HeadsBack done c (restore d (c.save si)) ↔
      c.HeadsMatch done si ∧ HeadsBack (si :: done) (c.applyUbatch si u) d := by
  have hr := restore_spec h hs (happ.cfg ▸ hd.weak)
  constructor
  · intro hback
    refine ⟨fun s hlt hdone => ?_, fun t ht hout => ?_⟩
    · rw [← hr.headIn s hlt]
      exact hback _ (hs.stream s hlt) hdone
    · rw [happ.cfg] at ht
      have hsi := hout si mem_cons_self
      rw [happ.heads t hsi, ← hback t ht fun x hx => hout x (mem_cons_of_mem si hx),
        hr.headOut t hsi]
  · rintro ⟨hmatch, hback⟩ t ht hdone
    by_cases hin : ∃ s < si.strm.length, si.strmAt s = t
    · obtain ⟨s, hlt, rfl⟩ := hin
      rw [hr.headIn s hlt]
      exact hmatch s hlt hdone
    · have hsi : ∀ s < si.strm.length, si.strmAt s ≠ t := fun s hlt he => hin ⟨s, hlt, he⟩
      rw [hr.headOut t hsi, ← happ.heads t hsi]
      refine hback t (by rwa [happ.cfg]) fun x hx => ?_
      rcases mem_cons.mp hx with rfl | hx
      · exact hsi
      · exact hdone x hx

end

/-- The undo is complete exactly when every placement can be undone. -/
theorem undo_back_iff : ∀ (us : List Ubatch) (done : List SlotInfo) {c : Cache}, c.Inv →
    (∀ u ∈ us, u.Shape c.cfg ∧ u.Sound) →
    (CellsBack done c (c.undo us) ∧ HeadsBack done c (c.undo us) ↔ c.Restorable done us)
  | [], _, _, _, _ => ⟨fun _ => trivial, fun _ => ⟨fun _ _ _ _ _ => rfl, fun _ _ _ => rfl⟩⟩
  | u :: us, done, c, h, hu => by
    obtain ⟨-, hfits⟩ := h.findSlot (hu u mem_cons_self).1
    rw [undo, Restorable]
    cases hsi : (c.findSlot u false).1 with
    | none => exact ⟨fun _ => trivial, fun _ => ⟨fun _ _ _ _ _ => rfl, fun _ _ _ => rfl⟩⟩
    | some si =>
      have happ := h.applyUbatch (hfits si hsi) (hu u mem_cons_self).2
      have hus : ∀ v ∈ us, v.Shape (c.applyUbatch si u).cfg ∧ v.Sound := fun v hv => by
        simpa only [happ.cfg] using hu v (mem_cons_of_mem u hv)
      have hd := undo_undone us happ.inv hus
      have ih := undo_back_iff us (si :: done) happ.inv hus
      simp only
      rw [cellsBack_step h (hfits si hsi) happ hd, headsBack_step h (hfits si hsi) happ hd, ← ih]
      tauto

/-- Sequences and heads decide whether two caches have the same content. -/
theorem Undone.sameContent_iff (h : c.Inv) (hd : Undone c d) :
    SameContent c d ↔ CellsBack [] c d ∧ HeadsBack [] c d := by
  constructor
  · intro hs
    exact ⟨fun t ht i hi _ => (hs.cell t ht i hi).2.2, fun t ht _ => hs.heads t ht⟩
  · rintro ⟨hc, hh⟩
    have hcell : ∀ t < c.cfg.nStream, ∀ i < c.cfg.kvSize,
        ((d.cells t).cell i).pos = ((c.cells t).cell i).pos ∧
          ((d.cells t).cell i).ext = ((c.cells t).cell i).ext ∧
          ((d.cells t).cell i).seq = ((c.cells t).cell i).seq := by
      intro t ht i hi
      have hq := hc t ht i hi (by simp)
      obtain ⟨hp, he⟩ := (hd.shrunk t ht i hi).eq hq
      exact ⟨hp, he, hq⟩
    have hext : ∀ t < c.cfg.nStream, (d.cells t).used = (c.cells t).used ∧
        (d.cells t).seqPos = (c.cells t).seqPos := by
      intro t ht
      have hg := h.cells t ht
      refine hg.toInv.ext_of_cell (hd.weak.inv t ht) ((hd.weak.size t ht).trans hg.size.symm) ?_
      intro i hi
      rw [hg.size] at hi
      exact ⟨(hcell t ht i hi).1, (hcell t ht i hi).2.2⟩
    exact ⟨hcell, fun t ht => (hext t ht).1, fun t ht => (hext t ht).2,
      fun t ht => hh t ht (by simp)⟩

/-- Meeting an assertion does not concern the content. -/
theorem sameContent_congr {d' : Cache} (hc : d'.cells = d.cells) (hh : d'.heads = d.heads) :
    SameContent c d' ↔ SameContent c d := by
  constructor
  · rintro ⟨h1, h2, h3, h4⟩
    rw [hc] at h1 h2 h3
    rw [hh] at h4
    exact ⟨h1, h2, h3, h4⟩
  · rintro ⟨h1, h2, h3, h4⟩
    rw [← hc] at h1 h2 h3
    rw [← hh] at h4
    exact ⟨h1, h2, h3, h4⟩

theorem restore_assert (p : Bool) : ∀ (states : List Saved) (c : Cache),
    (states.foldl restore (c.assert p)).cells = (states.foldl restore c).cells ∧
      (states.foldl restore (c.assert p)).heads = (states.foldl restore c).heads := by
  have hentry : ∀ (sv : Saved) (l : List Nat) (c : Cache),
      l.foldl (restoreEntry sv) (c.assert p) = (l.foldl (restoreEntry sv) c).assert p := by
    intro sv l
    induction l with
    | nil => intro c; rfl
    | cons s l ih => intro c; exact ih (restoreEntry sv c s)
  intro states
  induction states with
  | nil => intro c; exact ⟨rfl, rfl⟩
  | cons sv states ih =>
    intro c
    rw [foldl_cons, restore, hentry]
    exact ih (restore c sv)

/-- `prepare` leaves the cache as it was exactly when every placement, in turn, purges no cell
outside the slots and takes its heads from entries that agree with the streams. -/
theorem prepare_sameContent_iff (c : Cache) (us : List Ubatch) (h : c.Inv)
    (hu : ∀ u ∈ us, u.Shape c.cfg ∧ u.Sound) :
    SameContent c (c.prepare us).1 ↔ c.Restorable [] us := by
  have hloop := prepareLoop_restore us { cache := c, states := [], res := [], success := true } h hu
  obtain ⟨h1, h2⟩ := restore_assert
    (!(prepareLoop { cache := c, states := [], res := [], success := true } us).states.isEmpty ||
      !(prepareLoop { cache := c, states := [], res := [], success := true } us).success)
    (prepareLoop { cache := c, states := [], res := [], success := true } us).states
    (prepareLoop { cache := c, states := [], res := [], success := true } us).cache
  rw [hloop] at h1 h2
  rw [prepare, sameContent_congr h1 h2, foldl_nil,
    (undo_undone us h hu).sameContent_iff h, undo_back_iff us [] h hu]

/-- A slot of empty cells overwrites nothing. -/
theorem keepsOutside_of_empty {done : List SlotInfo} (h : ∀ s < si.strm.length,
    ∀ i ∈ si.idxsAt s, ((c.cells (si.strmAt s)).cell i).seq = ∅) : c.KeepsOutside done si := by
  rintro t - i - - q - ⟨s, hs, k, hk, hq, -⟩
  exact Finset.notMem_empty q (h s hs k hk ▸ hq)

theorem filledStreams_inv : filledStreams.Inv :=
  ((init_inv wideStreams_valid).place (Ubatch.next_shape (by decide) 0 (by decide))
    (Ubatch.next_sound (by decide) 2)).place
      (Ubatch.next_shape (by decide +kernel) 0 (by decide)) (Ubatch.next_sound (by decide) 3)

/-- Three more tokens of the first sequence, in two ubatches, are prepared without a trace. -/
theorem prepare_sameContent_filled :
    SameContent filledStreams (filledStreams.prepare [.next 0 2 2, .next 0 4 1]).1 := by
  refine (prepare_sameContent_iff filledStreams [.next 0 2 2, .next 0 4 1] filledStreams_inv
    ?_).mpr ?_
  · intro u hu
    simp only [mem_cons, not_mem_nil, or_false] at hu
    rcases hu with rfl | rfl
    · exact ⟨Ubatch.next_shape (by decide +kernel) 2 (by decide), Ubatch.next_sound (by decide) 2⟩
    · exact ⟨Ubatch.next_shape (by decide +kernel) 4 (by decide), Ubatch.next_sound (by decide) 1⟩
  · have hfirst : (filledStreams.findSlot (.next 0 2 2) false).1 =
        some { s0 := 0, s1 := 0, strm := [0], idxs := [[2, 3]] } := by decide +kernel
    have hsecond : ((filledStreams.applyUbatch { s0 := 0, s1 := 0, strm := [0], idxs := [[2, 3]] }
        (.next 0 2 2)).findSlot (.next 0 4 1) false).1 =
          some { s0 := 0, s1 := 0, strm := [0], idxs := [[4]] } := by decide +kernel
    simp only [Restorable, hfirst, hsecond, HeadsMatch]
    exact ⟨keepsOutside_of_empty (by decide +kernel), by decide +kernel,
      keepsOutside_of_empty (by decide +kernel), by decide +kernel, trivial⟩

set_option maxRecDepth 10000 in
/-- The second stream after a token went to the first: preparing a token for it writes the
head of the first stream into the head of the second. -/
theorem prepare_moves_head_of_second_stream :
    AllSteps (fun c o => o.Valid c ∧ o.Safe c) (init twoStreams) [.place (.single 0 0)] ∧
    (Ubatch.single 1 0).Shape twoStreams ∧ (Ubatch.single 1 0).Sound ∧
    (((Op.place (.single 0 0)).run (init twoStreams)).prepare [.single 1 0]).2 ≠ [] ∧
    ¬ SameContent ((Op.place (.single 0 0)).run (init twoStreams))
      (((Op.place (.single 0 0)).run (init twoStreams)).prepare [.single 1 0]).1 := by
  refine ⟨⟨⟨Ubatch.single_shape (by decide) 0, Ubatch.single_sound (by decide)⟩, trivial⟩,
    Ubatch.single_shape (by decide) 0, Ubatch.single_sound (by decide), by decide, ?_⟩
  intro h
  have := h.heads 1 (by decide)
  revert this
  decide

end Cache

end Llama.Kv
