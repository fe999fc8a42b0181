import Llama.Kv.Apply

/-!
# Runs of cache operations

Every public operation keeps `Cache.Inv` from a state in which it is safe. The unsafe
states are those where the code adds a sequence to a cell that has it, copies a cell
whose shift exceeds its position to another stream, or places a token without a
position or with a malformed set of sequences.
-/

namespace Llama.Kv

open List Function

/-- A public operation of the cache with its arguments. -/
inductive Op
  | clear
  | seqRm (q : Option SeqId) (p0 p1 : Int)
  | seqCp (src dst : SeqId) (p0 p1 : Int)
  | seqKeep (q : SeqId)
  | seqAdd (q : SeqId) (p0 p1 d : Int)
  | seqDiv (q : SeqId) (p0 p1 d : Int)
  | place (u : Ubatch)

namespace Op

/-- Execute one operation. `place` is `find_slot` and, with a slot, `apply_ubatch`. -/
def run (c : Cache) : Op → Cache
  | clear => c.clear
  | seqRm q p0 p1 => c.seqRm q p0 p1
  | seqCp src dst p0 p1 => c.seqCp src dst p0 p1
  | seqKeep q => c.seqKeep q
  | seqAdd q p0 p1 d => c.seqAdd q p0 p1 d
  | seqDiv q p0 p1 d => c.seqDiv q p0 p1 d
  | place u =>
    let r := c.findSlot u false
    match r.1 with
    | none => c.assert r.2
    | some si => (c.assert r.2).applyUbatch si u

/-- The arguments are such that the operation is supported: `GGML_ASSERT` does not abort. -/
def Valid (c : Cache) : Op → Prop
  | clear => True
  | seqRm q _ _ => ∀ r ∈ q, c.cfg.ValidSeq r
  | seqCp src dst p0 p1 => c.cfg.ValidSeq src ∧ c.cfg.ValidSeq dst ∧
      (c.cfg.seqToStream src ≠ c.cfg.seqToStream dst → c.isFull p0 p1 = true)
  | seqKeep q => c.cfg.ValidSeq q
  | seqAdd q _ _ _ => c.cfg.ValidSeq q ∧ c.cfg.nPosPerEmbd = 1
  | seqDiv q _ _ d => c.cfg.ValidSeq q ∧ c.cfg.nPosPerEmbd = 1 ∧ 1 ≤ d
  | place u => u.Shape c.cfg

/-- The state in which an operation respects the preconditions of the cells. -/
def Safe (c : Cache) : Op → Prop
  | seqCp src dst p0 p1 =>
    if c.cfg.seqToStream src = c.cfg.seqToStream dst then
      src = dst ∨ ∀ i < c.cfg.kvSize,
        let e := (c.cells (c.cfg.seqToStream src)).cell i
        Cache.lower p0 ≤ e.pos ∧ e.pos < Cache.upper p1 → src ∈ e.seq → dst ∉ e.seq
    else ∀ i < c.cfg.kvSize,
      let e := (c.cells (c.cfg.seqToStream src)).cell i
      src ∈ e.seq → e.shift = 0 ∨ 0 ≤ e.pos - e.shift
  | place u => u.Sound
  | _ => True

end Op

namespace Cache

variable {c : Cache}

theorem Inv.clear (h : c.Inv) : c.clear.Inv where
  cfg := h.cfg
  ok := h.ok
  cells t ht := by
    have hg := h.cells t ht
    have hr : (c.cells t).reset.Good c.cfg.kvSize (c.cfg.Home t) := Cells.reset_good hg.size hg.ok
    simp only [Cache.clear] at ht ⊢
    rwa [if_pos ht]
  heads t ht := by
    simp only [Cache.clear] at ht ⊢
    rw [if_pos ht]
    exact Nat.zero_le _

theorem Inv.seqRm_any (h : c.Inv) (p0 p1 : Int) : (c.seqRm none p0 p1).Inv := by
  have key := Loop.foldl_range_induction (n := c.cfg.nStream) (b := c)
    (f := fun c t => c.sweep t (rmBody (lower p0) (upper p1)))
    (motive := fun _ c' => c'.Inv ∧ c'.cfg = c.cfg) ⟨h, rfl⟩ ?_
  · exact key.1
  · rintro t ht c' ⟨hinv, hcfg⟩
    have hg := hinv.cells t (by rwa [hcfg])
    refine ⟨hinv.sweep ?_, by simp [Cache.sweep, Cache.setCells, hcfg]⟩
    rw [hg.size]
    exact rm_loop (lower_nonneg p0) hg _

variable {i n : Nat} {dst src : SeqId} {p0 p1 : Int}

/-- One copied cell takes the record with the new sequence as its only one. -/
theorem crossCell_spec {y : Cells} {T : SeqId → Prop} {e : Cell} (h : y.Good n T) (hi : i < n)
    (hy : y.cell i = {}) (hd : T dst) (hp : 0 ≤ e.pos) (hs : e.shift = 0 ∨ 0 ≤ e.pos - e.shift) :
    let z := (y.posSet i (if e.shift ≠ 0 then e.pos - e.shift else e.pos)).seqAdd i dst
    let z := (if e.shift ≠ 0 then (z.posAdd i e.shift).1 else z).extSet i e.ext
    z.Good n T ∧ z.cell = update y.cell i { e with seq := {dst} } := by
  intro z0 z
  have hlt := h.lt_size hi
  obtain ⟨p, hpdef⟩ : ∃ p, p = if e.shift ≠ 0 then e.pos - e.shift else e.pos := ⟨_, rfl⟩
  have hp0 : 0 ≤ p := by
    rw [hpdef]
    split
    · rcases hs with h' | h'
      · contradiction
      · exact h'
    · exact hp
  have hp1 : p ≠ -1 := by omega
  -- the position and the sequence
  have hr1 := h.toInv.posSet hlt (by rw [hy]) hp1
  have ho1 := h.toInv.posSet_ok hlt (by rw [hy]) p
  have hi1 := hr1.inv h.toInv hlt (.inr hp0) fun he => absurd he hp1
  have hl1 : i < (y.posSet i p).size := by rwa [hr1.size]
  have hc1 := hr1.cell_self
  rw [hy] at hc1
  have hr2 := hi1.seqAdd hl1 (q := dst) (by rw [hc1]; simp) (by rw [hc1]; exact hp1)
  have ho2 := Cells.seqAdd_ok hl1 (q := dst) (by rw [hc1]; simp) (by rw [hc1]; exact hp1)
  rw [hc1] at hr2
  have hr12 := hr1.trans hr2
  have hi2 := hr12.inv h.toInv hlt (.inr hp0) fun he => absurd he hp1
  have hl2 : i < ((y.posSet i p).seqAdd i dst).size := by rwa [hr12.size]
  have hc2 := hr12.cell_self
  -- the pending shift
  obtain ⟨w, hw, hrw, how⟩ : ∃ w : Cells,
      w = (if e.shift ≠ 0 then (((y.posSet i p).seqAdd i dst).posAdd i e.shift).1
        else (y.posSet i p).seqAdd i dst) ∧
      Cells.Replaced y w i { pos := e.pos, shift := e.shift, seq := {dst} } ∧ w.ok = y.ok := by
    refine ⟨_, rfl, ?_⟩
    by_cases hz : e.shift = 0
    · have hpe : p = e.pos := by rw [hpdef]; simp [hz]
      simp only [hz, ne_eq, not_true_eq_false, if_false]
      subst hpe
      exact ⟨by simpa using hr12, ho2.trans ho1⟩
    · have hpe : p = e.pos - e.shift := by rw [hpdef]; simp [hz]
      simp only [hz, ne_eq, not_false_eq_true, if_true]
      have hr3 := hr12.trans (hi2.posAdd hl2 (by rw [hc2]; exact hp1) e.shift)
      rw [hc2] at hr3
      have hm : Cell.moved { pos := p, seq := insert dst ∅ } e.shift =
          { pos := e.pos, shift := e.shift, seq := {dst} } := by
        have hsum : p + e.shift = e.pos := by omega
        have hnn : ¬ e.pos < 0 := by omega
        simp only [Cell.moved, hsum, if_neg hnn, Int.zero_add]
        rfl
      rw [hm] at hr3
      exact ⟨hr3, (hi2.posAdd_ok hl2 (by rw [hc2]; exact hp1) e.shift).trans (ho2.trans ho1)⟩
  have hiw := hrw.inv h.toInv hlt (.inr hp) fun he => by simp only at he; omega
  have hlw : i < w.size := by rwa [hrw.size]
  have hr4 := hrw.trans (hiw.extSet hlw e.ext)
  rw [hrw.cell_self] at hr4
  have hz : z = w.extSet i e.ext := by rw [hw, hpdef]
  rw [hz]
  refine ⟨h.replace hr4 ((Cells.extSet_ok hlw e.ext).trans how) hi ⟨.inr hp, ?_, ?_⟩, hr4.cell⟩
  · exact ⟨fun he => by simp only at he; omega, fun he => by simp at he⟩
  · intro q hq
    rw [Finset.mem_singleton.mp hq]
    exact hd

/-- State of the copying loop after `k` cells. -/
structure Copied (c : Cache) (s0 s1 : Nat) (src dst : SeqId) (k : Nat) (c' : Cache) : Prop where
  inv : c'.Inv
  cfg : c'.cfg = c.cfg
  heads : c'.heads = c.heads
  source : c'.cells s0 = c.cells s0
  dest : ∀ i, (c'.cells s1).cell i = if i < k ∧ src ∈ ((c.cells s0).cell i).seq then
    { (c.cells s0).cell i with seq := {dst} } else {}

theorem Copied.step {c' : Cache} {s0 s1 k : Nat} (h : Copied c s0 s1 src dst k c')
    (hg : (c.cells s0).Good c.cfg.kvSize (c.cfg.Home s0)) (hne : s0 ≠ s1) (hs1 : s1 < c.cfg.nStream)
    (hd : c.cfg.Home s1 dst) (hk : k < c.cfg.kvSize)
    (hsafe : src ∈ ((c.cells s0).cell k).seq → ((c.cells s0).cell k).shift = 0 ∨
      0 ≤ ((c.cells s0).cell k).pos - ((c.cells s0).cell k).shift) :
    Copied c s0 s1 src dst (k + 1) (crossCpBody (c.cells s0) src dst c' s0 s1 k) := by
  have hdest : ∀ i, (if i < k + 1 ∧ src ∈ ((c.cells s0).cell i).seq then
      { (c.cells s0).cell i with seq := {dst} } else ({} : Cell)) =
      if i = k then (if src ∈ ((c.cells s0).cell k).seq then
        { (c.cells s0).cell k with seq := {dst} } else {}) else (c'.cells s1).cell i := by
    intro i
    rw [h.dest i]
    by_cases he : i = k
    · subst he
      simp
    · have : i < k + 1 ↔ i < k := by omega
      simp [he, this]
  by_cases hq : src ∈ ((c.cells s0).cell k).seq
  · have hp := hg.pos_of_mem hk hq
    have hlt := hg.lt_size hk
    have hempty : (c'.cells s1).cell k = {} := by
      rw [h.dest k]
      simp
    have hassert : (c'.cells s0).assert ((c.cells s0).nonEmptyPre k) = c'.cells s0 := by
      rw [Cells.nonEmptyPre_eq_true hlt (by omega), Cells.assert_true]
    have hshift : (((c.cells s0).cell k).shift == 0 ||
        decide (0 ≤ ((c.cells s0).cell k).pos - ((c.cells s0).cell k).shift)) = true := by
      rcases hsafe hq with h' | h'
      · simp [h']
      · rw [decide_eq_true h', Bool.or_true]
    have hself : c'.setCells s0 (c'.cells s0) = c' := by simp [Cache.setCells]
    obtain ⟨hgood, hcell⟩ := crossCell_spec (h.inv.cells s1 (by rw [h.cfg]; exact hs1))
      (by rw [h.cfg]; exact hk) hempty (by rw [h.cfg]; exact hd) hp (hsafe hq)
    have hbody : crossCpBody (c.cells s0) src dst c' s0 s1 k = c'.setCells s1
        ((if ((c.cells s0).cell k).shift ≠ 0 then (((c'.cells s1).posSet k
            (if ((c.cells s0).cell k).shift ≠ 0 then
              ((c.cells s0).cell k).pos - ((c.cells s0).cell k).shift
            else ((c.cells s0).cell k).pos)).seqAdd k dst).posAdd k ((c.cells s0).cell k).shift |>.1
          else ((c'.cells s1).posSet k (if ((c.cells s0).cell k).shift ≠ 0 then
              ((c.cells s0).cell k).pos - ((c.cells s0).cell k).shift
            else ((c.cells s0).cell k).pos)).seqAdd k dst).extSet k ((c.cells s0).cell k).ext) := by
      simp only [crossCpBody, Cells.seqHas, hq, decide_true, if_true, hassert, hself,
        assert_eq hshift]
    rw [hbody]
    refine ⟨h.inv.setCells hgood, h.cfg, h.heads, ?_, fun i => ?_⟩
    · simp only [Cache.setCells, update_of_ne hne]
      exact h.source
    · rw [hdest i]
      simp only [Cache.setCells, update_self, hcell, hq, if_true]
      by_cases he : i = k
      · subst he
        simp
      · simp [he]
  · have hbody : crossCpBody (c.cells s0) src dst c' s0 s1 k = c' := by
      simp [crossCpBody, Cells.seqHas, hq]
    rw [hbody]
    refine ⟨h.inv, h.cfg, h.heads, h.source, fun i => ?_⟩
    rw [hdest i]
    by_cases he : i = k
    · subst he
      rw [h.dest i]
      simp [hq]
    · simp [he]

theorem Inv.seqCp_cross (h : c.Inv) (hs : c.cfg.ValidSeq src) (hd : c.cfg.ValidSeq dst)
    (hne : c.cfg.seqToStream src ≠ c.cfg.seqToStream dst) (hfull : c.isFull p0 p1 = true)
    (hsafe : ∀ i < c.cfg.kvSize, src ∈ ((c.cells (c.cfg.seqToStream src)).cell i).seq →
      ((c.cells (c.cfg.seqToStream src)).cell i).shift = 0 ∨
        0 ≤ ((c.cells (c.cfg.seqToStream src)).cell i).pos -
          ((c.cells (c.cfg.seqToStream src)).cell i).shift) :
    (c.seqCp src dst p0 p1).Inv := by
  have hs0 := h.cfg.seqToStream_lt hs
  have hs1 := h.cfg.seqToStream_lt hd
  have hg0 := h.cells _ hs0
  have hg1 := h.cells _ hs1
  have hass : c.assert (decide (c.cfg.ValidSeq src) && decide (c.cfg.ValidSeq dst)) = c :=
    assert_eq (by simp [hs, hd])
  simp only [Cache.seqCp, hass, if_neg hne, assert_eq hfull]
  generalize c.cfg.seqToStream src = s0 at *
  generalize hs1def : c.cfg.seqToStream dst = s1 at *
  obtain ⟨d, hddef⟩ : ∃ d : Cache, d = { c with scInfo := c.scInfo ++ [(s0, s1)] } := ⟨_, rfl⟩
  have hdinv : d.Inv := by
    rw [hddef]
    exact ⟨h.cfg, h.ok, h.cells, h.heads⟩
  have hdcells : d.cells = c.cells := by rw [hddef]
  have hdcfg : d.cfg = c.cfg := by rw [hddef]
  have hdheads : d.heads = c.heads := by rw [hddef]
  rw [← hddef]
  have hstart : Copied d s0 s1 src dst 0 (d.setCells s1 (c.cells s1).reset) := by
    refine ⟨hdinv.setCells ?_, rfl, rfl, ?_, fun i => ?_⟩
    · rw [hdcfg]
      exact Cells.reset_good hg1.size hg1.ok
    · simp [Cache.setCells, update_of_ne hne]
    · simp [Cache.setCells, Cells.reset, Cells.resize]
  have key := Loop.foldl_range_induction (n := (c.cells s0).size)
    (b := d.setCells s1 (c.cells s1).reset)
    (f := fun c' i => crossCpBody (c.cells s0) src dst c' s0 s1 i)
    (motive := fun k c' => Copied d s0 s1 src dst k c') hstart ?_
  · have hhead : ((range (c.cells s0).size).foldl
        (fun c' i => crossCpBody (c.cells s0) src dst c' s0 s1 i)
        (d.setCells s1 (c.cells s1).reset)).heads s0 = c.heads s0 := by
      rw [key.heads, hdheads]
    rw [hhead]
    apply key.inv.setHead
    rw [key.cfg, hdcfg]
    exact h.heads s0 hs0
  · intro k hk c' hc'
    rw [hg0.size] at hk
    have := hc'.step (by rw [hdcells, hdcfg]; exact hg0) hne (by rw [hdcfg]; exact hs1)
      (by rw [hdcfg]; exact ⟨hd, hs1def⟩) (by rw [hdcfg]; exact hk)
      (by rw [hdcells]; exact hsafe k hk)
    rwa [hdcells] at this

theorem Inv.seqCp_same (h : c.Inv) (hs : c.cfg.ValidSeq src) (hd : c.cfg.ValidSeq dst)
    (he : c.cfg.seqToStream src = c.cfg.seqToStream dst) (hsafe : src = dst ∨ ∀ i < c.cfg.kvSize,
      lower p0 ≤ ((c.cells (c.cfg.seqToStream src)).cell i).pos ∧
        ((c.cells (c.cfg.seqToStream src)).cell i).pos < upper p1 →
      src ∈ ((c.cells (c.cfg.seqToStream src)).cell i).seq →
      dst ∉ ((c.cells (c.cfg.seqToStream src)).cell i).seq) :
    (c.seqCp src dst p0 p1).Inv := by
  have hg := h.cells _ (h.cfg.seqToStream_lt hs)
  have hass : c.assert (decide (c.cfg.ValidSeq src) && decide (c.cfg.ValidSeq dst)) = c :=
    assert_eq (by simp [hs, hd])
  simp only [Cache.seqCp, hass, if_pos he]
  by_cases hsd : src = dst
  · rwa [if_pos hsd]
  · rw [if_neg hsd]
    apply h.setCells
    rw [hg.size]
    exact seqCp_loop (lower_nonneg p0) ⟨hd, he.symm⟩ hg (hsafe.resolve_left hsd)

theorem Inv.seqKeep (h : c.Inv) {q : SeqId} (hq : c.cfg.ValidSeq q) : (c.seqKeep q).Inv := by
  have hg := h.cells _ (h.cfg.seqToStream_lt hq)
  simp only [Cache.seqKeep, assert_eq (decide_eq_true hq)]
  apply h.sweep
  rw [hg.size]
  exact seqKeep_loop ⟨hq, rfl⟩ hg _

/-- The first freed cell is a cell of the stream. -/
theorem seqAddBody_freed {q : SeqId} {d : Int} {st : Cells × Nat} (hi : i < n) (hst : st.2 ≤ n) :
    (seqAddBody q p0 p1 d st i).2 ≤ n := by
  simp only [seqAddBody, firstFreed]
  split
  · exact hst
  · split
    · simp only
      split
      · split
        · omega
        · exact hst
      · exact hst
    · exact hst

theorem Inv.seqAdd (h : c.Inv) {q : SeqId} (hq : c.cfg.ValidSeq q) (hn : c.cfg.nPosPerEmbd = 1)
    (p0 p1 d : Int) : (c.seqAdd q p0 p1 d).Inv := by
  have hg := h.cells _ (h.cfg.seqToStream_lt hq)
  have hass : c.assert (decide (c.cfg.ValidSeq q) && c.cfg.nPosPerEmbd == 1) = c :=
    assert_eq (by simp [hq, hn])
  simp only [Cache.seqAdd, hass]
  split
  · exact h
  · split
    · exact h
    · have hloop := seqAdd_loop q (upper p1) d (lower_nonneg p0) hg
        (c.cells (c.cfg.seqToStream q)).size
      have hfreed := Loop.foldl_range_induction (n := c.cfg.kvSize)
        (b := (c.cells (c.cfg.seqToStream q), (c.cells (c.cfg.seqToStream q)).size))
        (f := seqAddBody q (lower p0) (upper p1) d) (motive := fun _ st => st.2 ≤ c.cfg.kvSize)
        (by rw [hg.size]) fun i hi st hst => seqAddBody_freed hi hst
      rw [← hg.size] at hfreed
      refine (h.setCells (by rw [hg.size] at hloop ⊢; exact hloop)).setHead ?_
      split
      · rw [hg.size] at hfreed ⊢
        exact hfreed
      · exact Nat.zero_le _

theorem Inv.seqDiv (h : c.Inv) {q : SeqId} (hq : c.cfg.ValidSeq q) (hn : c.cfg.nPosPerEmbd = 1)
    (p0 p1 : Int) {d : Int} (hd : 1 ≤ d) : (c.seqDiv q p0 p1 d).Inv := by
  have hg := h.cells _ (h.cfg.seqToStream_lt hq)
  have hass : c.assert (decide (c.cfg.ValidSeq q) && c.cfg.nPosPerEmbd == 1) = c :=
    assert_eq (by simp [hq, hn])
  simp only [Cache.seqDiv, hass]
  split
  · exact h
  · split
    · exact h
    · apply h.setCells
      rw [hg.size]
      exact seqDiv_loop (lower_nonneg p0) hd hg

theorem Inv.place (h : c.Inv) {u : Ubatch} (hu : u.Shape c.cfg) (hs : u.Sound) :
    ((Op.place u).run c).Inv := by
  obtain ⟨hok, hfits⟩ := h.findSlot hu
  simp only [Op.run, hok]
  split
  · rwa [assert_eq rfl]
  · rename_i si hsi
    rw [assert_eq rfl]
    exact (h.applyUbatch (hfits si hsi) hs).inv

end Cache

variable {c : Cache} {q : SeqId} {f : Config}

/-- One step: a supported operation in a safe state keeps the invariant. -/
theorem Op.run_inv (h : c.Inv) (o : Op) (hv : o.Valid c) (hs : o.Safe c) : (o.run c).Inv := by
  cases o with
  | clear => exact h.clear
  | seqRm q p0 p1 =>
    cases q with
    | none => exact h.seqRm_any p0 p1
    | some q => exact (h.seqRm_some (hv q rfl) p0 p1).1
  | seqCp src dst p0 p1 =>
    obtain ⟨h1, h2, h3⟩ := hv
    simp only [Op.Safe] at hs
    split at hs
    · rename_i he
      exact h.seqCp_same h1 h2 he hs
    · rename_i hne
      exact h.seqCp_cross h1 h2 hne (h3 hne) hs
  | seqKeep q => exact h.seqKeep hv
  | seqAdd q p0 p1 d => exact h.seqAdd hv.1 hv.2 p0 p1 d
  | seqDiv q p0 p1 d => exact h.seqDiv hv.1 hv.2.1 p0 p1 hv.2.2
  | place u => exact h.place hv hs

/-- The states of a run, the first included. -/
def trace (c : Cache) : List Op → List Cache
  | [] => [c]
  | o :: os => c :: trace (o.run c) os

/-- Every operation of a run meets a condition in the state before it. -/
def AllSteps (P : Cache → Op → Prop) (c : Cache) : List Op → Prop
  | [] => True
  | o :: os => P c o ∧ AllSteps P (o.run c) os

/-- Sequence `q` has a cell at position `p` in some stream. -/
def Cache.Holds (c : Cache) (q : SeqId) (p : Int) : Prop :=
  ∃ t < c.cfg.nStream, ∃ i < (c.cells t).size,
    q ∈ ((c.cells t).cell i).seq ∧ ((c.cells t).cell i).pos = p

/-- No assertion of the cache or of its cells has failed. -/
def Cache.Clean (c : Cache) : Prop := c.ok = true ∧ ∀ t < c.cfg.nStream, (c.cells t).ok = true

/-- `seq_pos_min` and `seq_pos_max` are the extreme positions of the sequence. -/
def Cache.Extremes (c : Cache) (q : SeqId) : Prop :=
  (IsLeast {p | c.Holds q p} (c.seqPosMin q) ∧ IsGreatest {p | c.Holds q p} (c.seqPosMax q)) ∨
    ((∀ p, ¬ c.Holds q p) ∧ c.seqPosMin q = -1 ∧ c.seqPosMax q = -1)

theorem Cache.Inv.clean (h : c.Inv) : c.Clean := ⟨h.ok, fun t ht => (h.cells t ht).ok⟩

/-- A sequence only has cells in its own stream. -/
theorem Cache.Inv.holds_iff (h : c.Inv) (hq : c.cfg.ValidSeq q) (p : Int) :
    c.Holds q p ↔ ∃ i < (c.cells (c.cfg.seqToStream q)).size,
      q ∈ ((c.cells (c.cfg.seqToStream q)).cell i).seq ∧
        ((c.cells (c.cfg.seqToStream q)).cell i).pos = p := by
  constructor
  · rintro ⟨t, ht, i, hi, hm, hp⟩
    have hg := h.cells t ht
    have := (hg.home i (by rwa [hg.size] at hi) q hm).2
    subst this
    exact ⟨i, hi, hm, hp⟩
  · rintro ⟨i, hi, hm, hp⟩
    exact ⟨_, h.cfg.seqToStream_lt hq, i, hi, hm, hp⟩

theorem Cache.Inv.extremes (h : c.Inv) (hq : c.cfg.ValidSeq q) : c.Extremes q := by
  have hg := h.cells _ (h.cfg.seqToStream_lt hq)
  have hiff := h.holds_iff hq
  rcases hg.toInv.seqPosMin_spec q with ⟨i, hi, hm, hp, hmin⟩ | ⟨hnone, hmin⟩
  · left
    refine ⟨⟨(hiff _).mpr ⟨i, hi, hm, hp⟩, ?_⟩, ?_⟩
    · rintro p hp'
      obtain ⟨j, hj, hjm, rfl⟩ := (hiff p).mp hp'
      exact hmin j hj hjm
    · rcases hg.toInv.seqPosMax_spec q with ⟨i', hi', hm', hp', hmax⟩ | ⟨hnone, -⟩
      · refine ⟨(hiff _).mpr ⟨i', hi', hm', hp'⟩, ?_⟩
        rintro p hp''
        obtain ⟨j, hj, hjm, rfl⟩ := (hiff p).mp hp''
        exact hmax j hj hjm
      · exact absurd hm (hnone i hi)
  · right
    refine ⟨fun p hp => ?_, hmin, ?_⟩
    · obtain ⟨j, hj, hjm, -⟩ := (hiff p).mp hp
      exact hnone j hj hjm
    · rcases hg.toInv.seqPosMax_spec q with ⟨i', hi', hm', -, -⟩ | ⟨-, hmax⟩
      · exact absurd hm' (hnone i' hi')
      · exact hmax

/-- The empty cache satisfies the invariant. -/
theorem Cache.init_inv (hf : f.Valid) : (Cache.init f).Inv where
  cfg := hf
  ok := rfl
  cells _ _ :=
    { toFull := Cells.resize_full f.kvSize
      size := rfl
      ok := rfl
      home := fun i _ q hq => by simp [Cache.init, Cells.resize] at hq }
  heads _ _ := Nat.zero_le _

/-- The invariant holds along every safe run. -/
theorem trace_inv : ∀ (ops : List Op) {c : Cache}, c.Inv →
    AllSteps (fun c o => o.Valid c ∧ o.Safe c) c ops → ∀ c' ∈ trace c ops, c'.Inv
  | [], c, h, _, c', hc' => by
    rw [trace, mem_singleton] at hc'
    rwa [hc']
  | o :: os, c, h, hs, c', hc' => by
    rw [trace, mem_cons] at hc'
    rcases hc' with rfl | hc'
    · exact h
    · exact trace_inv os (o.run_inv h hs.1.1 hs.1.2) hs.2 c' hc'

/-- In every run from the empty cache whose steps are safe, every assertion holds and the
recorded extreme positions are the true ones, in every state. -/
theorem safe_run_respects_cells (f : Config) (hf : f.Valid) (ops : List Op)
    (hs : AllSteps (fun c o => o.Valid c ∧ o.Safe c) (Cache.init f) ops) :
    ∀ c ∈ trace (Cache.init f) ops, c.Clean ∧ ∀ q, c.cfg.ValidSeq q → c.Extremes q := by
  intro c hc
  have h := trace_inv ops (Cache.init_inv hf) hs c hc
  exact ⟨h.clean, fun q hq => h.extremes hq⟩

/-- The next `n` tokens of sequence `q` from position `p` on. -/
def Ubatch.next (q : SeqId) (p : Int) (n : Nat) : Ubatch :=
  { nTokens := n, nPos := 1, pos := fun i => p + i, seqId := fun _ => [q], seqIdUnq := [q] }

theorem Ubatch.next_shape (hq : f.ValidSeq q) (p : Int) {n : Nat} (hn : 0 < n) :
    (Ubatch.next q p n).Shape f where
  tokens := hn
  unq := by simp [Ubatch.next]
  nodup := by simp [Ubatch.next]
  valid i _ r hr := by
    rw [Ubatch.next, mem_singleton] at hr
    rwa [hr]
  blocks _ := by simp [Ubatch.next, Nat.mod_one]
  block _ s hs k _ := by
    have : s = 0 := by simpa [Ubatch.next] using hs
    subst this
    rfl

theorem Ubatch.next_sound {p : Int} (hp : 0 ≤ p) (n : Nat) : (Ubatch.next q p n).Sound :=
  fun i _ => ⟨by simp only [Ubatch.next]; omega, by simp [Ubatch.next], by simp [Ubatch.next]⟩

/-- A single token at position `p` of sequence `q`. -/
def Ubatch.single (q : SeqId) (p : Int) : Ubatch := .next q p 1

theorem Ubatch.single_shape (hq : f.ValidSeq q) (p : Int) : (Ubatch.single q p).Shape f :=
  next_shape hq p Nat.one_pos

theorem Ubatch.single_sound {p : Int} (hp : 0 ≤ p) : (Ubatch.single q p).Sound := next_sound hp 1

/-- One sequence per stream, two cells each. -/
def twoStreams : Config :=
  { kvSize := 2, nStream := 2, nSeqMax := 2, nSwa := 0, swaType := .none, nPosPerEmbd := 1 }

theorem twoStreams_valid : twoStreams.Valid := ⟨.inr rfl, by decide, by decide⟩

/-- The two streams with six cells each. -/
def wideStreams : Config := { twoStreams with kvSize := 6 }

theorem wideStreams_valid : wideStreams.Valid := ⟨.inr rfl, by decide, by decide⟩

/-- Two tokens of the first sequence and three of the second in their streams. -/
def filledStreams : Cache :=
  (Op.place (.next 1 0 3)).run ((Op.place (.next 0 0 2)).run (Cache.init wideStreams))

/-- A shifted cell is copied to the other stream. -/
def shiftAndCopy : List Op :=
  [.place (.single 0 3), .seqAdd 0 0 (-1) 2, .seqCp 0 1 (-1) (-1), .seqDiv 1 0 (-1) 2]

set_option maxRecDepth 10000 in
private theorem shiftAndCopy_safe :
    AllSteps (fun c o => o.Valid c ∧ o.Safe c) (Cache.init twoStreams) shiftAndCopy := by
  refine ⟨⟨Ubatch.single_shape (by decide) 3, Ubatch.single_sound (by decide)⟩,
    ⟨⟨?_, ?_⟩, trivial⟩, ⟨⟨?_, ?_, ?_⟩, ?_⟩, ⟨⟨?_, ?_, ?_⟩, trivial⟩, trivial⟩
  case refine_6 =>
    simp only [Op.Safe]
    decide
  all_goals decide

theorem safe_run_respects_cells_shiftAndCopy :
    AllSteps (fun c o => o.Valid c ∧ o.Safe c) (Cache.init twoStreams) shiftAndCopy ∧
    ∀ c ∈ trace (Cache.init twoStreams) shiftAndCopy,
      c.Clean ∧ ∀ q, c.cfg.ValidSeq q → c.Extremes q :=
  ⟨shiftAndCopy_safe,
    safe_run_respects_cells twoStreams twoStreams_valid shiftAndCopy shiftAndCopy_safe⟩

/-- One stream of two cells for two sequences. -/
def unified : Config :=
  { kvSize := 2, nStream := 1, nSeqMax := 2, nSwa := 0, swaType := .none, nPosPerEmbd := 1 }

/-- The same copy twice, then removal of the copy. -/
def copyTwice : List Op :=
  [.place (.single 0 0), .seqCp 0 1 (-1) (-1), .seqCp 0 1 (-1) (-1), .seqRm (some 1) (-1) (-1)]

set_option maxRecDepth 10000 in
private theorem copyTwice_valid :
    AllSteps (fun c o => o.Valid c) (Cache.init unified) copyTwice := by
  refine ⟨Ubatch.single_shape (by decide) 0, ⟨?_, ?_, ?_⟩, ⟨?_, ?_, ?_⟩, ?_, trivial⟩
  case refine_7 =>
    intro r hr
    cases hr
    decide
  all_goals decide

/-- A supported run that adds a sequence to a cell that has it. The position entry is counted
twice, so the copy keeps a greatest position after its removal from every cell. -/
theorem copyTwice_breaks_cells : unified.Valid ∧
    AllSteps (fun c o => o.Valid c) (Cache.init unified) copyTwice ∧
    ∃ c ∈ trace (Cache.init unified) copyTwice, ¬ c.Clean ∧ c.cfg.ValidSeq 1 ∧ ¬ c.Extremes 1 := by
  refine ⟨⟨.inl rfl, by decide, by decide⟩, copyTwice_valid, ?_⟩
  have hok : ((copyTwice.foldl Op.run (Cache.init unified)).cells 0).ok = false := by
    decide +kernel
  have hpos : ((copyTwice.foldl Op.run (Cache.init unified)).cells 0).seqPos 1 = {0} := by
    decide +kernel
  have hseq : ∀ i < 2, (1 : SeqId) ∉
      (((copyTwice.foldl Op.run (Cache.init unified)).cells 0).cell i).seq := by decide +kernel
  have hsize : ((copyTwice.foldl Op.run (Cache.init unified)).cells 0).size = 2 := by
    decide +kernel
  have hcfg : (copyTwice.foldl Op.run (Cache.init unified)).cfg = unified := by decide +kernel
  have hmem : copyTwice.foldl Op.run (Cache.init unified) ∈
      trace (Cache.init unified) copyTwice := by
    simp only [copyTwice, trace, List.foldl, mem_cons, true_or, or_true]
  generalize copyTwice.foldl Op.run (Cache.init unified) = c at *
  have hmin : c.seqPosMin 1 = 0 := by
    have hstream : c.cfg.seqToStream 1 = 0 := by rw [hcfg]; rfl
    rw [Cache.seqPosMin, hstream, Cells.seqPosMin, hpos]
    simp
  refine ⟨c, hmem, fun h => ?_, by rw [hcfg]; decide, ?_⟩
  · have := h.2 0 (by rw [hcfg]; decide)
    rw [hok] at this
    contradiction
  · rintro (⟨⟨⟨t, ht, i, hi, hq, -⟩, -⟩, -⟩ | ⟨-, h, -⟩)
    · rw [hcfg] at ht
      obtain rfl : t = 0 := Nat.lt_one_iff.mp ht
      rw [hsize] at hi
      exact hseq i hi hq
    · rw [hmin] at h
      contradiction

end Llama.Kv
