import Llama.Kv.Run
import Mathlib.Data.Set.Finite.Lemmas
import Mathlib.Data.Int.Interval
import Mathlib.Data.Int.ConditionallyCompleteOrder
import Mathlib.Order.ConditionallyCompleteLattice.Basic

/-!
# Reuse of cells outside the window

`find_slot` hands out cells whose position the next token of their sequence no longer
sees, in the order of the cells and not of the positions. `apply_ubatch` then purges what
is left below. The positions of a sequence stay an interval, and what the window shows to
the next token stays in the cache.

A window may mask even the last position of a sequence. Then the whole sequence may go.
-/

namespace Llama.Kv

open List Function

variable {p : Int} {c : Cache} {q : SeqId} {n : Nat}

/-- What is masked for one position stays masked for later ones, and so does everything
before it. -/
theorem isMaskedSwa_mono {nSwa : Nat} {t : SwaType} {p' m m' : Int} (hp : p ≤ p') (hp' : p' ≤ m)
    (hm : m ≤ m') (h : isMaskedSwa nSwa t p' (m + 1) = true) :
    isMaskedSwa nSwa t p (m' + 1) = true := by
  cases t with
  | none => simp [isMaskedSwa] at h
  | standard =>
    simp only [isMaskedSwa, decide_eq_true_eq] at h ⊢
    omega
  | chunked =>
    simp only [isMaskedSwa, decide_eq_true_eq] at h ⊢
    rcases Nat.eq_zero_or_pos nSwa with hz | hz
    · subst hz
      simp only [Nat.cast_zero, Int.mul_zero] at h ⊢
      omega
    · have hdiv : (m + 1) / (nSwa : Int) ≤ (m' + 1) / nSwa := Int.ediv_le_ediv (by omega) (by omega)
      have hmul := Int.mul_le_mul_of_nonneg_right hdiv (Int.natCast_nonneg nSwa)
      omega
  | symmetric =>
    simp only [isMaskedSwa, Bool.or_eq_true, decide_eq_true_eq] at h ⊢
    omega

namespace Cache

variable {c : Cache} {u : Ubatch} {si : SlotInfo}

/-- After the placing loop every cell of the slot has the record of its token. -/
theorem placed_inside (h : c.Inv) (hs : si.Fits c u) (hu : u.Sound) {s k : Nat}
    (hlt : s < si.strm.length) (hk : k < si.size) :
    (((range si.strm.length).foldl (placeStream u si) (c, fun _ => -1)).1.cells
        (si.strmAt s)).cell ((si.idxsAt s).getD k 0) =
      u.record (s * si.size + k) ((c.cells (si.strmAt s)).cell ((si.idxsAt s).getD k 0)) := by
  have key := Loop.foldl_range_induction (n := si.strm.length) (b := (c, fun _ => -1))
    (f := placeStream u si)
    (motive := fun n st => Placed c si n st ∧ ∀ s < n, ∀ k < si.size,
      (st.1.cells (si.strmAt s)).cell ((si.idxsAt s).getD k 0) =
        u.record (s * si.size + k) ((c.cells (si.strmAt s)).cell ((si.idxsAt s).getD k 0)))
    ⟨⟨h, rfl, rfl, fun _ _ => rfl, fun _ _ _ => rfl, by simp⟩, by simp⟩ ?_
  · exact key.2 s hlt k hk
  · rintro n hn st ⟨hst, hin⟩
    refine ⟨hst.step h hs hu hn, fun s' hs' k' hk' => ?_⟩
    obtain ⟨x, r, heq, -, -, hrec, -⟩ := hst.turn h hs hu hn
    rw [heq]
    by_cases he : s' = n
    · subst he
      simp only [Cache.setCells, update_self]
      exact hrec k' hk'
    · have hne : si.strmAt s' ≠ si.strmAt n := by
        intro heq
        exact he (Fits.strmAt_inj hs (by omega) hn heq)
      simp only [Cache.setCells, update_of_ne hne]
      exact hin s' (by omega) k' hk'

variable {q : SeqId} {p : Int}

section

variable (h : c.Inv) (hs : si.Fits c u)
include h hs

/-- Where a sequence is after the placing loop, what the loop overwrote apart. -/
theorem placed_holds (hu : u.Sound) (hno : ¬ c.Overwrites si q p) :
    (∃ t < c.cfg.nStream, ∃ i < c.cfg.kvSize,
        q ∈ ((((range si.strm.length).foldl (placeStream u si) (c, fun _ => -1)).1.cells
          t).cell i).seq ∧
        ((((range si.strm.length).foldl (placeStream u si) (c, fun _ => -1)).1.cells
          t).cell i).pos = p) ↔
      (∃ i < u.nTokens, q ∈ u.seqId i ∧ u.pos i = p) ∨ c.Holds q p := by
  have hpl := placed_all h hs hu
  constructor
  · rintro ⟨t, ht, i, hi, hq, hp⟩
    by_cases hcov : si.Covers t i
    · obtain ⟨s, hlt, rfl, hm⟩ := hcov
      obtain ⟨k, hk, rfl⟩ := getElem_of_mem hm
      rw [← getD_eq_getElem _ 0 hk] at hq hp
      rw [hs.size s hlt] at hk
      rw [placed_inside h hs hu hlt hk] at hq hp
      left
      refine ⟨s * si.size + k, ?_, mem_toFinset.mp hq, hp⟩
      rw [hs.tokens, Nat.mul_comm s]
      exact Nat.mul_add_lt_mul_of_lt_of_lt hlt hk
    · rw [hpl.outside t i fun s hlt he hm => hcov ⟨s, hlt, he, hm⟩] at hq hp
      exact .inr ⟨t, ht, i, (h.cells t ht).lt_size hi, hq, hp⟩
  · rintro (⟨i, hi, hq, hp⟩ | ⟨t, ht, i, hi, hq, hp⟩)
    · have hpos := hs.pos
      rw [hs.tokens] at hi
      have hlt : i / si.size < si.strm.length := Nat.div_lt_of_lt_mul (by rwa [Nat.mul_comm])
      have hk : i % si.size < si.size := Nat.mod_lt _ hpos
      have hrec := placed_inside h hs hu hlt hk
      rw [Nat.div_add_mod'] at hrec
      have hlen : i % si.size < (si.idxsAt (i / si.size)).length := by rwa [hs.size _ hlt]
      have hmem : (si.idxsAt (i / si.size)).getD (i % si.size) 0 ∈ si.idxsAt (i / si.size) := by
        rw [getD_eq_getElem _ 0 hlen]
        exact getElem_mem hlen
      refine ⟨_, hs.stream _ hlt, _, (hs.usable _ hlt _ hmem).1, ?_, ?_⟩
      · rw [hrec]
        exact mem_toFinset.mpr hq
      · rw [hrec]
        exact hp
    · rw [(h.cells t ht).size] at hi
      refine ⟨t, ht, i, hi, ?_⟩
      rw [hpl.outside t i fun s hlt he hm => hno ⟨s, hlt, i, hm, he ▸ hq, by rw [he, hp]⟩]
      exact ⟨hq, hp⟩

/-- What `apply_ubatch` makes of the positions of a sequence: those of its tokens are new,
and all up to the greatest overwritten one are gone. -/
theorem Inv.holds_applyUbatch (hu : u.Sound) : (c.applyUbatch si u).Holds q p ↔
      ((∃ i < u.nTokens, q ∈ u.seqId i ∧ u.pos i = p) ∨ c.Holds q p) ∧ ¬ c.Overwrites si q p := by
  have hpl := placed_all h hs hu
  have happ := h.applyUbatch hs hu
  constructor
  · rintro ⟨t, ht, i, hi, hq, hp⟩
    rw [(happ.inv.cells t ht).size] at hi
    rw [happ.cfg] at ht hi
    rw [h.applyUbatch_cell hs hu ht hi] at hq hp
    rw [Cell.mem_purged] at hq
    obtain ⟨hq', hlt⟩ := hq
    rw [Cell.pos_purged hq' hlt] at hp
    have hnn : 0 ≤ p := by
      have hg := hpl.inv.cells t (by rwa [hpl.cfg])
      rw [← hp]
      exact hg.pos_of_mem (by rwa [hpl.cfg]) hq'
    have hno : ¬ c.Overwrites si q p := by
      rw [← hpl.le_iff_overwrites q hnn]
      omega
    exact ⟨(placed_holds h hs hu hno).mp ⟨t, ht, i, hi, hq', hp⟩, hno⟩
  · rintro ⟨hold, hno⟩
    obtain ⟨t, ht, i, hi, hq, hp⟩ := (placed_holds h hs hu hno).mpr hold
    have hnn : 0 ≤ p := by
      have hg := hpl.inv.cells t (by rwa [hpl.cfg])
      rw [← hp]
      exact hg.pos_of_mem (by rwa [hpl.cfg]) hq
    rw [← hpl.le_iff_overwrites q hnn] at hno
    have hlt := lt_of_not_ge hno
    rw [← hp] at hlt
    have hcell := h.applyUbatch_cell hs hu ht hi
    refine ⟨t, by rwa [happ.cfg], i, ?_, ?_, ?_⟩
    · rw [(happ.inv.cells t (by rwa [happ.cfg])).size, happ.cfg]
      exact hi
    · rw [hcell, Cell.mem_purged]
      exact ⟨hq, hlt⟩
    · rw [hcell, Cell.pos_purged hq hlt, hp]

/-- Only cells that the next token does not see are overwritten. -/
theorem Inv.masked_of_overwrites (ho : c.Overwrites si q p) : ∃ p', p ≤ p' ∧ c.Holds q p' ∧
      isMaskedSwa c.cfg.nSwa c.cfg.swaType p' (c.seqPosMax q + 1) = true := by
  obtain ⟨s, hlt, i, hi, hq, hp⟩ := ho
  obtain ⟨hlt', huse⟩ := hs.usable s hlt i hi
  have hg := h.cells _ (hs.stream s hlt)
  have hpos := hg.pos_of_mem hlt' hq
  refine ⟨_, hp, ⟨_, hs.stream s hlt, i, hg.lt_size hlt', hq, rfl⟩, ?_⟩
  rcases hg.canUse_cases hlt' huse with hempty | ⟨-, r, hr⟩
  · omega
  · obtain rfl : q = r := by
      rw [hr] at hq
      exact Finset.mem_singleton.mp hq
    have hne : ¬ ((c.cells (si.strmAt s)).cell i).pos = -1 := by omega
    simp only [Cells.canUse, Cells.isEmpty, seqGet_singleton hr, Bool.or_eq_true, beq_iff_eq, hne,
      false_or, Bool.and_eq_true] at huse
    rw [Cache.seqPosMax, (hg.home i hlt' q hq).2]
    exact huse.2

end

theorem Overwrites.mono {p' : Int} (hp : p ≤ p') (h : c.Overwrites si q p') :
    c.Overwrites si q p := by
  obtain ⟨s, hlt, i, hi, hq, hle⟩ := h
  exact ⟨s, hlt, i, hi, hq, hp.trans hle⟩

/-- The recorded maximum is the greatest position of a sequence that is present. -/
theorem Inv.isGreatest (h : c.Inv) (hq : c.cfg.ValidSeq q) (hp : c.Holds q p) :
    IsGreatest {p | c.Holds q p} (c.seqPosMax q) := by
  rcases h.extremes hq with ⟨-, hmax⟩ | ⟨hnone, -⟩
  · exact hmax
  · exact absurd hp (hnone p)

end Cache

/-- The positions that an ubatch has for a sequence. -/
def Ubatch.positions (u : Ubatch) (q : SeqId) : Set Int :=
  {p | ∃ i < u.nTokens, q ∈ u.seqId i ∧ u.pos i = p}

/-- The new positions of every sequence follow its maximum. A sequence that is absent may
start anywhere. -/
def Cache.Continues (c : Cache) (u : Ubatch) : Prop :=
  ∀ q, ∃ (base : Int) (n : Nat), u.positions q = Set.Ioc base (base + n) ∧
    (base = c.seqPosMax q ∨ ((∀ p, ¬ c.Holds q p) ∧ -1 ≤ base))

/-- What was inserted for each sequence. -/
structure History where
  /-- All its positions. -/
  ever : SeqId → Set Int
  /-- Those since it was last absent from the cache. -/
  life : SeqId → Set Int

namespace History

/-- Nothing was inserted. -/
def empty : History := ⟨fun _ => ∅, fun _ => ∅⟩

/-- The history after an ubatch was applied to `c`. -/
def insert (H : History) (c : Cache) (u : Ubatch) : History where
  ever q := H.ever q ∪ u.positions q
  life q := {p ∈ H.life q | ∃ r, c.Holds q r} ∪ u.positions q

end History

/-- The states of a run from the empty cache that only inserts, each with its history. -/
inductive Filling (f : Config) : Cache → History → Prop
  | init : Filling f (Cache.init f) History.empty
  | step {c : Cache} {H : History} {u : Ubatch} {si : SlotInfo} : Filling f c H →
      u.Shape f → u.Sound → c.Continues u → (c.findSlot u false).1 = some si →
      Filling f (c.applyUbatch si u) (H.insert c u)

/-- A position of `S` that sequence `q` has lost is masked behind some position of `S`. -/
def Cache.Faded (c : Cache) (q : SeqId) (S : Set Int) : Prop :=
  ∀ p ∈ S, ¬ c.Holds q p → ∃ m ∈ S, p ≤ m ∧ isMaskedSwa c.cfg.nSwa c.cfg.swaType p (m + 1) = true

/-- What such a run keeps about a sequence. -/
structure Filled (c : Cache) (H : History) (q : SeqId) : Prop where
  interval : {p | c.Holds q p}.OrdConnected
  inserted : ∀ p, c.Holds q p → p ∈ H.life q
  life_sub : H.life q ⊆ H.ever q
  finite : (H.ever q).Finite
  top : ∀ p, c.Holds q p → ∀ r ∈ H.life q, r ≤ c.seqPosMax q
  fadedLife : c.Faded q (H.life q)
  fadedEver : c.Faded q (H.ever q)

theorem Filled.init (f : Config) (q : SeqId) : Filled (Cache.init f) History.empty q := by
  have hnone : ∀ p, ¬ (Cache.init f).Holds q p := by
    rintro p ⟨t, -, i, -, hq, -⟩
    simp [Cache.init, Cells.resize] at hq
  refine ⟨?_, fun p hp => absurd hp (hnone p), ?_, ?_, fun p hp => absurd hp (hnone p), ?_, ?_⟩
  · have : {p | (Cache.init f).Holds q p} = ∅ := Set.eq_empty_of_forall_notMem hnone
    rw [this]
    exact Set.ordConnected_empty
  · exact Set.Subset.rfl
  · exact Set.finite_empty
  · intro p hp
    exact absurd hp (Set.notMem_empty p)
  · intro p hp
    exact absurd hp (Set.notMem_empty p)

section Step

variable {c : Cache} {H : History} {u : Ubatch} {si : SlotInfo} {q : SeqId}

variable {p : Int}

/-- The tokens of a sequence come above everything that is overwritten. -/
theorem Cache.Continues.not_overwrites (hc : c.Continues u) (h : c.Inv) (hs : si.Fits c u)
    (hq : c.cfg.ValidSeq q) (hp : p ∈ u.positions q) : ¬ c.Overwrites si q p := by
  intro ho
  obtain ⟨p', hle, hp', -⟩ := h.masked_of_overwrites hs ho
  obtain ⟨base, n, hpos, hbase⟩ := hc q
  rw [hpos] at hp
  have hmax := (h.isGreatest hq hp').2 hp'
  rcases hbase with rfl | ⟨hnone, -⟩
  · have := hp.1
    omega
  · exact hnone p' hp'

/-- The positions of a sequence after a step that continues it. -/
theorem Cache.Inv.holds_step (h : c.Inv) (hs : si.Fits c u) (hu : u.Sound) (hc : c.Continues u)
    (hq : c.cfg.ValidSeq q) :
    (c.applyUbatch si u).Holds q p ↔ p ∈ u.positions q ∨ c.Holds q p ∧ ¬ c.Overwrites si q p := by
  rw [h.holds_applyUbatch hs hu]
  constructor
  · rintro ⟨hp | hp, hno⟩
    · exact .inl hp
    · exact .inr ⟨hp, hno⟩
  · rintro (hp | ⟨hp, hno⟩)
    · exact ⟨.inl hp, hc.not_overwrites h hs hq hp⟩
    · exact ⟨.inr hp, hno⟩

variable (h : c.Inv) (hs : si.Fits c u) (hu : u.Sound) (hc : c.Continues u)
  (hq : c.cfg.ValidSeq q)
include h hs hu hc hq

/-- What a step loses is masked behind the maximum before the step. -/
theorem Cache.Faded.step {S S' : Set Int} (hS : c.Faded q S)
    (hcfg : (c.applyUbatch si u).cfg = c.cfg) (hlife : ∀ p, c.Holds q p → p ∈ S) (hsub : S ⊆ S')
    (hsup : S' ⊆ S ∪ u.positions q) : (c.applyUbatch si u).Faded q S' := by
  have hstep := fun {p} => h.holds_step (p := p) hs hu hc hq
  intro p hp hlost
  rw [hstep] at hlost
  rw [hcfg]
  have hold : p ∈ S := (hsup hp).resolve_right fun hnew => hlost (.inl hnew)
  by_cases hheld : c.Holds q p
  · have ho : c.Overwrites si q p := by
      by_contra hno
      exact hlost (.inr ⟨hheld, hno⟩)
    obtain ⟨p', hle, hp', hmask⟩ := h.masked_of_overwrites hs ho
    have hgr := h.isGreatest hq hheld
    refine ⟨c.seqPosMax q, hsub (hlife _ hgr.1), hgr.2 hheld, ?_⟩
    exact isMaskedSwa_mono hle (hgr.2 hp') (le_refl _) hmask
  · obtain ⟨m, hm, hpm, hmask⟩ := hS p hold hheld
    exact ⟨m, hsub hm, hpm, hmask⟩

variable (hf : Filled c H q)
include hf

/-- The positions stay without a hole: the new ones follow the maximum, and the lost ones
are the lowest. -/
theorem Filled.interval_step : {p | (c.applyUbatch si u).Holds q p}.OrdConnected := by
  have hstep := fun {p} => h.holds_step (p := p) hs hu hc hq
  obtain ⟨base, n, hpos, hbase⟩ := hc q
  -- below a position that is present, nothing is lost above one that is kept
  have hold : ∀ {x y r}, c.Holds q x → ¬ c.Overwrites si q x → c.Holds q y → x ≤ r → r ≤ y →
      c.Holds q r ∧ ¬ c.Overwrites si q r := by
    intro x y r hx hno hy hxr hry
    exact ⟨hf.interval.out hx hy ⟨hxr, hry⟩, fun ho => hno (ho.mono hxr)⟩
  refine ⟨fun x hx y hy r hr => ?_⟩
  rw [Set.mem_ofPred_eq, hstep] at hx hy ⊢
  rw [hpos] at hx hy ⊢
  by_cases hrb : base < r
  · left
    refine ⟨hrb, ?_⟩
    rcases hy with hy | ⟨hy, -⟩
    · exact hr.2.trans hy.2
    · have hmax := (h.isGreatest hq hy).2 hy
      rcases hbase with rfl | ⟨hnone, -⟩
      · have := hr.2
        omega
      · exact absurd hy (hnone y)
  · right
    have hxb : ¬ base < x := by
      have := hr.1
      omega
    rcases hx with hx | ⟨hx, hno⟩
    · exact absurd hx.1 hxb
    · rcases hbase with rfl | ⟨hnone, -⟩
      · exact hold hx hno (h.isGreatest hq hx).1 hr.1 (by omega)
      · exact absurd hx (hnone x)

/-- A sequence that is present after the step has its last position. -/
theorem Filled.top_step (hinv : (c.applyUbatch si u).Inv) (hcfg : (c.applyUbatch si u).cfg = c.cfg)
    (hp : (c.applyUbatch si u).Holds q p) :
    ∀ r ∈ (H.insert c u).life q, r ≤ (c.applyUbatch si u).seqPosMax q := by
  have hstep := fun {p} => h.holds_step (p := p) hs hu hc hq
  have hle : ∀ r, (c.applyUbatch si u).Holds q r → r ≤ (c.applyUbatch si u).seqPosMax q :=
    fun r hr => (hinv.isGreatest (by rwa [hcfg]) hr).2 hr
  rintro r (⟨hr, y, hy⟩ | hr)
  · have hgr := h.isGreatest hq hy
    have hrm := hf.top y hy r hr
    rw [hstep] at hp
    rcases hp with hp | ⟨hp, hno⟩
    · -- a token of the sequence is above the old maximum
      have hnew := hle p (hstep.mpr (.inl hp))
      obtain ⟨base, n, hpos, hbase⟩ := hc q
      rw [hpos] at hp
      rcases hbase with rfl | ⟨hnone, -⟩
      · have := hp.1
        omega
      · exact absurd hy (hnone y)
    · -- the old maximum is kept with any position below it
      apply hrm.trans
      apply hle
      exact hstep.mpr (.inr ⟨hgr.1, fun ho => hno (ho.mono (hgr.2 hp))⟩)
  · exact hle r (hstep.mpr (.inl hr))

theorem Filled.step : Filled (c.applyUbatch si u) (H.insert c u) q := by
  have happ := h.applyUbatch hs hu
  have hstep := fun {p} => h.holds_step (p := p) hs hu hc hq
  refine ⟨hf.interval_step h hs hu hc hq, fun p hp => ?_, ?_, ?_,
    fun p hp => hf.top_step h hs hu hc hq happ.inv happ.cfg hp, ?_, ?_⟩
  · rcases hstep.mp hp with hp | ⟨hp, -⟩
    · exact .inr hp
    · exact .inl ⟨hf.inserted p hp, p, hp⟩
  · rintro p (⟨hp, -⟩ | hp)
    · exact .inl (hf.life_sub hp)
    · exact .inr hp
  · obtain ⟨base, n, hpos, -⟩ := hc q
    apply hf.finite.union
    rw [hpos]
    exact Set.finite_Ioc _ _
  · -- a sequence that was absent starts a new life
    apply Cache.Faded.step h hs hu hc hq (S := {p ∈ H.life q | ∃ r, c.Holds q r})
    · rintro p ⟨hp, hr⟩ hlost
      obtain ⟨m, hm, hpm⟩ := hf.fadedLife p hp hlost
      exact ⟨m, ⟨hm, hr⟩, hpm⟩
    · exact happ.cfg
    · exact fun p hp => ⟨hf.inserted p hp, p, hp⟩
    · exact Set.subset_union_left
    · exact Set.Subset.rfl
  · apply Cache.Faded.step h hs hu hc hq hf.fadedEver happ.cfg
    · exact fun p hp => hf.life_sub (hf.inserted p hp)
    · exact Set.subset_union_left
    · exact Set.Subset.rfl

end Step

theorem Filling.inv {f : Config} (hf : f.Valid) {c : Cache} {H : History} (h : Filling f c H) :
    c.Inv ∧ c.cfg = f ∧ ∀ q, f.ValidSeq q → Filled c H q := by
  induction h with
  | init => exact ⟨Cache.init_inv hf, rfl, fun q _ => Filled.init f q⟩
  | step hrun hshape hsound hcont hslot ih =>
    obtain ⟨hinv, hcfg, hfilled⟩ := ih
    rw [← hcfg] at hshape
    have hfits := (hinv.findSlot hshape).2 _ hslot
    have happ := hinv.applyUbatch hfits hsound
    refine ⟨happ.inv, happ.cfg.trans hcfg, fun q hq => ?_⟩
    rw [← hcfg] at hq
    exact (hfilled q (by rwa [← hcfg])).step hinv hfits hsound hcont hq

/-- `m` is the last position of `S`, and sequence `q` has every position of `S` that a token
behind `m` sees. -/
structure Cache.Shows (c : Cache) (q : SeqId) (S : Set Int) (m : Int) : Prop where
  last : IsGreatest S m
  visible : ∀ p ∈ S, isMaskedSwa c.cfg.nSwa c.cfg.swaType p (m + 1) = false → c.Holds q p

theorem Cache.Faded.shows {S : Set Int} (h : c.Faded q S) (hfin : S.Finite) (hne : S.Nonempty) :
    ∃ m, c.Shows q S m := by
  obtain ⟨m, hm, hmax⟩ := Set.exists_max_image S id hfin hne
  simp only [id_eq] at hmax
  refine ⟨m, ⟨hm, hmax⟩, fun p hp hvis => ?_⟩
  by_contra hlost
  obtain ⟨m', hm', hle, hmask⟩ := h p hp hlost
  rw [isMaskedSwa_mono (le_refl p) hle (hmax m' hm') hmask] at hvis
  contradiction

/-- In every state of a run that only inserts, the positions of a sequence are an interval.
It contains everything inserted since the sequence was last absent that the token behind the
last of these positions sees, which is the maximum of the interval while there is one. -/
theorem visible_positions_kept (f : Config) (hf : f.Valid) (c : Cache) (H : History)
    (h : Filling f c H) (q : SeqId) (hq : f.ValidSeq q) :
    (∀ p, c.Holds q p ↔ 0 ≤ p ∧ c.seqPosMin q ≤ p ∧ p ≤ c.seqPosMax q) ∧
    ((H.life q).Nonempty → ∃ m, c.Shows q (H.life q) m ∧
      ∀ p, c.Holds q p → m = c.seqPosMax q) ∧
    ((H.ever q).Nonempty → ∃ m, c.Shows q (H.ever q) m) := by
  obtain ⟨hinv, hcfg, hfilled⟩ := h.inv hf
  have hfill := hfilled q hq
  rw [← hcfg] at hq
  refine ⟨fun p => ?_, fun hne => ?_, fun hne => hfill.fadedEver.shows hfill.finite hne⟩
  · rcases hinv.extremes hq with ⟨hmin, hmax⟩ | ⟨hnone, hmin, hmax⟩
    · constructor
      · intro hp
        refine ⟨?_, hmin.2 hp, hmax.2 hp⟩
        obtain ⟨t, ht, i, hi, hm, rfl⟩ := hp
        have hg := hinv.cells t ht
        exact hg.pos_of_mem (by rwa [hg.size] at hi) hm
      · rintro ⟨-, h1, h2⟩
        exact hfill.interval.out hmin.1 hmax.1 ⟨h1, h2⟩
    · constructor
      · intro hp
        exact absurd hp (hnone p)
      · omega
  · obtain ⟨m, hm⟩ := hfill.fadedLife.shows (hfill.finite.subset hfill.life_sub) hne
    refine ⟨m, hm, fun p hp => ?_⟩
    have hgr := hinv.isGreatest hq hp
    exact le_antisymm (hfill.top p hp m hm.last.1) (hm.last.2 (hfill.inserted _ hgr.1))

/-- The first `n` tokens of sequence `q`. -/
def Ubatch.start (q : SeqId) (n : Nat) : Ubatch :=
  { nTokens := n, nPos := 1, pos := fun i => i, seqId := fun _ => [q], seqIdUnq := [q] }

theorem Ubatch.start_shape {f : Config} (hq : f.ValidSeq q) (hn : 0 < n) :
    (Ubatch.start q n).Shape f where
  tokens := hn
  unq := by simp [Ubatch.start]
  nodup := by simp [Ubatch.start]
  valid i _ r hr := by
    rw [Ubatch.start, mem_singleton] at hr
    rwa [hr]
  blocks _ := by simp [Ubatch.start, Nat.mod_one]
  block _ s hs k _ := by
    have : s = 0 := by simpa [Ubatch.start] using hs
    subst this
    rfl

theorem Ubatch.start_sound (q : SeqId) (n : Nat) : (Ubatch.start q n).Sound :=
  fun _ _ => ⟨Int.natCast_nonneg _, by simp [Ubatch.start], by simp [Ubatch.start]⟩

theorem Ubatch.mem_positions_start {r : SeqId} :
    p ∈ (Ubatch.start q n).positions r ↔ r = q ∧ 0 ≤ p ∧ p < n := by
  simp only [Ubatch.positions, Ubatch.start, mem_singleton]
  constructor
  · rintro ⟨i, hi, rfl, rfl⟩
    exact ⟨rfl, by omega, by omega⟩
  · rintro ⟨rfl, h0, hn⟩
    exact ⟨p.toNat, by omega, rfl, by omega⟩

theorem Cache.continues_start (h : ∀ p, ¬ c.Holds q p) (n : Nat) :
    c.Continues (Ubatch.start q n) := by
  intro r
  by_cases he : r = q
  · refine ⟨-1, n, Set.ext fun p => ?_, .inr ⟨he ▸ h, le_refl _⟩⟩
    rw [Ubatch.mem_positions_start, Set.mem_Ioc]
    simp only [he, true_and]
    omega
  · refine ⟨c.seqPosMax r, 0, Set.ext fun p => ?_, .inl rfl⟩
    rw [Ubatch.mem_positions_start, Set.mem_Ioc]
    simp only [he, false_and, false_iff]
    omega

/-- Two cells for two sequences, and a window of chunks of two tokens. -/
def chunksOfTwo : Config :=
  { kvSize := 2, nStream := 1, nSeqMax := 2, nSwa := 2, swaType := .chunked, nPosPerEmbd := 1 }

theorem chunksOfTwo_valid : chunksOfTwo.Valid := ⟨.inl rfl, by decide, by decide⟩

/-- Both cells, in order. -/
def bothCells : SlotInfo := { s0 := 0, s1 := 0, strm := [0], idxs := [[0, 1]] }

/-- Sequence 0 has filled a chunk, and the cache. -/
structure Cache.ChunkFull (c : Cache) : Prop where
  cfg : c.cfg = chunksOfTwo
  head : c.heads 0 = 2
  size : (c.cells 0).size = 2
  used : (c.cells 0).getUsed = 2
  cell : ∀ i < 2, (c.cells 0).cell i = { pos := i, seq := {0} }

namespace Cache.ChunkFull

variable {c : Cache} (h : c.ChunkFull)
include h

theorem holds_iff : c.Holds q p ↔ q = 0 ∧ 0 ≤ p ∧ p < 2 := by
  constructor
  · rintro ⟨t, ht, i, hi, hq, hp⟩
    rw [h.cfg] at ht
    obtain rfl : t = 0 := Nat.lt_one_iff.mp ht
    rw [h.size] at hi
    rw [h.cell i hi] at hq hp
    simp only at hp
    exact ⟨Finset.mem_singleton.mp hq, by omega, by omega⟩
  · rintro ⟨rfl, h0, h2⟩
    have hlt : p.toNat < 2 := by omega
    refine ⟨0, by rw [h.cfg]; decide, p.toNat, by rwa [h.size], ?_⟩
    rw [h.cell _ hlt]
    exact ⟨Finset.mem_singleton_self _, Int.toNat_of_nonneg h0⟩

/-- The whole chunk is masked for the next token. -/
theorem canUse (hinv : c.Inv) : ∀ i < 2, (c.cells 0).canUse 2 .chunked i = true := by
  have hmax : (c.cells 0).seqPosMax 0 = 1 := by
    have heq : c.seqPosMax 0 = (c.cells 0).seqPosMax 0 := by
      rw [Cache.seqPosMax, h.cfg]
      rfl
    have hone : c.Holds 0 1 := h.holds_iff.mpr ⟨rfl, by omega, by omega⟩
    have hgr := hinv.isGreatest (by rw [h.cfg]; decide) hone
    have hle := hgr.2 hone
    obtain ⟨-, -, hlt⟩ := h.holds_iff.mp hgr.1
    omega
  intro i hi
  have hget := Cache.seqGet_singleton (congrArg Cell.seq (h.cell i hi))
  have hmask : isMaskedSwa 2 .chunked (i : Int) (1 + 1) = true := by
    rw [isMaskedSwa, decide_eq_true_eq]
    omega
  rw [Cells.canUse, hget, Cells.seqCount, h.cell i hi]
  simp only [hmax, hmask, Finset.card_singleton, beq_self_eq_true, Bool.and_self, Bool.or_true]

/-- So the first chunk of another sequence takes both cells. -/
theorem findSlot (hinv : c.Inv) : (c.findSlot (.start 1 2) false).1 = some bothCells := by
  have huse := h.canUse hinv
  have hstream : findSlotStream chunksOfTwo (c.cells 0) 2 2 false = (some [0, 1], true) := by
    have hg := hinv.cells 0 (by rw [h.cfg]; decide)
    have hpre : ∀ i < 2, (c.cells 0).canUsePre i = true := by
      intro i hi
      apply hg.canUsePre
      rw [h.cfg]
      exact hi
    simp [chunksOfTwo, findSlotStream, h.used, h.size, searchLoop, testCells_one, huse, hpre]
  have hone : ¬ 1 < chunksOfTwo.nStream := by decide
  have hzero : chunksOfTwo.seqToStream 1 = 0 := rfl
  simp only [Cache.findSlot, h.cfg, if_neg hone, Ubatch.start, take_succ_cons, take_zero,
    findSlotLoop, hzero, h.head, hstream]
  rfl

/-- Nothing of the first sequence is left. -/
theorem not_holds (hinv : c.Inv) (p : Int) :
    ¬ (c.applyUbatch bothCells (.start 1 2)).Holds 0 p := by
  have hshape : (Ubatch.start 1 2).Shape c.cfg := by
    rw [h.cfg]
    exact Ubatch.start_shape (by decide) Nat.two_pos
  have hfits := (hinv.findSlot hshape).2 _ (h.findSlot hinv)
  rw [hinv.holds_applyUbatch hfits (Ubatch.start_sound 1 2)]
  rintro ⟨⟨i, -, hq, -⟩ | hp, hno⟩
  · rw [Ubatch.start, mem_singleton] at hq
    contradiction
  · obtain ⟨-, h0, h2⟩ := h.holds_iff.mp hp
    apply hno
    refine ⟨0, Nat.one_pos, 1, by decide, ?_⟩
    have hcell : (c.cells (bothCells.strmAt 0)).cell 1 = { pos := 1, seq := {0} } :=
      h.cell 1 (by omega)
    rw [hcell]
    exact ⟨Finset.mem_singleton_self _, by simp only; omega⟩

end Cache.ChunkFull

/-- The cache after sequence 0 has filled its chunk. -/
def firstChunk : Cache := (Cache.init chunksOfTwo).applyUbatch bothCells (.start 0 2)

/-- What was inserted until then. -/
def firstHistory : History := History.empty.insert (Cache.init chunksOfTwo) (.start 0 2)

set_option maxRecDepth 10000 in
theorem firstChunk_full : firstChunk.ChunkFull :=
  ⟨by decide, by decide, by decide, by decide, by decide⟩

theorem firstChunk_filling : Filling chunksOfTwo firstChunk firstHistory := by
  apply Filling.step Filling.init
  · exact Ubatch.start_shape (by decide) Nat.two_pos
  · exact Ubatch.start_sound 0 2
  · apply Cache.continues_start
    rintro p ⟨t, -, i, -, hq, -⟩
    simp [Cache.init, Cells.resize] at hq
  · decide

/-- The next chunk goes into the same cells. -/
theorem secondChunk_filling : Filling chunksOfTwo (firstChunk.applyUbatch bothCells (.start 1 2))
    (firstHistory.insert firstChunk (.start 1 2)) := by
  have hinv := (firstChunk_filling.inv chunksOfTwo_valid).1
  apply Filling.step firstChunk_filling
  · exact Ubatch.start_shape (by decide) Nat.two_pos
  · exact Ubatch.start_sound 1 2
  · apply Cache.continues_start
    intro p hp
    have := (firstChunk_full.holds_iff.mp hp).1
    contradiction
  · exact firstChunk_full.findSlot hinv

theorem visible_positions_kept_chunks : ∃ c H, Filling chunksOfTwo c H ∧ chunksOfTwo.ValidSeq 1 ∧
    (∀ p, c.Holds 1 p ↔ 0 ≤ p ∧ c.seqPosMin 1 ≤ p ∧ p ≤ c.seqPosMax 1) ∧
    ((H.life 1).Nonempty → ∃ m, c.Shows 1 (H.life 1) m ∧
      ∀ p, c.Holds 1 p → m = c.seqPosMax 1) ∧
    ((H.ever 1).Nonempty → ∃ m, c.Shows 1 (H.ever 1) m) :=
  ⟨_, _, secondChunk_filling, by decide,
    visible_positions_kept chunksOfTwo chunksOfTwo_valid _ _ secondChunk_filling 1 (by decide)⟩

/-- A position that was inserted and that the mask shows at the recorded maximum may be lost:
a full chunk is masked as a whole, and the maximum goes with it. -/
theorem full_chunk_lost : ∃ c H, chunksOfTwo.Valid ∧ Filling chunksOfTwo c H ∧
    chunksOfTwo.ValidSeq 0 ∧ ∃ p ∈ H.ever 0,
      isMaskedSwa c.cfg.nSwa c.cfg.swaType p (c.seqPosMax 0 + 1) = false ∧ ¬ c.Holds 0 p := by
  have hinv := (firstChunk_filling.inv chunksOfTwo_valid).1
  have hgone := firstChunk_full.not_holds hinv
  obtain ⟨hinv', hcfg, -⟩ := secondChunk_filling.inv chunksOfTwo_valid
  refine ⟨_, _, chunksOfTwo_valid, secondChunk_filling, by decide, 1, ?_, ?_, hgone 1⟩
  · left
    right
    rw [Ubatch.mem_positions_start]
    exact ⟨rfl, by decide, by decide⟩
  · rcases hinv'.extremes (q := 0) (by rw [hcfg]; decide) with ⟨⟨h, -⟩, -⟩ | ⟨-, -, hmax⟩
    · exact absurd h (hgone _)
    · rw [hmax, hcfg]
      decide

end Llama.Kv
