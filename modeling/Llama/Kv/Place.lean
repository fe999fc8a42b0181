import Llama.Kv.Slot
import Mathlib.Data.List.GetD

/-!
# Placing the tokens of an ubatch in one stream

The placing loop of `apply_ubatch` writes one record per token into the cells of the
slot and remembers, per sequence, the greatest position it has overwritten.
-/

namespace Llama.Kv

open List Function

/-- Token `i` may be placed in a stream whose sequences satisfy `T`. -/
structure Ubatch.Token (u : Ubatch) (T : SeqId → Prop) (i : Nat) : Prop where
  pos : 0 ≤ u.pos i
  owned : u.seqId i ≠ []
  nodup : (u.seqId i).Nodup
  home : ∀ q ∈ u.seqId i, T q

/-- The record that token `i` leaves in a cell. An overwritten cell is cleared first; an
empty one keeps its old `ext` unless the token brings its own. -/
def Ubatch.record (u : Ubatch) (i : Nat) (old : Cell) : Cell :=
  let base := if old.pos = -1 then old else {}
  { base with
    pos := u.pos i
    ext := if u.isPos2d then u.ext i else base.ext
    seq := (u.seqId i).toFinset }

variable {u : Ubatch} {x : Cells} {n i idx : Nat} {T : SeqId → Prop}

theorem Ubatch.Token.record_wf (h : u.Token T i) (old : Cell) : (u.record i old).Wf T := by
  have hp := h.pos
  refine ⟨.inr hp, ⟨fun he => ?_, fun he => ?_⟩, fun q hq => ?_⟩
  · simp only [Ubatch.record] at he
    omega
  · exact absurd (toFinset_eq_empty_iff _ |>.mp he) h.owned
  · exact h.home q (mem_toFinset.mp hq)

namespace Cells

theorem Inv.replaced_self (h : x.Inv) (hi : i < x.size) : Replaced x x i (x.cell i) :=
  ⟨rfl, by rw [update_eq_self], h.used_eq hi, fun _ => rfl⟩

/-- Adding a list of absent sequences, one call each. -/
theorem Inv.seqAdd_list : ∀ (l : List SeqId) {x : Cells}, x.Inv → i < x.size →
    (x.cell i).pos ≠ -1 → (x.cell i).pos = -1 ∨ 0 ≤ (x.cell i).pos → l.Nodup →
    (∀ q ∈ l, q ∉ (x.cell i).seq) →
    Replaced x (l.foldl (fun x q => x.seqAdd i q) x) i
        { x.cell i with seq := (x.cell i).seq ∪ l.toFinset } ∧
      (l.foldl (fun x q => x.seqAdd i q) x).ok = x.ok
  | [], x, h, hi, _, _, _, _ => by simpa using h.replaced_self hi
  | q :: l, x, h, hi, hp, hp', hnd, hq => by
    have hq0 := hq q mem_cons_self
    have hrep := h.seqAdd hi hq0 hp
    have hok := seqAdd_ok hi hq0 hp
    obtain ⟨hql, hl⟩ := nodup_cons.mp hnd
    have hself := hrep.cell_self
    have hinv : (x.seqAdd i q).Inv := hrep.inv h hi hp' fun he => absurd he hp
    obtain ⟨h1, h2⟩ := Inv.seqAdd_list l hinv (by rwa [hrep.size])
      (by rw [hself]; exact hp) (by rw [hself]; exact hp') hl (by
        intro r hr
        rw [hself]
        have hne : r ≠ q := fun he => hql (he ▸ hr)
        simpa [hne] using hq r (mem_cons_of_mem q hr))
    refine ⟨?_, h2.trans hok⟩
    have := hrep.trans h1
    rw [hself] at this
    simpa [Finset.insert_union, Finset.union_insert] using this

end Cells

namespace Cache

/-- The overwritten maxima after a cell was cleared. -/
def overwrite (r : RmMax) (y : Cell) : RmMax := fun q => if q ∈ y.seq then max (r q) y.pos else r q

/-- `seq_get` of a cell with one sequence. -/
theorem seqGet_singleton {q : SeqId} (h : (x.cell i).seq = {q}) : x.seqGet i = some q := by
  unfold Cells.seqGet
  cases hf : (finRange maxSeq).find? fun q => decide (q ∈ (x.cell i).seq) with
  | none =>
    have := find?_eq_none.mp hf q (mem_finRange q)
    simp [h] at this
  | some r =>
    have := find?_some hf
    simp only [h, Finset.mem_singleton, decide_eq_true_eq] at this
    rw [this]

/-- Clearing the cell of a token. -/
def clearFor (st : Cells × RmMax) (idx : Nat) : Cells × RmMax :=
  let x := st.1.assert (st.1.isEmptyPre idx)
  if !x.isEmpty idx then
    let y := x.assert (x.nonEmptyPre idx && x.seqCount idx == 1)
    (y.rm idx, match x.seqGet idx with
      | some q => update st.2 q (max (st.2 q) (x.cell idx).pos)
      | none => st.2)
  else (x, st.2)

/-- Writing a token into an empty cell. -/
def writeToken (u : Ubatch) (x : Cells) (idx i : Nat) : Cells :=
  let x := x.posSet idx (u.pos i)
  let x := if u.isPos2d then x.extSet idx (u.ext i) else x
  (u.seqId i).foldl (fun x q => x.seqAdd idx q) x

theorem placeToken_eq (u : Ubatch) (st : Cells × RmMax) (idx i : Nat) :
    placeToken u st idx i = (writeToken u (clearFor st idx).1 idx i, (clearFor st idx).2) := rfl

section

variable (h : x.Good n T) (hi : idx < n)
include h hi

theorem clearFor_spec (r : RmMax)
    (hu : (x.cell idx).pos = -1 ∨ (0 ≤ (x.cell idx).pos ∧ ∃ q, (x.cell idx).seq = {q})) :
    (clearFor (x, r) idx).1.Good n T ∧
      (clearFor (x, r) idx).1.cell = update x.cell idx
        (if (x.cell idx).pos = -1 then x.cell idx else {}) ∧
      (clearFor (x, r) idx).2 = overwrite r (x.cell idx) := by
  have hs := h.lt_size hi
  rcases hu with hp | ⟨hp, q, hq⟩
  · have hpre : x.isEmptyPre idx = true := by simp [Cells.isEmptyPre, hs, hp]
    have he : x.isEmpty idx = true := by simp [Cells.isEmpty, hp]
    have hseq := h.seq idx hs hp
    simp only [clearFor, hpre, Cells.assert_true, he, Bool.not_true, Bool.false_eq_true, if_false,
      hp, if_true, update_eq_self]
    refine ⟨h, trivial, ?_⟩
    funext r'
    simp [overwrite, hseq]
  · have hne : (x.cell idx).pos ≠ -1 := by omega
    have hpre : x.isEmptyPre idx = true := by simp [Cells.isEmptyPre, hs, hp]
    have he : x.isEmpty idx = false := by simp [Cells.isEmpty, hne]
    have hcount : (x.nonEmptyPre idx && x.seqCount idx == 1) = true := by
      simp [Cells.nonEmptyPre_eq_true hs hne, Cells.seqCount, hq]
    simp only [clearFor, hpre, Cells.assert_true, he, Bool.not_false, if_true, hcount,
      seqGet_singleton hq, hne, if_false]
    have hrep := h.toInv.rm hs
    refine ⟨h.replace hrep (h.toInv.rm_ok hs hne) hi Cell.wf_empty, hrep.cell, ?_⟩
    funext r'
    by_cases hr : r' = q
    · subst hr
      simp [overwrite, hq]
    · simp [overwrite, hq, hr]

theorem writeToken_spec (hp : (x.cell idx).pos = -1) (ht : u.Token T i) :
    (writeToken u x idx i).Good n T ∧
      (writeToken u x idx i).cell = update x.cell idx (u.record i (x.cell idx)) := by
  have hs := h.lt_size hi
  have hseq := h.seq idx hs hp
  have hpos := ht.pos
  have hpos' : u.pos i ≠ -1 := by omega
  have hrep1 := h.toInv.posSet hs hp hpos'
  have hok1 := h.toInv.posSet_ok hs hp (u.pos i)
  have hinv1 : (x.posSet idx (u.pos i)).Inv :=
    hrep1.inv h.toInv hs (.inr hpos) fun he => absurd he hpos'
  have hs1 : idx < (x.posSet idx (u.pos i)).size := by rwa [hrep1.size]
  -- the optional `ext_set`
  obtain ⟨y, hy, hrep2, hok2⟩ : ∃ y : Cells,
      y = (if u.isPos2d then (x.posSet idx (u.pos i)).extSet idx (u.ext i)
        else x.posSet idx (u.pos i)) ∧
      Cells.Replaced x y idx { x.cell idx with
        pos := u.pos i, ext := if u.isPos2d then u.ext i else (x.cell idx).ext } ∧
      y.ok = x.ok := by
    refine ⟨_, rfl, ?_, ?_⟩
    · by_cases h2 : u.isPos2d = true
      · have := hrep1.trans (hinv1.extSet hs1 (u.ext i))
        rw [hrep1.cell_self] at this
        simpa [h2] using this
      · simpa [h2] using hrep1
    · by_cases h2 : u.isPos2d = true
      · simpa [h2] using (Cells.extSet_ok hs1 (u.ext i)).trans hok1
      · simpa [h2] using hok1
  have hself := hrep2.cell_self
  have hinv2 : y.Inv := hrep2.inv h.toInv hs (.inr hpos) fun he => absurd he hpos'
  obtain ⟨hrep3, hok3⟩ := Cells.Inv.seqAdd_list (u.seqId i) hinv2 (by rwa [hrep2.size])
    (by rw [hself]; exact hpos') (by rw [hself]; exact .inr hpos) ht.nodup
    (by rw [hself]; simp [hseq])
  have hrep := hrep2.trans hrep3
  rw [hself] at hrep
  have hrec : u.record i (x.cell idx) = { x.cell idx with
      pos := u.pos i, ext := if u.isPos2d then u.ext i else (x.cell idx).ext,
      seq := (x.cell idx).seq ∪ (u.seqId i).toFinset } := by
    simp [Ubatch.record, hp, hseq]
  rw [← hrec] at hrep
  have hw : writeToken u x idx i = (u.seqId i).foldl (fun x q => x.seqAdd idx q) y := by
    rw [hy]
    rfl
  rw [hw]
  exact ⟨h.replace hrep (hok3.trans hok2) hi (ht.record_wf _), hrep.cell⟩

theorem placeToken_spec (r : RmMax) (ht : u.Token T i)
    (hu : (x.cell idx).pos = -1 ∨ (0 ≤ (x.cell idx).pos ∧ ∃ q, (x.cell idx).seq = {q})) :
    (placeToken u (x, r) idx i).1.Good n T ∧
      (placeToken u (x, r) idx i).1.cell = update x.cell idx (u.record i (x.cell idx)) ∧
      (placeToken u (x, r) idx i).2 = overwrite r (x.cell idx) := by
  obtain ⟨hg, hc, hr⟩ := clearFor_spec h hi r hu
  have hself : (clearFor (x, r) idx).1.cell idx =
      if (x.cell idx).pos = -1 then x.cell idx else {} := by rw [hc, update_self]
  have hp : ((clearFor (x, r) idx).1.cell idx).pos = -1 := by
    rw [hself]
    split
    · assumption
    · rfl
  obtain ⟨hg', hc'⟩ := writeToken_spec hg hi hp ht
  rw [placeToken_eq]
  refine ⟨hg', ?_, hr⟩
  have hrec : u.record i ((clearFor (x, r) idx).1.cell idx) = u.record i (x.cell idx) := by
    rw [hself]
    by_cases he : (x.cell idx).pos = -1 <;> simp [Ubatch.record, he]
  rw [hc', hrec, hc, update_idem]

end

/-- The placing loop of one stream: the cells of the slot take the records, the others
stay, and the maxima account for the overwritten cells. -/
theorem placeLoop_spec {L : List Nat} {b : Nat} (h : x.Good n T) (r : RmMax) (hnd : L.Nodup)
    (hL : ∀ i ∈ L, i < n ∧ ((x.cell i).pos = -1 ∨ (0 ≤ (x.cell i).pos ∧ ∃ q, (x.cell i).seq = {q})))
    (ht : ∀ k < L.length, u.Token T (b + k)) :
    let st := (range L.length).foldl (fun st k => placeToken u st (L.getD k 0) (b + k)) (x, r)
    st.1.Good n T ∧ (∀ j, j ∉ L → st.1.cell j = x.cell j) ∧
      (∀ k < L.length, st.1.cell (L.getD k 0) = u.record (b + k) (x.cell (L.getD k 0))) ∧
      ∀ q p, p ≤ st.2 q ↔ p ≤ r q ∨ ∃ i ∈ L, q ∈ (x.cell i).seq ∧ p ≤ (x.cell i).pos := by
  have hinj : ∀ k < L.length, ∀ k' < L.length, L.getD k 0 = L.getD k' 0 → k = k' := by
    intro k hk k' hk' he
    rw [getD_eq_getElem _ _ hk, getD_eq_getElem _ _ hk'] at he
    exact (hnd.getElem_inj_iff).mp he
  have key := Loop.foldl_range_induction (n := L.length) (b := (x, r))
    (f := fun st k => placeToken u st (L.getD k 0) (b + k))
    (motive := fun k st => st.1.Good n T ∧
      (∀ j, (∀ k' < k, j ≠ L.getD k' 0) → st.1.cell j = x.cell j) ∧
      (∀ k' < k, st.1.cell (L.getD k' 0) = u.record (b + k') (x.cell (L.getD k' 0))) ∧
      ∀ q p, p ≤ st.2 q ↔ p ≤ r q ∨
        ∃ k' < k, q ∈ (x.cell (L.getD k' 0)).seq ∧ p ≤ (x.cell (L.getD k' 0)).pos)
    ⟨h, by simp, by simp, by simp⟩ ?_
  · obtain ⟨hg, hout, hin, hr⟩ := key
    refine ⟨hg, fun j hj => hout j fun k hk he => hj ?_, hin, fun q p => ?_⟩
    · rw [he, getD_eq_getElem _ _ hk]
      exact getElem_mem hk
    · rw [hr]
      constructor
      · rintro (hp | ⟨k, hk, hq⟩)
        · exact .inl hp
        · refine .inr ⟨L.getD k 0, ?_, hq⟩
          rw [getD_eq_getElem _ _ hk]
          exact getElem_mem hk
      · rintro (hp | ⟨i, hi, hq⟩)
        · exact .inl hp
        · obtain ⟨k, hk, rfl⟩ := getElem_of_mem hi
          refine .inr ⟨k, hk, ?_⟩
          rwa [getD_eq_getElem _ _ hk]
  · rintro k hk ⟨y, r'⟩ ⟨hg, hout, hin, hr⟩
    have hmem : L.getD k 0 ∈ L := by
      rw [getD_eq_getElem _ _ hk]
      exact getElem_mem hk
    obtain ⟨hlt, husable⟩ := hL _ hmem
    have hold : y.cell (L.getD k 0) = x.cell (L.getD k 0) :=
      hout _ fun k' hk' he => absurd (hinj k hk k' (by omega) he) (by omega)
    obtain ⟨hg', hc', hr'⟩ := placeToken_spec hg hlt r' (ht k hk) (by
      change (y.cell _).pos = -1 ∨ (0 ≤ (y.cell _).pos ∧ ∃ q, (y.cell _).seq = {q})
      rw [hold]
      exact husable)
    refine ⟨hg', fun j hj => ?_, fun k' hk' => ?_, fun q p => ?_⟩
    · rw [hc', update_of_ne (hj k (Nat.lt_succ_self k))]
      exact hout j fun k' hk' => hj k' (by omega)
    · by_cases he : k' = k
      · subst he
        rw [hc', update_self]
        exact congrArg _ hold
      · have hne : L.getD k' 0 ≠ L.getD k 0 := fun h => he (hinj k' (by omega) k hk h)
        rw [hc', update_of_ne hne]
        exact hin k' (by omega)
    · rw [hr']
      change p ≤ overwrite r' (y.cell _) q ↔ _
      rw [hold, overwrite]
      have hq := hr q p
      simp only at hq
      by_cases hm : q ∈ (x.cell (L.getD k 0)).seq
      · rw [if_pos hm, le_max_iff, hq]
        constructor
        · rintro ((hp | ⟨k', hk', hp⟩) | hp)
          · exact .inl hp
          · exact .inr ⟨k', by omega, hp⟩
          · exact .inr ⟨k, by omega, hm, hp⟩
        · rintro (hp | ⟨k', hk', hm', hp⟩)
          · exact .inl (.inl hp)
          · by_cases he : k' = k
            · subst he
              exact .inr hp
            · exact .inl (.inr ⟨k', by omega, hm', hp⟩)
      · rw [if_neg hm, hq]
        constructor
        · rintro (hp | ⟨k', hk', hp⟩)
          · exact .inl hp
          · exact .inr ⟨k', by omega, hp⟩
        · rintro (hp | ⟨k', hk', hm', hp⟩)
          · exact .inl hp
          · by_cases he : k' = k
            · subst he
              exact absurd hm' hm
            · exact .inr ⟨k', by omega, hm', hp⟩

end Cache

end Llama.Kv
