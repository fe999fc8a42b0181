import Llama.Decode.Ubatches
import Llama.Recurrent.Tied

/-!
# The recurrent part of a hybrid memory

After `find_slot` every sequence of the ubatch has a cell with the last position of its set. This
decides what `seq_rm` answers when the ubatch is rolled back, whatever the memory was before.
-/

namespace Llama.Decode

open Batch Recurrent
open List hiding Disjoint

variable {E : Type} {b : Allocr E} {c : Cut} {f : Kv.Config} {m m' : Recurrent.Memory}

theorem releaseIds_range : ∀ (ids : List Int) (later : Bool) (m : Recurrent.Memory),
    (releaseIds ids later m).2.size = m.size ∧
      ((releaseIds ids later m).1 = true ↔ ∀ id ∈ ids, 0 ≤ id ∧ id < (m.size : Int))
  | [], later, m => ⟨rfl, by simp [releaseIds]⟩
  | id :: ids, later, m => by
    rw [releaseIds]
    split
    · rename_i h
      refine ⟨rfl, ?_⟩
      simp only [Bool.false_eq_true, mem_cons, forall_eq_or_imp, false_iff, not_and]
      omega
    · rename_i h
      obtain ⟨h1, h2⟩ := releaseIds_range ids true (if later then m.release id.toNat else m)
      have hsize : (if later then m.release id.toNat else m).size = m.size := by
        split
        · exact release_size
        · rfl
      rw [hsize] at h1 h2
      refine ⟨h1, ?_⟩
      rw [h2, forall_mem_cons]
      exact ⟨fun hall => ⟨by omega, hall⟩, And.right⟩

theorem releaseSets_range : ∀ (xs : List SetInfo) (m : Recurrent.Memory),
    (releaseSets xs m).2.size = m.size ∧
      ((releaseSets xs m).1 = true ↔ ∀ x ∈ xs, ∀ id ∈ x.ids, 0 ≤ id ∧ id < (m.size : Int))
  | [], m => ⟨rfl, by simp [releaseSets]⟩
  | x :: xs, m => by
    obtain ⟨h1, h2⟩ := releaseIds_range x.ids false m
    rw [releaseSets]
    cases hr : releaseIds x.ids false m with
    | mk ok m1 =>
      rw [hr] at h1 h2
      cases ok with
      | false =>
        refine ⟨h1, ?_⟩
        simp only [Bool.false_eq_true, false_iff] at h2 ⊢
        exact fun hall => h2 (hall x mem_cons_self)
      | true =>
        obtain ⟨h3, h4⟩ := releaseSets_range xs m1
        have h1' : m1.size = m.size := h1
        rw [h1'] at h3 h4
        refine ⟨h3, ?_⟩
        rw [h4, forall_mem_cons]
        exact ⟨fun hall => ⟨h2.mp rfl, hall⟩, And.right⟩

variable {s n i : Nat} {r r' : Range} {last flag : Bool}

theorem split_size {next : Nat} (h : m.split s next = some m') : m'.size = m.size := by
  simp only [Memory.split] at h
  split at h
  · split at h
    · cases h
      rfl
    · split at h
      · cases h
      · cases h
        rfl
  · cases h

theorem move_size (h : r.move s last = some r') : r'.m.size = r.m.size := by
  rw [Range.move] at h
  cases hs : r.m.split s r.next with
  | none =>
    rw [hs] at h
    cases h
  | some m1 =>
    rw [hs] at h
    cases h
    exact split_size hs

theorem turn_size (h : r.turn s last = some r') : r'.m.size = r.m.size := by
  rw [Range.turn] at h
  split at h
  · exact move_size h
  · split at h
    · split at h
      · cases h
        rfl
      · exact move_size h
    · cases h

theorem find_size : ∀ (ss : List Nat) {r r' : Range}, r.find ss = some r' → r'.m.size = r.m.size
  | [], r, r', h => by
    cases h
    rfl
  | s :: ss, r, r', h => by
    rw [Range.find] at h
    cases ht : r.turn s ss.isEmpty with
    | none =>
      rw [ht] at h
      cases h
    | some r1 =>
      rw [ht] at h
      exact (find_size ss h).trans (turn_size ht)

theorem gather_size : ∀ (ss : List Nat) {m m' : Recurrent.Memory} {dst : Nat},
    m.gather dst ss = some m' → m'.size = m.size ∧ ∀ i < ss.length, dst + i < m.size
  | [], m, m', dst, h => by
    cases h
    exact ⟨rfl, fun i hi => absurd hi (Nat.not_lt_zero i)⟩
  | s :: ss, m, m', dst, h => by
    rw [Memory.gather] at h
    split at h
    · cases h
    · split at h
      · rename_i src _ hlt
        obtain ⟨h1, h2⟩ := gather_size ss h
        have hsize : (if dst ≠ src then m.swap dst src else m).size = m.size := by
          split <;> rfl
        rw [hsize] at h1 h2
        refine ⟨h1, fun i hi => ?_⟩
        cases i with
        | zero => exact hlt
        | succ i =>
          have := h2 i (Nat.lt_of_succ_lt_succ hi)
          omega
      · cases h

theorem placeAll_cells : ∀ (xs : List SetInfo) (m : Recurrent.Memory) (t : Nat),
    (m.placeAll t xs).size = m.size ∧ (∀ j < t, ((m.placeAll t xs).cells j).pos = (m.cells j).pos ∧
      ((m.placeAll t xs).cells j).seqId = (m.cells j).seqId) ∧
    ∀ i (h : i < xs.length), ((m.placeAll t xs).cells (t + i)).pos = xs[i].lastPos ∧
      ((m.placeAll t xs).cells (t + i)).seqId = xs[i].seqs
  | [], m, t => ⟨rfl, fun _ _ => ⟨rfl, rfl⟩, fun i h => absurd h (Nat.not_lt_zero i)⟩
  | x :: xs, m, t => by
    obtain ⟨h1, h2, h3⟩ := placeAll_cells xs (m.place t x) (t + 1)
    rw [Memory.placeAll]
    refine ⟨h1.trans (place_cells m t x 0).1, fun j hj => ?_, fun i hi => ?_⟩
    · obtain ⟨hp, hs⟩ := h2 j (by omega)
      obtain ⟨-, -, hp', -, hs'⟩ := place_cells m t x j
      rw [if_neg (by omega)] at hp' hs'
      exact ⟨hp.trans hp', hs.trans hs'⟩
    · cases i with
      | zero =>
        obtain ⟨hp, hs⟩ := h2 t (Nat.lt_succ_self t)
        obtain ⟨-, -, hp', -, hs'⟩ := place_cells m t x t
        rw [if_pos rfl] at hp' hs'
        exact ⟨hp.trans hp', hs.trans hs'⟩
      | succ i =>
        have := h3 i (Nat.lt_of_succ_lt_succ hi)
        rwa [Nat.add_assoc, Nat.add_comm 1 i] at this

theorem stage_keeps {min max : Nat} (h : m.stage min max = some m') : m'.size = m.size ∧
    ∀ j, (m'.cells j).pos = (m.cells j).pos ∧ (m'.cells j).tail = (m.cells j).tail ∧
      (m'.cells j).seqId = (m.cells j).seqId := by
  rw [Memory.stage] at h
  dsimp only at h
  split at h
  · cases h
    refine ⟨rfl, fun j => ?_⟩
    dsimp only
    split <;> exact ⟨rfl, rfl, rfl⟩
  · cases h

/-- The sequence has a cell, at this position. -/
structure Sits (m : Recurrent.Memory) (s : Nat) (last : Int) : Prop where
  lt : s < m.size
  cell : ∃ t < m.size, (m.cells s).tail = some t ∧ s ∈ (m.cells t).seqId ∧ (m.cells t).pos = last

/-- After `find_slot` the sequences of every set sit at the last position of the set. -/
theorem placeSets_sits {xs : List SetInfo} (hdisj : xs.Pairwise fun x y => Disjoint x.seqs y.seqs)
    (hids : ∀ x ∈ xs, ∀ s ∈ x.seqs, s < m.size) (h : m.placeSets xs = some (flag, m')) :
    m'.size = m.size ∧ ∀ x ∈ xs, ∀ s ∈ x.seqs, Sits m' s x.lastPos := by
  rw [Memory.placeSets] at h
  cases hfind :
    Range.find { m := m, next := m.firstEmpty m.size m.head, min := m.size - 1, max := 0 }
      (xs.map SetInfo.first) with
  | none =>
    simp only [hfind] at h
    cases h
  | some r =>
    simp only [hfind, Option.bind_eq_bind, Option.bind_some] at h
    have hsize1 : r.m.size = m.size := find_size _ hfind
    cases hgather : r.m.gather r.min (xs.map SetInfo.first) with
    | none =>
      rw [hgather] at h
      cases h
    | some m1 =>
      rw [hgather, Option.bind_some] at h
      obtain ⟨hsize2, hfit⟩ := gather_size _ hgather
      cases hstage : (m1.placeAll r.min xs).stage r.min r.max with
      | none =>
        rw [hstage] at h
        cases h
      | some m2 =>
        rw [hstage, Option.bind_some] at h
        obtain ⟨hsize3, -, hcells⟩ := placeAll_cells xs m1 r.min
        obtain ⟨hsize4, hkeep⟩ := stage_keeps hstage
        cases h
        have hsize : m2.size = m.size := hsize4.trans (hsize3.trans (hsize2.trans hsize1))
        refine ⟨hsize, fun x hx s hs => ⟨hsize ▸ hids x hx s hs, ?_⟩⟩
        obtain ⟨i, hi, rfl⟩ := getElem_of_mem hx
        have htail := (placeAll_tail xs m1 r.min s hdisj).1 i hi hs
        have hlt := hfit i (by rwa [length_map])
        rw [hsize1] at hlt
        refine ⟨r.min + i, hsize ▸ hlt, ?_, ?_, ?_⟩
        · exact (hkeep s).2.1.trans htail
        · have := (hkeep (r.min + i)).2.2.trans (hcells i hi).2
          exact this ▸ hs
        · exact (hkeep (r.min + i)).1.trans (hcells i hi).1

/-- The sequences of a set are in the range of the memory. -/
def InRange (n : Nat) (u : UBatch E) : Prop := ∀ x ∈ setsOf u, ∀ id ∈ x.ids, 0 ≤ id ∧ id < (n : Int)

theorem findSlot_sits {u : UBatch E} (h : m.findSlot u = some (flag, m')) :
    (flag = true → InRange m.size u) ∧
    (InRange m.size u → ((setsOf u).Pairwise fun x y => Disjoint x.seqs y.seqs) →
      m'.size = m.size ∧ ∀ x ∈ setsOf u, ∀ s ∈ x.seqs, Sits m' s x.lastPos) := by
  simp only [Recurrent.Memory.findSlot] at h
  obtain ⟨m0, hm0, hsize0⟩ : ∃ m0 : Recurrent.Memory,
      m0 = (if m.used + 2 * u.nSeqs < m.head then { m with head := 0 } else m) ∧
        m0.size = m.size := by
    refine ⟨_, rfl, ?_⟩
    split <;> rfl
  rw [← hm0] at h
  split at h
  · obtain ⟨h1, h2⟩ := releaseSets_range (setsOf u) m0
    rw [hsize0] at h1 h2
    split at h
    · rename_i m1 hr
      cases h
      rw [hr] at h2
      refine ⟨fun hf => absurd hf Bool.false_ne_true, fun hin _ => ?_⟩
      cases h2.mpr hin
    · rename_i m1 hr
      rw [hr] at h1 h2
      have hin : InRange m.size u := h2.mp rfl
      refine ⟨fun _ => hin, fun _ hdisj => ?_⟩
      have hm1 : m1.size = m.size := h1
      rw [← hm1]
      refine placeSets_sits hdisj (fun x hx s hs => ?_) h
      obtain ⟨id, hid, rfl⟩ := mem_seqs.mp hs
      have := hin x hx id hid
      omega
  · cases h

/-- The dry run of the recurrent memory keeps the size, and its success means that all sequences
are in range. -/
theorem findSlots_inRange : ∀ (us : List (UBatch E)) {m m' : Recurrent.Memory},
    (∀ u ∈ us, (setsOf u).Pairwise fun x y => Disjoint x.seqs y.seqs) →
    findSlots m us = some (true, m') → m'.size = m.size ∧ ∀ u ∈ us, InRange m.size u
  | [], m, m', _, h => by
    cases h
    exact ⟨rfl, by simp⟩
  | u :: us, m, m', hdisj, h => by
    rw [findSlots] at h
    split at h
    · cases h
    · cases h
    · rename_i m1 hm1
      obtain ⟨h1, h2⟩ := findSlot_sits hm1
      have hsize := (h2 (h1 rfl) (hdisj u mem_cons_self)).1
      obtain ⟨hrest, hin⟩ := findSlots_inRange us (fun v hv => hdisj v (mem_cons_of_mem u hv)) h
      refine ⟨hrest.trans hsize, fun v hv => ?_⟩
      rcases mem_cons.mp hv with rfl | hv
      · exact h1 rfl
      · exact hsize ▸ hin v hv

/-- The sets are the blocks: the sequences are those of the first token, the position is that of
the last one. -/
theorem setsOf_ubatch (hb : Seatable f b) (h : Blocks b c n) :
    setsOf (b.ubatch c) = (range c.nSeqs).map fun s =>
      { ids := b.seqs (tokenAt c (s * n)), lastPos := b.pos (tokenAt c (s * n + (n - 1))) } := by
  have hn : (b.ubatch c).nSeqTokens = n := by
    change c.idxs.length / c.nSeqs = n
    rw [← h.length, Nat.mul_div_cancel_left n h.seqs]
  rw [setsOf, hn]
  refine map_congr_left fun s hs => ?_
  have hs' : s < c.nSeqs := mem_range.mp hs
  have hlast : s * n + n - 1 = s * n + (n - 1) := by
    have := h.pos
    omega
  rw [ubatch_seqId (h.head_lt hs'), hlast,
    ubatch_pos hb (h.place_lt hs' (Nat.sub_lt h.pos Nat.zero_lt_one))]

theorem seqs_eq_seqSet (i : Nat) (p : Int) :
    SetInfo.seqs { ids := b.seqs i, lastPos := p } = b.seqSet i := rfl

section

variable (hb : Seatable f b) (h : Blocks b c n)
include hb h

theorem setsOf_disjoint : (setsOf (b.ubatch c)).Pairwise fun x y => Disjoint x.seqs y.seqs := by
  rw [setsOf_ubatch hb h, pairwise_map]
  refine List.Pairwise.imp_of_mem (fun {s s'} _ hs' hlt => ?_) pairwise_lt_range
  rw [seqs_eq_seqSet, seqs_eq_seqSet]
  exact h.apart s s' hlt (mem_range.mp hs')

/-- The set of a token ends with a later token, which has no other sequences. -/
theorem exists_set (hi : i ∈ c.idxs) : ∃ x ∈ setsOf (b.ubatch c), b.seqSet i ⊆ x.seqs ∧
      ∃ l ∈ c.idxs, x.lastPos = b.pos l ∧ i ≤ l ∧ b.seqSet l ⊆ b.seqSet i := by
  obtain ⟨k, hk, rfl⟩ := exists_tokenAt hi
  obtain ⟨s, hs, j, hj, rfl⟩ := h.exists_block hk
  have hfirst := (h.nested s hs 0 j (Nat.zero_le j) hj).2
  have hlt : n - 1 < n := Nat.sub_lt h.pos Nat.zero_lt_one
  obtain ⟨hle, hlast⟩ := h.nested s hs j (n - 1) (by omega) hlt
  have hmem : (SetInfo.mk (b.seqs (tokenAt c (s * n))) (b.pos (tokenAt c (s * n + (n - 1))))) ∈
      setsOf (b.ubatch c) := by
    rw [setsOf_ubatch hb h]
    exact mem_map.mpr ⟨s, mem_range.mpr hs, rfl⟩
  exact ⟨_, hmem, hfirst, tokenAt c (s * n + (n - 1)), tokenAt_mem (h.place_lt hs hlt), rfl, hle,
    hlast⟩

/-- A sequence of an ubatch sits at the position of one of its last tokens. -/
theorem sits_ubatch (hin : InRange m.size (b.ubatch c))
    (hf : m.findSlot (b.ubatch c) = some (flag, m')) (hi : i ∈ c.idxs) (hs : s ∈ b.seqSet i) :
    ∃ l ∈ c.idxs, i ≤ l ∧ b.seqSet l ⊆ b.seqSet i ∧ Sits m' s (b.pos l) := by
  obtain ⟨x, hx, hsub, l, hl, hpos, hle, hlast⟩ := exists_set hb h hi
  obtain ⟨-, hsits⟩ := (findSlot_sits hf).2 hin (setsOf_disjoint hb h)
  exact ⟨l, hl, hle, hlast, hpos ▸ hsits x hx s (hsub hs)⟩

end

/-- `seq_rm` on the tail of a sequence is refused, unless it starts at zero or does not reach the
last position. -/
theorem Sits.answer {last p0 : Int} (h : Sits m s last) (hp0 : 0 ≤ p0) :
    (m.seqRm s p0 (-1)).1 = true ↔ ¬ (0 < p0 ∧ p0 ≤ last ∧ last < maxPos) := by
  obtain ⟨t, -, htail, -, hpos⟩ := h.cell
  have hlow : Recurrent.lower p0 = p0 := by
    rw [Recurrent.lower, if_neg (by omega)]
  have hup : Recurrent.upper (-1) = maxPos := rfl
  have hsz : ¬ (m.size : Int) ≤ (s : Int) := by
    have := h.lt
    omega
  simp only [Recurrent.Memory.seqRm, hlow, hup, if_neg hsz, Int.natCast_nonneg, if_true,
    Int.toNat_natCast, htail,
    hpos]
  split
  · rename_i hc
    simp [hc]
  · rename_i hc
    split <;> simp [hc]

/-- Removing another sequence leaves the sequence where it is. -/
theorem Sits.seqRm {s s' : Nat} {last : Int} (h : Sits m s last) (hne : s ≠ s') (p0 p1 : Int) :
    Sits (m.seqRm s' p0 p1).2 s last := by
  have hrm : ∀ m1 : Recurrent.Memory, Sits m1 s last → ∀ lo hi : Int,
    Sits (m1.rmRange s' lo hi) s last := by
    intro m1 h1 lo hi
    obtain ⟨hsize, -, hcells⟩ := rmRange_cells m1 s' lo hi
    obtain ⟨t, ht, htail, hmem, hpos⟩ := h1.cell
    refine ⟨hsize ▸ h1.lt, t, hsize ▸ ht, ?_, ?_, ?_⟩
    · rw [hcells s h1.lt]
      unfold Cell.rm
      split
      · rw [Cell.settle_tail]
        exact htail
      · exact htail
    · rw [hcells t ht]
      unfold Cell.rm
      split
      · rw [Cell.settle_seqId]
        have hneg : ¬ (s' : Int) < 0 := by omega
        simp only [if_neg hneg, Int.toNat_natCast]
        exact Finset.mem_erase.mpr ⟨hne, hmem⟩
      · exact hmem
    · rw [hcells t ht]
      unfold Cell.rm
      split
      · have hneg : ¬ (s' : Int) < 0 := by omega
        have hkeep : (m1.cells t).seqId.erase s' ≠ ∅ :=
          Finset.ne_empty_of_mem (Finset.mem_erase.mpr ⟨hne, hmem⟩)
        simp only [Cell.settle_pos, if_neg hneg, Int.toNat_natCast, if_neg hkeep]
        exact hpos
      · exact hpos
  have hmod : Sits (m.modify s' fun x => { x with tail := none }) s last := by
    obtain ⟨t, ht, htail, hmem, hpos⟩ := h.cell
    refine ⟨h.lt, t, ht, ?_, ?_, ?_⟩
    · rw [Memory.modify_cells, if_neg hne]
      exact htail
    · rw [Memory.modify_cells]
      split
      · rename_i he
        exact he ▸ hmem
      · exact hmem
    · rw [Memory.modify_cells]
      split
      · rename_i he
        exact he ▸ hpos
      · exact hpos
  simp only [Recurrent.Memory.seqRm, Int.natCast_nonneg, if_true, Int.toNat_natCast]
  split
  · exact h
  · split
    · exact hrm m h _ _
    · split
      · exact h
      · split
        · exact hrm _ hmod _ _
        · exact hrm m h _ _

end Llama.Decode
