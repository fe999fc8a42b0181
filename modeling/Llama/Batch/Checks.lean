import Llama.Batch.Partition

/-!
# What the checks of a batch refuse

The last loop of `init` means to refuse sequence sets that overlap without one being inside the
other, and positions that go back. The running intersection of a sequence always holds the
sequence itself, so it is never empty, and the position that a token is compared with is never
moved: what the loop really refuses is a position below -1.
-/

namespace Llama.Batch

open List

variable {E : Type} {b : Allocr E}

/-- The sequences of a token that a batch may have. -/
def Allocr.SeqsBelow (b : Allocr E) : Prop :=
  ∀ i < b.nTokens, ∀ s ∈ b.seqs i, 0 ≤ s ∧ s < b.nSeqMax ∧ -1 ≤ b.pos i

/-- The checks of `init` that can refuse a batch: valid ids, positions that fit to the memory and
to each other, coupled sequences that agree, and no position below -1. -/
structure Input.Admitted (a : Args) (inp : Input E) : Prop where
  nonempty : 0 < inp.nTokens
  valid : inp.valid a = true
  consistent : (range a.nSeqMax).all ((fill a inp).consistent a.memory) = true
  coupled : (fill a inp).coupledAgree a.memory = true
  below : (fill a inp).SeqsBelow

variable {i n k : Nat} {a : Args} {inp : Input E}

theorem mem_seqSet {t : Nat} : t ∈ b.seqSet i ↔ ∃ s ∈ b.seqs i, s.toNat = t := by
  simp [Allocr.seqSet]

/-- The running intersections: that of a sequence holds the sequence. -/
structure OwnSets (n : Nat) (cur : Nat → Finset Nat) : Prop where
  own : ∀ t < n, t ∈ cur t
  none : ∀ t, n ≤ t → cur t = ∅

/-- The check of one sequence of a token refuses nothing but a low position. -/
theorem checkSet_spec {cur : Nat → Finset Nat} {s : Int} (h : OwnSets n cur) (hs : s ∈ b.seqs i)
    (h0 : 0 ≤ s) :
    ((b.checkSet i cur s).isSome = true ↔ s < n ∧ -1 ≤ b.pos i) ∧
      ∀ cur', b.checkSet i cur s = some cur' → OwnSets n cur' := by
  have hmem : s.toNat ∈ b.seqSet i := mem_seqSet.mpr ⟨s, hs, rfl⟩
  rw [Allocr.checkSet]
  by_cases hlt : s < n
  · have hown : s.toNat ∈ cur s.toNat ∩ b.seqSet i :=
      Finset.mem_inter.mpr ⟨h.own _ (by omega), hmem⟩
    simp only [if_neg (Finset.ne_empty_of_mem hown)]
    split
    · rename_i hpos
      refine ⟨?_, fun cur' hc => by cases hc⟩
      simp only [Option.isSome_none, Bool.false_eq_true, false_iff]
      omega
    · rename_i hpos
      refine ⟨?_, fun cur' hc => ?_⟩
      · simp only [Option.isSome_some, true_iff]
        omega
      · cases hc
        refine ⟨fun t ht => ?_, fun t ht => ?_⟩
        · by_cases heq : t = s.toNat
          · rw [if_pos heq, heq]
            exact hown
          · rw [if_neg heq]
            exact h.own t ht
        · rw [if_neg (by omega)]
          exact h.none t ht
  · rw [h.none s.toNat (by omega), Finset.empty_inter]
    refine ⟨?_, fun cur' hc => by cases hc⟩
    simp [hlt]

theorem foldlM_checkSet : ∀ {l : List Int} {cur : Nat → Finset Nat}, OwnSets n cur →
    (∀ s ∈ l, s ∈ b.seqs i ∧ 0 ≤ s) →
    ((l.foldlM (b.checkSet i) cur).isSome = true ↔ ∀ s ∈ l, s < n ∧ -1 ≤ b.pos i) ∧
      ∀ cur', l.foldlM (b.checkSet i) cur = some cur' → OwnSets n cur' := by
  intro l
  induction l with
  | nil =>
    intro cur h _
    refine ⟨by simp, fun cur' hc => ?_⟩
    cases hc
    exact h
  | cons s l ih =>
    intro cur h hl
    obtain ⟨h1, h2⟩ := checkSet_spec h (hl s (by simp)).1 (hl s (by simp)).2
    rw [foldlM_cons, forall_mem_cons]
    cases hc : b.checkSet i cur s with
    | none =>
      rw [hc] at h1
      refine ⟨?_, fun cur' hc' => by cases hc'⟩
      rw [← h1]
      simp
    | some cur1 =>
      rw [hc] at h1
      obtain ⟨h3, h4⟩ := ih (h2 cur1 hc) fun t ht => hl t (mem_cons_of_mem _ ht)
      rw [Option.bind_eq_bind, Option.bind_some, h3]
      exact ⟨⟨fun h => ⟨h1.mp rfl, h⟩, And.right⟩, h4⟩

/-- The last loop refuses nothing but ids and positions out of range. -/
theorem checkSets_isSome_iff (hmax : b.nSeqMax ≤ maxSeq)
    (hids : ∀ i < b.nTokens, ∀ s ∈ b.seqs i, 0 ≤ s) : b.checkSets.isSome = true ↔ b.SeqsBelow := by
  have key : ∀ {l : List Nat} {cur : Nat → Finset Nat}, OwnSets b.nSeqMax cur →
      (∀ i ∈ l, i < b.nTokens) →
      ((l.foldlM (fun cur i => (b.seqs i).foldlM (b.checkSet i) cur) cur).isSome = true ↔
        ∀ i ∈ l, ∀ s ∈ b.seqs i, s < b.nSeqMax ∧ -1 ≤ b.pos i) := by
    intro l
    induction l with
    | nil => intro cur _ _; simp
    | cons i l ih =>
      intro cur h hl
      obtain ⟨h1, h2⟩ := foldlM_checkSet (i := i) h fun s hs => ⟨hs, hids i (hl i (by simp)) s hs⟩
      rw [foldlM_cons, forall_mem_cons]
      cases hc : (b.seqs i).foldlM (b.checkSet i) cur with
      | none =>
        rw [hc] at h1
        rw [← h1]
        simp
      | some cur1 =>
        rw [hc] at h1
        rw [Option.bind_eq_bind, Option.bind_some,
          ih (h2 cur1 hc) fun t ht => hl t (mem_cons_of_mem _ ht)]
        exact ⟨fun h => ⟨h1.mp rfl, h⟩, And.right⟩
  have hstart : OwnSets b.nSeqMax fun s => if s < b.nSeqMax then Finset.range maxSeq else ∅ := by
    refine ⟨fun t ht => ?_, fun t ht => if_neg (by omega)⟩
    rw [if_pos ht]
    exact Finset.mem_range.mpr (lt_of_lt_of_le ht hmax)
  rw [Allocr.checkSets, key hstart fun i hi => mem_range.mp hi]
  simp only [mem_range, Allocr.SeqsBelow]
  exact ⟨fun h i hi s hs => ⟨hids i hi s hs, h i hi s hs⟩, fun h i hi s hs => (h i hi s hs).2⟩

/-- Valid sequence ids are not negative; a missing list has the sequence 0. -/
theorem seqs_nonneg (h : inp.valid a = true) :
    ∀ i < inp.nTokens, ∀ s ∈ (fill a inp).seqs i, 0 ≤ s := by
  intro i hi s hs
  simp only [Allocr.seqs, fill, mem_map, mem_range] at hs
  obtain ⟨n, hn, rfl⟩ := hs
  simp only [Input.valid, Bool.and_eq_true] at h
  cases hq : inp.seqId with
  | none => exact le_rfl
  | some q =>
    simp only [hq, all_eq_true, mem_range, decide_eq_true_eq] at h
    exact (h.2 i hi n hn).1

/-- `init` accepts the batches that the other checks admit. -/
theorem init_eq_some_iff : init a inp = some b ↔ inp.Admitted a ∧ b = fill a inp := by
  have hsets : inp.valid a = true →
      ((fill a inp).checkSets.isSome = true ↔ (fill a inp).SeqsBelow) := by
    intro h
    refine checkSets_isSome_iff ?_ (seqs_nonneg h)
    simp only [Input.valid, Bool.and_eq_true, decide_eq_true_eq] at h
    exact h.1.1
  simp only [init]
  constructor
  · intro h
    split at h
    · rename_i hc
      obtain ⟨h1, h2, h3, h4, h5⟩ := hc
      exact ⟨⟨h1, h2, h3, h4, (hsets h2).mp h5⟩, (Option.some.inj h).symm⟩
    · cases h
  · rintro ⟨⟨h1, h2, h3, h4, h5⟩, rfl⟩
    rw [if_pos ⟨h1, h2, h3, h4, (hsets h2).mpr h5⟩]

/-- How many tokens two sequences have in common. -/
def Allocr.shared (b : Allocr E) (s t : Nat) : Nat :=
  ((Finset.range b.nTokens).filter fun i => s ∈ b.seqSet i ∧ t ∈ b.seqSet i).card

/-- `seq_pos[s]` behind the first `k` tokens. -/
def Allocr.posBefore (b : Allocr E) (s k : Nat) : Finset Int :=
  ((Finset.range k).filter fun i => s ∈ b.seqSet i).image b.pos

/-- Of the positions of a sequence, a token is at the one whose number is the number of different
positions that were met so far: the positions are opened one after another, from the lowest. -/
def Allocr.Opened (b : Allocr E) : Prop :=
  ∀ i < b.nTokens, ∀ s ∈ b.seqSet i,
    ((b.posBefore s b.nTokens).filter (· ≤ b.pos i)).card = (b.posBefore s (i + 1)).card

/-- The positions that are farthest apart are accepted: their difference wraps. -/
example : (init plainArgs (textBatch [[0], [0]] [-1, 2147483647])).isSome = true := by
  rw [init, if_pos (by decide)]
  rfl

end Llama.Batch
