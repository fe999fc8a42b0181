import Llama.Batch.Order
import Llama.Decode.Memory

/-!
# The ubatches of a batch

What the memory module relies on: the cuts of a split, the order in which they take the tokens of
a sequence, their blocks, and how the tokens appear in the ubatch that the caches read.
-/

namespace Llama.Decode

open Batch List

variable {E : Type} {b : Allocr E} {p p' : Progress} {c : Cut} {nUbatch : Nat}

variable {mode : Mode} {done : List Nat} {i j s k n : Nat} {u : Kv.Ubatch} {si : Kv.SlotInfo}

/-- The state in which a cut of the split was made. -/
theorem splitAll_at {R : Progress → List Nat → Prop}
    (hstep : ∀ p done c p', R p done → b.split mode nUbatch p = some (c, p') →
      R p' (done ++ c.idxs)) :
    ∀ (calls : Nat) (p : Progress) (done : List Nat) (cuts : List Cut) (p' : Progress), R p done →
    b.splitAll mode nUbatch calls p = some (cuts, p') → ∀ pre c post, cuts = pre ++ c :: post →
    ∃ p1 p2, R p1 (done ++ pre.flatMap Cut.idxs) ∧ b.split mode nUbatch p1 = some (c, p2) := by
  intro calls
  induction calls with
  | zero => intro p done cuts p' _ h; cases h
  | succ calls ih =>
    intro p done cuts p' hR h pre c post hcuts
    rw [Allocr.splitAll] at h
    cases hs : b.split mode nUbatch p with
    | none =>
      rw [hs] at h
      cases h
      cases pre <;> cases hcuts
    | some r =>
      rw [hs] at h
      cases hrest : b.splitAll mode nUbatch calls r.2 with
      | none =>
        simp only [hrest, Option.bind_eq_bind, Option.bind_none] at h
        cases h
      | some w =>
        simp only [hrest, Option.bind_eq_bind, Option.bind_some] at h
        cases h
        cases pre with
        | nil =>
          obtain ⟨hc, -⟩ := List.cons.inj hcuts
          refine ⟨p, r.2, by simpa using hR, ?_⟩
          rw [hs, ← hc]
        | cons c0 pre =>
          obtain ⟨hc, hpost⟩ := List.cons.inj hcuts
          obtain ⟨p1, p2, h1, h2⟩ := ih r.2 (done ++ r.1.idxs) w.1 w.2 (hstep p done r.1 r.2 hR hs)
            hrest pre c post hpost
          refine ⟨p1, p2, ?_, h2⟩
          rw [flatMap_cons, ← append_assoc, ← hc]
          exact h1

/-- Every token has a sequence. -/
def AllSeated (b : Allocr E) : Prop := ∀ i < b.nTokens, b.seqSet i ≠ ∅

theorem AllSeated.oneFree (h : AllSeated b) : b.OneFree := fun i _ hi _ he _ => (h i hi he).elim

/-- The first token of a sequence is the first of it that is used. -/
def FirstUsed (b : Allocr E) (p : Progress) : Prop :=
  ∀ j < b.nTokens, ∀ s ∈ b.seqSet j, (∀ i < j, s ∉ b.seqSet i) →
    (∃ i, p.used i = true ∧ s ∈ b.seqSet i) → p.used j = true

/-- Later tokens of a chain belong to fewer sequences. -/
theorem chain_nested {l : List Nat} (h : l.IsChain (NextInside b p)) :
    l.Pairwise fun i k => i < k ∧ b.seqSet k ⊆ b.seqSet i := by
  have : IsTrans Nat fun i k => i < k ∧ b.seqSet k ⊆ b.seqSet i :=
    ⟨fun _ _ _ h1 h2 => ⟨h1.1.trans h2.1, h2.2.trans h1.2⟩⟩
  exact isChain_iff_pairwise.mp (h.imp fun _ _ h => ⟨h.lt, h.subset⟩)

theorem splitSeq_firstUsed (h : FirstUsed b p) (hs : b.splitSeq nUbatch p = some (c, p')) :
    FirstUsed b p' := by
  have htakes := splitSeq_step hs
  obtain ⟨hlt, l, hidx, hchain, -, -⟩ := splitSeq_some hs
  obtain ⟨-, hbefore⟩ := firstUnused_spec hlt
  intro j hj s hsj hfirst hex
  obtain ⟨i, hui, hsi⟩ := hex
  rw [htakes.used] at hui ⊢
  rcases hui with hui | hui
  · exact .inl (h j hj s hsj hfirst ⟨i, hui, hsi⟩)
  · -- the first token of the cut has the sequence, so it is the first one of the sequence
    have hnested := chain_nested hchain
    rw [hidx] at hnested hui ⊢
    have hmem : s ∈ b.seqSet (b.firstUnused p) := by
      rcases mem_cons.mp hui with rfl | hi
      · exact hsi
      · exact ((pairwise_cons.mp hnested).1 i hi).2 hsi
    by_cases huj : p.used j = true
    · exact .inl huj
    · right
      have h1 : ¬ b.firstUnused p < j := fun hlt => hfirst _ hlt hmem
      have h2 : ¬ j < b.firstUnused p := fun hlt => huj (hbefore j hlt)
      have he : j = b.firstUnused p := by omega
      rw [he]
      exact mem_cons_self

theorem not_hasCpl_of_splitEqual (h : b.splitEqual nUbatch true p = some (c, p')) :
    b.hasCpl = false := by
  simp only [Allocr.splitEqual, Bool.true_and] at h
  split at h
  · cases h
  · rename_i hn
    simpa using hn

/-- What holds of the used tokens between two calls. -/
def InOrder (b : Allocr E) (p : Progress) : Mode → Prop
  | .seq => FirstUsed b p
  | _ => SharedInOrder b p

/-- The ways in which a memory module splits. -/
def Sequential : Mode → Prop
  | .equal false => False
  | _ => True

/-- State of a split: the tokens that were taken, and their order. -/
structure SplitInv (b : Allocr E) (mode : Mode) (p : Progress) (done : List Nat) : Prop where
  covered : Covered b p done
  keeps : mode.Keeps b p
  order : InOrder b p mode

theorem splitInv_reset (mode : Mode) : SplitInv b mode Progress.reset [] := by
  refine ⟨covered_reset, keeps_reset mode, ?_⟩
  cases mode with
  | seq =>
    intro j _ s _ _ h
    obtain ⟨i, hi, -⟩ := h
    cases hi
  | simple => exact sharedInOrder_reset
  | equal s => exact sharedInOrder_reset

theorem SplitInv.step {mode : Mode} {done : List Nat} (hseat : AllSeated b)
    (hmode : Sequential mode)
    (h : SplitInv b mode p done) (hs : b.split mode nUbatch p = some (c, p')) :
    Takes b p c.idxs p' ∧ SplitInv b mode p' (done ++ c.idxs) := by
  obtain ⟨htakes, hkeeps⟩ := split_step hseat.oneFree h.keeps hs
  refine ⟨htakes, h.covered.step htakes, hkeeps, ?_⟩
  match mode, hmode, h, hs, hkeeps with
  | .simple, _, _, _, hkeeps => exact fun i j hij _ _ hu => hkeeps i j hij hu
  | .seq, _, h, hs, _ => exact splitSeq_firstUsed h.order hs
  | .equal true, _, _, hs, hkeeps =>
    exact sharedInOrder_of_not_hasCpl (not_hasCpl_of_splitEqual hs) hkeeps

/-- Of two tokens with a common sequence, the one that was taken in an earlier cut comes first in
the batch; a split by sequences does at least not take the first token of a sequence late. -/
theorem SplitInv.earlier (h : SplitInv b mode p done) (htakes : Takes b p c.idxs p') (hi : i ∈ done)
    (hj : j ∈ c.idxs) (hsi : s ∈ b.seqSet i) (hsj : s ∈ b.seqSet j) :
    (mode ≠ .seq → i < j) ∧ ∃ k < j, s ∈ b.seqSet k := by
  have hui := (h.covered.used i).mpr hi
  have huj := htakes.unused j hj
  have hne : i ≠ j := by
    rintro rfl
    rw [hui] at huj
    cases huj
  have hshared : SharedInOrder b p → i < j := fun hord => by
    by_contra hle
    rw [hord j i (by omega) (h.covered.lt i hi) ⟨s, hsj, hsi⟩ hui] at huj
    cases huj
  match mode, h with
  | .simple, h => exact ⟨fun _ => hshared h.order, i, hshared h.order, hsi⟩
  | .equal q, h => exact ⟨fun _ => hshared h.order, i, hshared h.order, hsi⟩
  | .seq, h =>
    refine ⟨fun h => absurd rfl h, ?_⟩
    by_contra hn
    push Not at hn
    rw [h.order j (htakes.lt j hj) s hsj hn ⟨i, hui, hsi⟩] at huj
    cases huj

/-- A cut into blocks of equal length. In a block the tokens come in order and have fewer and
fewer sequences; different blocks have no common sequence. -/
structure Blocks (b : Allocr E) (c : Cut) (n : Nat) : Prop where
  equal : c.equalSeqs = true
  seqs : 0 < c.nSeqs
  pos : 0 < n
  length : c.nSeqs * n = c.idxs.length
  nested : ∀ s < c.nSeqs, ∀ k k', k ≤ k' → k' < n →
    c.idxs.getD (s * n + k) 0 ≤ c.idxs.getD (s * n + k') 0 ∧
      b.seqSet (c.idxs.getD (s * n + k') 0) ⊆ b.seqSet (c.idxs.getD (s * n + k) 0)
  apart : ∀ s s', s < s' → s' < c.nSeqs →
    Disjoint (b.seqSet (c.idxs.getD (s * n) 0)) (b.seqSet (c.idxs.getD (s' * n) 0))

theorem splitEqual_blocks {sequential : Bool} (hord : UsedInOrder b p)
    (h : b.splitEqual nUbatch sequential p = some (c, p')) : ∃ n, Blocks b c n := by
  obtain ⟨k, is, m, q, hk, hch, hne, -, hm, hlen, hidx, ⟨hseqs, hequal⟩, -, -⟩ := splitEqual_some h
  have hlane : ∀ i, b.laneRest p (b.seqSet i) = b.remaining p (b.seqSet i) :=
    fun i => laneRest_eq_remaining hord _
  have hturns : c.idxs = is.flatMap fun i => (b.remaining p (b.seqSet i)).take m := by
    rw [hidx, Allocr.turns, flatMap_map]
    simp only [hlane]
  have hlens : ∀ i ∈ is, ((b.remaining p (b.seqSet i)).take m).length = m := by
    intro i hi
    rw [length_take, Nat.min_eq_left]
    rw [← hlane]
    exact hlen i hi
  have hget : ∀ s (hs : s < is.length) k, k < m → c.idxs.getD (s * m + k) 0 =
      ((b.remaining p (b.seqSet is[s])).take m).getD k 0 := fun s hs k hk => by
    rw [hturns]
    rw [getD_eq_getElem?_getD, Bytes.getElem?_flatMap_block is s k hs hlens hk,
      getD_eq_getElem?_getD]
  have hmem : ∀ s (hs : s < is.length) k, k < m →
      c.idxs.getD (s * m + k) 0 ∈ b.remaining p (b.seqSet is[s]) := fun s hs k hk => by
    have hk' : k < ((b.remaining p (b.seqSet is[s])).take m).length := by
      rw [hlens _ (getElem_mem hs)]
      exact hk
    rw [hget s hs k hk, getD_eq_getElem _ _ hk']
    exact mem_of_mem_take (getElem_mem hk')
  have hset : ∀ s (hs : s < is.length) k, k < m →
      b.seqSet (c.idxs.getD (s * m + k) 0) = b.seqSet is[s] := fun s hs k hk =>
    (mem_remaining.mp (hmem s hs k hk)).2.1
  refine ⟨m, hequal, hseqs ▸ length_pos_of_ne_nil hne, hm, ?_, fun s hs k k' hkk hk' => ?_,
    fun s s' hss hs' => ?_⟩
  · rw [hseqs, hturns, length_flatMap]
    rw [map_congr_left hlens, map_const', sum_replicate_nat]
  · rw [hseqs] at hs
    refine ⟨?_, ?_⟩
    · have hl := hlens _ (getElem_mem hs)
      rw [hget s hs k (by omega), hget s hs k' hk', getD_eq_getElem _ _ (by omega),
        getD_eq_getElem _ _ (by omega)]
      rcases Nat.eq_or_lt_of_le hkk with rfl | hlt
      · exact le_rfl
      · exact (pairwise_iff_getElem.mp ((remaining_sorted _).sublist (take_sublist m _))
          k k' _ _ hlt).le
    · rw [hset s hs k (by omega), hset s hs k' hk']
  · rw [hseqs] at hs'
    have e1 := hset s (hss.trans hs') 0 hm
    have e2 := hset s' hs' 0 hm
    rw [Nat.add_zero] at e1 e2
    rw [e1, e2, Finset.disjoint_iff_inter_eq_empty]
    exact pairwise_iff_getElem.mp hch.apart s s' _ _ hss

theorem splitSeq_blocks (h : b.splitSeq nUbatch p = some (c, p')) :
    Blocks b c c.idxs.length ∧ c.nSeqs = 1 := by
  obtain ⟨-, l, hidx, hchain, -, -⟩ := splitSeq_some h
  have hnested := chain_nested hchain
  have hone : c.nSeqs = 1 ∧ c.equalSeqs = true := by
    simp only [Allocr.splitSeq] at h
    split at h
    · cases h
    · cases h
      exact ⟨rfl, rfl⟩
  refine ⟨⟨hone.2, by omega, by rw [hidx]; simp, by rw [hone.1, Nat.one_mul],
    fun s hs k k' hkk hk' => ?_, fun s s' hss hs' => by omega⟩, hone.1⟩
  obtain rfl : s = 0 := by omega
  rw [Nat.zero_mul, Nat.zero_add, Nat.zero_add, getD_eq_getElem _ _ (by omega),
    getD_eq_getElem _ _ hk']
  rcases Nat.eq_or_lt_of_le hkk with rfl | hlt
  · exact ⟨le_rfl, Finset.Subset.refl _⟩
  · have := pairwise_iff_getElem.mp hnested k k' (by omega) hk' hlt
    exact ⟨this.1.le, this.2⟩

/-- A batch whose tokens have sequences of the cache and positions. -/
structure Seatable (f : Kv.Config) (b : Allocr E) : Prop where
  ids : ∀ i < b.nTokens, ∀ s ∈ b.seqs i, 0 ≤ s ∧ s < b.nSeqMax
  bound : b.nSeqMax ≤ f.seqToStreamSize
  seqs : ∀ i < b.nTokens, 0 < b.nSeqId i
  pos : ∀ i < b.nTokens, 0 ≤ b.pos i
  nPos : 0 < b.nPosPerEmbd

variable {f : Kv.Config}

theorem seqToStreamSize_le (hf : f.Valid) : f.seqToStreamSize ≤ Kv.maxSeq := by
  unfold Kv.Config.seqToStreamSize
  split
  · rcases hf.stream with h | h
    · omega
    · exact h ▸ hf.seqMax
  · exact le_rfl

theorem val_seqIdOf {s : Int} (h : s < Kv.maxSeq) : (seqIdOf s).val = s.toNat := by
  have hlt : s.toNat < Kv.maxSeq := by
    simp only [Kv.maxSeq] at h ⊢
    omega
  exact Nat.mod_eq_of_lt hlt

theorem seqIdOf_val (q : Kv.SeqId) : seqIdOf (q.val : Int) = q := by
  apply Fin.ext
  rw [val_seqIdOf (by have := q.isLt; omega)]
  simp

theorem Seatable.lt_maxSeq (hb : Seatable f b) (hf : f.Valid) (hi : i < b.nTokens) {s : Int}
    (hs : s ∈ b.seqs i) : s < Kv.maxSeq := by
  have h1 := (hb.ids i hi s hs).2
  have h2 := hb.bound.trans (seqToStreamSize_le hf)
  omega

theorem head_mem_seqSet (h : 0 < b.nSeqId i) : (b.seqId i 0).toNat ∈ b.seqSet i := by
  rw [Allocr.seqSet, mem_toFinset, Allocr.seqs, map_map]
  exact mem_map.mpr ⟨0, mem_range.mpr h, rfl⟩

theorem Seatable.allSeated (hb : Seatable f b) : AllSeated b := by
  intro i hi he
  have hmem := head_mem_seqSet (hb.seqs i hi)
  rw [he] at hmem
  cases hmem

theorem mem_seqSet_iff (hb : Seatable f b) (hf : f.Valid) (hi : i < b.nTokens) (q : Kv.SeqId) :
    q ∈ (b.seqs i).map seqIdOf ↔ q.val ∈ b.seqSet i := by
  rw [Allocr.seqSet, mem_toFinset, mem_map, mem_map]
  constructor
  · rintro ⟨s, hs, rfl⟩
    exact ⟨s, hs, (val_seqIdOf (hb.lt_maxSeq hf hi hs)).symm⟩
  · rintro ⟨s, hs, hq⟩
    refine ⟨s, hs, Fin.ext ?_⟩
    rw [val_seqIdOf (hb.lt_maxSeq hf hi hs), hq]

theorem seqSet_lt (hb : Seatable f b) (hi : i < b.nTokens) (hs : s ∈ b.seqSet i) :
    s < b.nSeqMax := by
  rw [Allocr.seqSet, mem_toFinset, mem_map] at hs
  obtain ⟨z, hz, rfl⟩ := hs
  have := hb.ids i hi z hz
  omega

/-- The token at place `k` of a cut. -/
def tokenAt (c : Cut) (k : Nat) : Nat := c.idxs.getD k 0

theorem tokenAt_mem (hk : k < c.idxs.length) : tokenAt c k ∈ c.idxs := by
  rw [tokenAt, getD_eq_getElem _ _ hk]
  exact getElem_mem hk

theorem exists_tokenAt (hi : i ∈ c.idxs) : ∃ k < c.idxs.length, tokenAt c k = i := by
  obtain ⟨k, hk, rfl⟩ := getElem_of_mem hi
  exact ⟨k, hk, getD_eq_getElem _ _ hk⟩

theorem idxs_tokenAt (hk : k < c.idxs.length) : c.idxs[k]? = some (tokenAt c k) := by
  rw [getElem?_eq_getElem hk, tokenAt, getD_eq_getElem _ _ hk]

theorem ubatch_pos (hb : Seatable f b) (hk : k < c.idxs.length) :
    (b.ubatch c).pos.getD k 0 = b.pos (tokenAt c k) := by
  have h := (ubatch_carries b c).pos 0 k (tokenAt c k) hb.nPos (idxs_tokenAt hk)
  rw [Nat.zero_mul, Nat.zero_add] at h
  rw [getD_eq_getElem?_getD, h]
  simp [Allocr.posAt]

theorem ubatch_seqId (hk : k < c.idxs.length) :
    (b.ubatch c).seqId.getD k [] = b.seqs (tokenAt c k) := by
  have h := (ubatch_carries b c).seqId k (tokenAt c k) (idxs_tokenAt hk)
  rw [getD_eq_getElem?_getD, h]
  rfl

section

variable (hb : Seatable f b)
include hb

theorem firstSeq_ubatch (hlt : ∀ i ∈ c.idxs, i < b.nTokens) (hk : k < c.idxs.length) :
    firstSeq (b.ubatch c) k = (b.seqId (tokenAt c k) 0).toNat := by
  have hpos := hb.seqs _ (hlt _ (tokenAt_mem hk))
  rw [firstSeq, ubatch_seqId hk, Allocr.seqs]
  obtain ⟨n, hn⟩ := Nat.exists_eq_succ_of_ne_zero hpos.ne'
  rw [hn, range_succ_eq_map]
  rfl

theorem mem_unq (hf : f.Valid) (hlt : ∀ i ∈ c.idxs, i < b.nTokens) (q : Kv.SeqId) :
    q ∈ (kvUbatch (b.ubatch c)).seqIdUnq ↔ ∃ i ∈ c.idxs, q.val ∈ b.seqSet i := by
  have hbound := hb.bound.trans (seqToStreamSize_le hf)
  simp only [kvUbatch, Allocr.ubatch, mem_map, mem_filter, mem_range, any_eq_true,
    decide_eq_true_eq]
  constructor
  · rintro ⟨s, ⟨hs, i, hi, hsi⟩, rfl⟩
    refine ⟨i, hi, ?_⟩
    rwa [val_seqIdOf (by omega), Int.toNat_natCast]
  · rintro ⟨i, hi, hq⟩
    exact ⟨q.val, ⟨seqSet_lt hb (hlt i hi) hq, i, hi, hq⟩, seqIdOf_val q⟩

theorem unq_nodup (hf : f.Valid) : (kvUbatch (b.ubatch c)).seqIdUnq.Nodup := by
  have hbound := hb.bound.trans (seqToStreamSize_le hf)
  refine List.Nodup.map_on (fun s hs s' hs' he => ?_) (nodup_range.filter _)
  have h1 := mem_range.mp (mem_filter.mp hs).1
  have h2 := mem_range.mp (mem_filter.mp hs').1
  have hv := congrArg Fin.val he
  rw [val_seqIdOf (by omega), val_seqIdOf (by omega)] at hv
  simpa using hv

theorem unq_ne_nil (hf : f.Valid) (hne : c.idxs ≠ []) (hlt : ∀ i ∈ c.idxs, i < b.nTokens) :
    (kvUbatch (b.ubatch c)).seqIdUnq ≠ [] := by
  obtain ⟨i, hi⟩ := exists_mem_of_ne_nil _ hne
  obtain ⟨s, hs⟩ := Finset.nonempty_iff_ne_empty.mpr (hb.allSeated i (hlt i hi))
  have hbound := hb.bound.trans (seqToStreamSize_le hf)
  have hs' := seqSet_lt hb (hlt i hi) hs
  have hmem : (⟨s, by omega⟩ : Kv.SeqId) ∈ (kvUbatch (b.ubatch c)).seqIdUnq :=
    (mem_unq hb hf hlt _).mpr ⟨i, hi, hs⟩
  exact ne_nil_of_mem hmem

theorem fed_ubatch (hf : f.Valid) (hne : c.idxs ≠ []) (hlt : ∀ i ∈ c.idxs, i < b.nTokens)
    (hblocks : 1 < f.nStream →
      (kvUbatch (b.ubatch c)).nTokens % (kvUbatch (b.ubatch c)).seqIdUnq.length = 0) :
    Kv.Cache.Fed f (kvUbatch (b.ubatch c)) where
  tokens := length_pos_of_ne_nil hne
  unq := unq_ne_nil hb hf hne hlt
  nodup := unq_nodup hb hf
  valid q hq := by
    obtain ⟨i, hi, hs⟩ := (mem_unq hb hf hlt q).mp hq
    exact (seqSet_lt hb (hlt i hi) hs).trans_le hb.bound
  blocks := hblocks
  pos k hk := by
    have hk' : k < c.idxs.length := hk
    have hp := hb.pos _ (hlt _ (tokenAt_mem hk'))
    rw [← ubatch_pos hb hk'] at hp
    exact hp

end

/-- Every block starts with a token of exactly its sequence. -/
def FirstTokens (f : Kv.Config) (u : Kv.Ubatch) : Prop :=
  1 < f.nStream → ∀ s (hs : s < u.seqIdUnq.length),
    u.seqId (s * (u.nTokens / u.seqIdUnq.length)) = [u.seqIdUnq[s]]

/-- Every block has only tokens of its sequence. -/
def Homed (f : Kv.Config) (u : Kv.Ubatch) : Prop :=
  1 < f.nStream → ∀ s (hs : s < u.seqIdUnq.length), ∀ k < u.nTokens / u.seqIdUnq.length,
    ∀ q ∈ u.seqId (s * (u.nTokens / u.seqIdUnq.length) + k), q = u.seqIdUnq[s]

theorem blockAborts_false {x : Kv.Cache} {u : Kv.Ubatch} {n : Nat} :
    ∀ (qs : List Kv.SeqId) (s : Nat),
    blockAborts x u n qs s = false → (∀ q ∈ qs, (x.streamSlot false n q).isSome) →
    ∀ j (hj : j < qs.length), u.seqId ((s + j) * n) = [qs[j]]
  | [], _, _, _, j, hj => absurd hj (Nat.not_lt_zero j)
  | q :: qs, s, h, hsome, j, hj => by
    rw [blockAborts] at h
    split at h
    · rename_i hq
      obtain ⟨l, hl⟩ := Option.isSome_iff_exists.mp (hsome q mem_cons_self)
      rw [hl] at h
      cases j with
      | zero => simpa using hq
      | succ j =>
        have := blockAborts_false qs (s + 1) h (fun r hr => hsome r (mem_cons_of_mem q hr)) j
          (Nat.lt_of_succ_lt_succ hj)
        rw [Nat.add_assoc, Nat.add_comm 1 j] at this
        exact this
    · cases h

theorem firstTokens_of_slot {x : Kv.Cache} (ha : slotAborts x u = false)
    (hsi : (x.findSlot u false).1 = some si) : FirstTokens x.cfg u := by
  intro hs
  simp only [slotAborts, hs, decide_true, Bool.true_and, Bool.or_eq_false_iff] at ha
  have hall := (Kv.Cache.findSlotLoop_fst (c := x) (u := u) false (u.perStream x.cfg)
    (u.slotSeqs x.cfg) 0 { s0 := Kv.maxSeq, s1 := 0, strm := [], idxs := [] }).1
  rw [← Kv.Cache.findSlot_fst, hsi] at hall
  have hsome := hall.mp rfl
  rw [Kv.Ubatch.slotSeqs, if_pos hs, Kv.Ubatch.perStream, if_pos hs] at hsome
  intro j hj
  simpa using blockAborts_false u.seqIdUnq 0 ha.2 hsome j hj

/-- The slot that was found for an ubatch has its tokens in the streams of their sequences. -/
theorem Homed.settled (hu : Homed f u) (hfit : u.Fit f)
    (hstrm : si.strm = (u.slotSeqs f).map f.seqToStream) (hsize : si.size = u.perStream f) :
    Kv.Cache.Settled f si u := by
  refine ⟨?_, fun s hs k hk q hq => ?_⟩
  · rw [hstrm, length_map, hsize, Kv.Cache.Fit.tokens_eq hfit]
  · rw [hsize] at hq hk
    have hs' : s < (u.slotSeqs f).length := by rwa [hstrm, length_map] at hs
    have hat : si.strmAt s = f.seqToStream (u.slotSeqs f)[s] := by
      rw [Kv.SlotInfo.strmAt, getD_eq_getElem _ _ hs]
      simp [hstrm]
    rw [hat]
    by_cases hst : 1 < f.nStream
    · have hseqs : u.slotSeqs f = u.seqIdUnq := by rw [Kv.Ubatch.slotSeqs, if_pos hst]
      rw [Kv.Ubatch.perStream, if_pos hst] at hq hk
      have hs'' : s < u.seqIdUnq.length := hseqs ▸ hs'
      rw [hu hst s hs'' k hk q hq]
      simp only [hseqs]
    · rw [Kv.Config.seqToStream, if_neg hst, Kv.Config.seqToStream, if_neg hst]

theorem Blocks.exists_block (h : Blocks b c n) (hk : k < c.idxs.length) :
    ∃ s < c.nSeqs, ∃ j < n, k = s * n + j := by
  rw [← h.length] at hk
  exact ⟨k / n, (Nat.div_lt_iff_lt_mul h.pos).mpr hk, k % n, Nat.mod_lt k h.pos,
    (Nat.div_add_mod' k n).symm⟩

theorem Blocks.place_lt (h : Blocks b c n) (hs : s < c.nSeqs) (hj : j < n) :
    s * n + j < c.idxs.length := by
  rw [← h.length]
  calc s * n + j < s * n + n := Nat.add_lt_add_left hj _
    _ = (s + 1) * n := (Nat.succ_mul s n).symm
    _ ≤ c.nSeqs * n := Nat.mul_le_mul_right _ hs

theorem Blocks.head_lt (h : Blocks b c n) (hs : s < c.nSeqs) : s * n < c.idxs.length :=
  h.place_lt hs h.pos

/-- Where every block has one sequence, there are as many sequences as blocks. -/
theorem unq_length (hb : Seatable f b) (hlt : ∀ i ∈ c.idxs, i < b.nTokens) (h : Blocks b c n)
    (hone : ∀ s < c.nSeqs, ∃ q, b.seqSet (tokenAt c (s * n)) = {q}) :
    (kvUbatch (b.ubatch c)).seqIdUnq.length = c.nSeqs := by
  choose! g hg using hone
  have hperm : ((range b.nSeqMax).filter fun s => c.idxs.any fun i =>
      decide (s ∈ b.seqSet i)).Perm ((range c.nSeqs).map g) := by
    refine (perm_ext_iff_of_nodup (nodup_range.filter _) ?_).mpr fun x => ?_
    · refine List.Nodup.map_on (fun s hs s' hs' he => ?_) nodup_range
      rw [mem_range] at hs hs'
      have hmem : ∀ r < c.nSeqs, g r ∈ b.seqSet (tokenAt c (r * n)) := fun r hr => by
        rw [hg r hr]
        exact Finset.mem_singleton_self _
      rcases Nat.lt_trichotomy s s' with hlt | heq | hgt
      · exact (Finset.disjoint_left.mp (h.apart s s' hlt hs') (hmem s hs) (he ▸ hmem s' hs')).elim
      · exact heq
      · exact (Finset.disjoint_left.mp (h.apart s' s hgt hs) (hmem s' hs') (he ▸ hmem s hs)).elim
    · simp only [mem_filter, mem_range, any_eq_true, decide_eq_true_eq, mem_map]
      constructor
      · rintro ⟨-, i, hi, hx⟩
        obtain ⟨k, hk, rfl⟩ := exists_tokenAt hi
        obtain ⟨s, hs, j, hj, rfl⟩ := h.exists_block hk
        have hsub := (h.nested s hs 0 j (Nat.zero_le j) hj).2 hx
        rw [Nat.add_zero] at hsub
        refine ⟨s, hs, ?_⟩
        have hx' : x ∈ b.seqSet (tokenAt c (s * n)) := hsub
        rw [hg s hs, Finset.mem_singleton] at hx'
        exact hx'.symm
      · rintro ⟨s, hs, rfl⟩
        have hi := tokenAt_mem (h.head_lt hs)
        have hmem : g s ∈ b.seqSet (tokenAt c (s * n)) := by
          rw [hg s hs]
          exact Finset.mem_singleton_self _
        exact ⟨seqSet_lt hb (hlt _ hi) hmem, _, hi, hmem⟩
  rw [kvUbatch, length_map]
  exact hperm.length_eq.trans (by rw [length_map, length_range])

section

variable (hb : Seatable f b) (hf : f.Valid) (hlt : ∀ i ∈ c.idxs, i < b.nTokens)
include hb hf hlt

theorem seqSet_of_seqId {q : Kv.SeqId} (hk : k < c.idxs.length)
    (h : (kvUbatch (b.ubatch c)).seqId k = [q]) : b.seqSet (tokenAt c k) = {q.val} := by
  have hi := hlt _ (tokenAt_mem hk)
  have hseq : (b.seqs (tokenAt c k)).map seqIdOf = [q] := by
    rw [← ubatch_seqId hk]
    exact h
  ext s
  rw [Finset.mem_singleton]
  constructor
  · intro hs
    have hbound := hb.bound.trans (seqToStreamSize_le hf)
    have hs' := seqSet_lt hb hi hs
    have hmem := (mem_seqSet_iff hb hf hi ⟨s, by omega⟩).mpr hs
    rw [hseq, mem_singleton] at hmem
    exact congrArg Fin.val hmem
  · rintro rfl
    exact (mem_seqSet_iff hb hf hi q).mp (hseq ▸ mem_singleton_self q)

theorem homed_of_blocks (h : Blocks b c n)
    (hone : 1 < f.nStream → ∀ s < c.nSeqs, ∃ q, b.seqSet (tokenAt c (s * n)) = {q})
    (hfirst : FirstTokens f (kvUbatch (b.ubatch c))) : Homed f (kvUbatch (b.ubatch c)) := by
  intro hst s hs k hk q hq
  have hlen := unq_length hb hlt h (hone hst)
  have hn : (kvUbatch (b.ubatch c)).nTokens / (kvUbatch (b.ubatch c)).seqIdUnq.length = n := by
    have htok : (kvUbatch (b.ubatch c)).nTokens = c.nSeqs * n := h.length.symm
    rw [hlen, htok, Nat.mul_div_cancel_left n h.seqs]
  have hfs := hfirst hst s hs
  rw [hn] at hk hq hfs
  have hs' : s < c.nSeqs := hlen ▸ hs
  have hplace := h.place_lt hs' hk
  have hset := seqSet_of_seqId hb hf hlt (h.head_lt hs') hfs
  have hmem : q ∈ (b.seqs (tokenAt c (s * n + k))).map seqIdOf := by
    rw [← ubatch_seqId hplace]
    exact hq
  rw [mem_seqSet_iff hb hf (hlt _ (tokenAt_mem hplace))] at hmem
  have hsub := (h.nested s hs' 0 k (Nat.zero_le k) hk).2 hmem
  rw [Nat.add_zero] at hsub
  have hsub' : q.val ∈ b.seqSet (tokenAt c (s * n)) := hsub
  rw [hset, Finset.mem_singleton] at hsub'
  exact Fin.ext hsub'

end

theorem singleton_of_not_hasCpl (hcpl : b.hasCpl = false) (hi : i < b.nTokens)
    (hpos : 0 < b.nSeqId i) : ∃ q, b.seqSet i = {q} := by
  have hle : b.nSeqId i ≤ 1 := by
    have := any_eq_false.mp hcpl i (mem_range.mpr hi)
    simpa using this
  have hone : b.nSeqId i = 1 := by omega
  exact ⟨(b.seqId i 0).toNat, by simp [Allocr.seqSet, Allocr.seqs, hone]⟩

/-- The blocks of an ubatch that passed the assertions of `find_slot` go to their streams. -/
theorem homed_cut (hb : Seatable f b) (hf : f.Valid) (hmode : Sequential mode)
    (hsimple : mode = .simple → f.nStream = 1) (hinv : SplitInv b mode p done)
    (hs : b.split mode nUbatch p = some (c, p')) (hfirst : FirstTokens f (kvUbatch (b.ubatch c))) :
    Homed f (kvUbatch (b.ubatch c)) := by
  have hlt := (hinv.step hb.allSeated hmode hs).1.lt
  match mode, hmode, hsimple, hinv, hs with
  | .simple, _, hsimple, _, _ =>
    intro hst
    have := hsimple rfl
    omega
  | .equal true, _, _, hinv, hs =>
    have hcpl := not_hasCpl_of_splitEqual hs
    obtain ⟨n, hblk⟩ := splitEqual_blocks hinv.keeps hs
    refine homed_of_blocks hb hf hlt hblk (fun _ s hs => ?_) hfirst
    have hplace := tokenAt_mem (hblk.head_lt hs)
    exact singleton_of_not_hasCpl hcpl (hlt _ hplace) (hb.seqs _ (hlt _ hplace))
  | .seq, _, _, _, hs =>
    obtain ⟨hblk, hone⟩ := splitSeq_blocks hs
    refine homed_of_blocks hb hf hlt hblk (fun hst s hs => ?_) hfirst
    -- there is one block, and its first token has one sequence
    obtain rfl : s = 0 := by omega
    have hlen := length_pos_of_ne_nil (unq_ne_nil hb hf (ne_nil_of_length_pos hblk.pos) hlt)
    have hfs := hfirst hst 0 hlen
    rw [Nat.zero_mul] at hfs ⊢
    exact ⟨_, seqSet_of_seqId hb hf hlt hblk.pos hfs⟩

end Llama.Decode
