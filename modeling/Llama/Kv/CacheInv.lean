import Llama.Kv.Place

/-!
# The invariant of the cache

Every stream is good, holds only its own sequences, and every head points into its
stream or just behind it. A slot found for an ubatch of the shape that
`llama_batch_allocr` produces fits the cache.
-/

namespace Llama.Kv

open List

def Config.Home (f : Config) (t : Nat) (q : SeqId) : Prop := f.ValidSeq q ∧ f.seqToStream q = t

instance (f : Config) (t : Nat) (q : SeqId) : Decidable (f.Home t q) := instDecidableAnd

variable {f : Config} {q : SeqId}

theorem Config.Valid.seqToStream_lt (h : f.Valid) (hq : f.ValidSeq q) :
    f.seqToStream q < f.nStream := by
  have hpos := h.pos
  unfold Config.ValidSeq Config.seqToStreamSize at hq
  unfold Config.seqToStream
  split at hq <;> rename_i hs
  · rwa [if_pos hs]
  · rwa [if_neg hs]

/-- With several streams every valid sequence has its own. -/
theorem Config.seqToStream_inj (h : 1 < f.nStream) {r : SeqId}
    (he : f.seqToStream q = f.seqToStream r) : q = r := by
  simp only [Config.seqToStream, if_pos h] at he
  exact Fin.ext he

/-- State of the cache between two operations. -/
structure Cache.Inv (c : Cache) : Prop where
  cfg : c.cfg.Valid
  ok : c.ok = true
  cells : ∀ t < c.cfg.nStream, (c.cells t).Good c.cfg.kvSize (c.cfg.Home t)
  heads : ∀ t < c.cfg.nStream, c.heads t ≤ c.cfg.kvSize

/-- Shape of an ubatch that comes from an accepted batch. With several streams it has one
block of tokens per sequence, in the order of the unique sequences. -/
structure Ubatch.Shape (f : Config) (u : Ubatch) : Prop where
  tokens : 0 < u.nTokens
  unq : u.seqIdUnq ≠ []
  nodup : u.seqIdUnq.Nodup
  valid : ∀ i < u.nTokens, ∀ q ∈ u.seqId i, f.ValidSeq q
  blocks : 1 < f.nStream → u.nTokens % u.seqIdUnq.length = 0
  block : 1 < f.nStream → ∀ s (h : s < u.seqIdUnq.length), ∀ k < u.nTokens / u.seqIdUnq.length,
    u.seqId (s * (u.nTokens / u.seqIdUnq.length) + k) = [u.seqIdUnq[s]]

theorem Ubatch.Shape.block_pos {u : Ubatch} (hu : u.Shape f) (hs : 1 < f.nStream) :
    0 < u.nTokens / u.seqIdUnq.length :=
  Nat.div_pos (Nat.le_of_dvd hu.tokens (Nat.dvd_of_mod_eq_zero (hu.blocks hs)))
    (length_pos_of_ne_nil hu.unq)

/-- With several streams every unique sequence has a token, otherwise all sequences are valid. -/
theorem Ubatch.Shape.validUnq {u : Ubatch} (hu : u.Shape f) : ∀ q ∈ u.seqIdUnq, f.ValidSeq q := by
  intro q hq
  by_cases hs : 1 < f.nStream
  · obtain ⟨s, hs', rfl⟩ := getElem_of_mem hq
    have hpos := hu.block_pos hs
    have hblock := hu.block hs s hs' 0 hpos
    have hlt : s * (u.nTokens / u.seqIdUnq.length) < u.nTokens := by
      calc s * (u.nTokens / u.seqIdUnq.length)
          < u.seqIdUnq.length * (u.nTokens / u.seqIdUnq.length) :=
            Nat.mul_lt_mul_of_pos_right hs' hpos
        _ = u.nTokens := Nat.mul_div_cancel' (Nat.dvd_of_mod_eq_zero (hu.blocks hs))
    refine hu.valid _ hlt _ ?_
    rw [Nat.add_zero] at hblock
    rw [hblock]
    exact mem_singleton_self _
  · rw [Config.ValidSeq, Config.seqToStreamSize, if_neg hs]
    exact q.isLt

/-- The tokens of an ubatch have positions and distinct sequences. -/
def Ubatch.Sound (u : Ubatch) : Prop :=
  ∀ i < u.nTokens, 0 ≤ u.pos i ∧ u.seqId i ≠ [] ∧ (u.seqId i).Nodup

structure SlotInfo.Fits (c : Cache) (u : Ubatch) (si : SlotInfo) : Prop where
  len : si.idxs.length = si.strm.length
  entry : 0 < si.strm.length
  nodup : si.strm.Nodup
  stream : ∀ s < si.strm.length, si.strmAt s < c.cfg.nStream
  size : ∀ s < si.strm.length, (si.idxsAt s).length = si.size
  pos : 0 < si.size
  idxsNodup : ∀ s < si.strm.length, (si.idxsAt s).Nodup
  usable : ∀ s < si.strm.length, ∀ i ∈ si.idxsAt s, i < c.cfg.kvSize ∧
    (c.cells (si.strmAt s)).canUse c.cfg.nSwa c.cfg.swaType i = true
  tokens : u.nTokens = si.strm.length * si.size
  home : ∀ s < si.strm.length, ∀ k < si.size, ∀ q ∈ u.seqId (s * si.size + k),
    c.cfg.Home (si.strmAt s) q

namespace Cache

/-- The loop of `find_slot` over the streams of the ubatch. -/
theorem findSlotLoop_spec {c : Cache} (hc : c.Inv) (u : Ubatch) {nTokens : Nat}
    (ht : 0 < nTokens) : ∀ (qs : List SeqId) (s : Nat) (res : SlotInfo),
    (∀ q ∈ qs, c.cfg.seqToStream q < c.cfg.nStream) →
    (∀ k (h : k < qs.length), 1 < c.cfg.nStream → u.seqId ((s + k) * nTokens) = [qs[k]]) →
    (qs = [] → res.s0 ≤ res.s1) → (res.s0 ≤ res.s1 ∨ res.s0 = maxSeq ∧ c.cfg.nStream ≤ maxSeq) →
    (findSlotLoop c u false nTokens qs s res).2 = true ∧
      ∀ si, (findSlotLoop c u false nTokens qs s res).1 = some si →
        si.strm = res.strm ++ qs.map c.cfg.seqToStream ∧
        ∃ L : List (List Nat), si.idxs = res.idxs ++ L ∧ Forall₂ (fun q l =>
          l.length = nTokens ∧ l.Nodup ∧ ∀ i ∈ l, i < c.cfg.kvSize ∧
            (c.cells (c.cfg.seqToStream q)).canUse c.cfg.nSwa c.cfg.swaType i = true) qs L
  | [], s, res, _, _, h0, _ => by
    refine ⟨by simpa [findSlotLoop] using h0 rfl, fun si he => ?_⟩
    simp only [findSlotLoop, Option.some.injEq] at he
    subst he
    exact ⟨by simp, [], by simp, List.Forall₂.nil⟩
  | q :: qs, s, res, hq, hblock, _, h1 => by
    have hqs := hq q mem_cons_self
    have hpre : (decide (c.cfg.nStream ≤ 1) ||
        (u.seqId (s * nTokens)).map Fin.val == [q.val]) = true := by
      by_cases h : 1 < c.cfg.nStream
      · have := hblock 0 (by simp) h
        simp only [Nat.add_zero, getElem_cons_zero] at this
        simp [this]
      · simp [Nat.le_of_not_lt h]
    obtain ⟨hok, hfound⟩ := findSlotStream_spec (f := c.cfg) (hc.cells _ hqs) (hc.heads _ hqs) ht
    simp only [findSlotLoop, hpre, Bool.true_and]
    cases hf : findSlotStream c.cfg (c.cells (c.cfg.seqToStream q))
        (c.heads (c.cfg.seqToStream q)) nTokens false with
    | mk found ok =>
      rw [hf] at hok hfound
      simp only at hok
      subst hok
      cases found with
      | none => simp
      | some idxs =>
        obtain ⟨hrec, hsi⟩ := findSlotLoop_spec hc u ht qs (s + 1)
          { s0 := min res.s0 (c.cfg.seqToStream q), s1 := max res.s1 (c.cfg.seqToStream q)
            strm := res.strm ++ [c.cfg.seqToStream q], idxs := res.idxs ++ [idxs] }
          (fun r hr => hq r (mem_cons_of_mem q hr))
          (fun k hk hs => by
            have := hblock (k + 1) (by simpa using hk) hs
            rw [getElem_cons_succ] at this
            rw [← this, Nat.add_assoc, Nat.add_comm 1 k])
          (fun _ => by simp only; omega) (.inl (by simp only; omega))
        refine ⟨by simpa using hrec, fun si he => ?_⟩
        obtain ⟨hstrm, L, hL, hall⟩ := hsi si he
        refine ⟨by simpa using hstrm, idxs :: L, by simpa using hL, ?_⟩
        exact List.Forall₂.cons (hfound idxs rfl) hall

variable {c : Cache} {u : Ubatch}

theorem Inv.nStream_le (h : c.Inv) : c.cfg.nStream ≤ maxSeq := by
  have := h.cfg.seqMax
  rcases h.cfg.stream with hs | hs
  · rw [hs]
    decide
  · omega

/-- A slot with `n` usable cells in the stream of each of the sequences `qs` fits an ubatch with
`n` tokens for each of these streams. -/
theorem fits_of_entries {qs : List SeqId} {n : Nat} {si : SlotInfo} (hqs : qs ≠ []) (hn : 0 < n)
    (htokens : u.nTokens = qs.length * n) (hnodup : (qs.map c.cfg.seqToStream).Nodup)
    (hlt : ∀ q ∈ qs, c.cfg.seqToStream q < c.cfg.nStream)
    (hhome : ∀ s (hs : s < qs.length), ∀ k < n, ∀ q ∈ u.seqId (s * n + k),
      c.cfg.Home (c.cfg.seqToStream qs[s]) q)
    (hstrm : si.strm = qs.map c.cfg.seqToStream)
    (hall : Forall₂ (fun q l => l.length = n ∧ l.Nodup ∧ ∀ i ∈ l, i < c.cfg.kvSize ∧
      (c.cells (c.cfg.seqToStream q)).canUse c.cfg.nSwa c.cfg.swaType i = true) qs si.idxs) :
    si.Fits c u := by
  have hlen : si.strm.length = qs.length := by rw [hstrm, length_map]
  have hpos := length_pos_iff.mpr hqs
  have hentry : ∀ s (hs : s < qs.length), si.strmAt s = c.cfg.seqToStream qs[s] ∧
      (si.idxsAt s).length = n ∧ (si.idxsAt s).Nodup ∧ ∀ i ∈ si.idxsAt s, i < c.cfg.kvSize ∧
        (c.cells (c.cfg.seqToStream qs[s])).canUse c.cfg.nSwa c.cfg.swaType i = true := by
    intro s hs
    obtain ⟨hl, hget⟩ := forall₂_iff_get.mp hall
    constructor
    · rw [SlotInfo.strmAt, hstrm, getD_eq_getElem _ _ (by rwa [length_map]), getElem_map]
    · rw [SlotInfo.idxsAt, getD_eq_getElem _ _ (by omega)]
      exact hget s hs (by omega)
  have hsize : si.size = n := by
    rw [← (hentry 0 hpos).2.1, SlotInfo.size, SlotInfo.idxsAt]
    cases si.idxs <;> rfl
  refine ⟨by rw [hlen, hall.length_eq], by omega, hstrm ▸ hnodup, ?_, ?_, by omega, ?_, ?_,
    by rw [hlen, hsize, htokens], ?_⟩ <;> rw [hlen] <;> intro s hs <;>
    obtain ⟨hat, hl, hnd, husable⟩ := hentry s hs
  · rw [hat]
    exact hlt _ (getElem_mem hs)
  · rw [hl, hsize]
  · exact hnd
  · rwa [hat]
  · rw [hat, hsize]
    exact hhome s hs

/-- `find_slot` meets its assertions, and the slot it returns fits. -/
theorem Inv.findSlot (h : c.Inv) (hu : u.Shape c.cfg) : (c.findSlot u false).2 = true ∧
    ∀ si, (c.findSlot u false).1 = some si → si.Fits c u := by
  by_cases hs : 1 < c.cfg.nStream
  · have hmod := hu.blocks hs
    have hper := hu.block_pos hs
    obtain ⟨hok, hsi⟩ := findSlotLoop_spec h u hper u.seqIdUnq 0
      { s0 := maxSeq, s1 := 0, strm := [], idxs := [] }
      (fun q hq => h.cfg.seqToStream_lt (hu.validUnq q hq))
      (fun k hk _ => by simpa using hu.block hs k hk 0 hper)
      (fun he => absurd he hu.unq) (.inr ⟨rfl, h.nStream_le⟩)
    simp only [Cache.findSlot, if_pos hs]
    refine ⟨by simp [hmod, hok], fun si he => ?_⟩
    obtain ⟨hstrm, L, hL, hall⟩ := hsi si he
    rw [nil_append] at hstrm hL
    refine fits_of_entries hu.unq hper (Nat.mul_div_cancel' (Nat.dvd_of_mod_eq_zero hmod)).symm
      (hu.nodup.map fun q r he => Config.seqToStream_inj hs he)
      (fun q hq => h.cfg.seqToStream_lt (hu.validUnq q hq)) (fun s hs' k hk q hq => ?_) hstrm
      (hL ▸ hall)
    rw [hu.block hs s hs' k hk, mem_singleton] at hq
    subst hq
    exact ⟨hu.validUnq _ (getElem_mem hs'), rfl⟩
  · obtain ⟨q, qs, hq⟩ := exists_cons_of_ne_nil hu.unq
    have hstream : ∀ r, c.cfg.seqToStream r = 0 := by
      intro r
      rw [Config.seqToStream, if_neg hs]
    have hlt : ∀ r ∈ [q], c.cfg.seqToStream r < c.cfg.nStream := fun r _ => by
      rw [hstream]
      exact h.cfg.pos
    obtain ⟨hok, hsi⟩ := findSlotLoop_spec h u hu.tokens [q] 0
      { s0 := maxSeq, s1 := 0, strm := [], idxs := [] } hlt (fun _ _ h' => absurd h' hs)
      (by simp) (.inr ⟨rfl, h.nStream_le⟩)
    simp only [Cache.findSlot, if_neg hs, hq, take_succ_cons, take_zero]
    refine ⟨hok, fun si he => ?_⟩
    obtain ⟨hstrm, L, hL, hall⟩ := hsi si he
    rw [nil_append] at hstrm hL
    refine fits_of_entries (cons_ne_nil q []) hu.tokens (Nat.one_mul _).symm (nodup_singleton _)
      hlt (fun s hs' k hk r hr => ?_) hstrm (hL ▸ hall)
    obtain rfl : s = 0 := Nat.lt_one_iff.mp hs'
    rw [Nat.zero_mul, Nat.zero_add] at hr
    exact ⟨hu.valid k hk r hr, by rw [hstream, hstream]⟩

end Cache

end Llama.Kv
