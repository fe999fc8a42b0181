import Llama.Decode.Rollback

/-!
# The loop over the ubatches

The slots come from a dry run on the attention cache, and the loop finds the records as the dry
run saw them. So every ubatch adds its tokens, up to the one whose computation fails.
-/

namespace Llama.Decode

open Batch List

variable {E : Type} {b : Allocr E} {f : Kv.Config} {m m1 : Memory}

/-- The cut has a token of the sequence at this position. -/
def HasToken (b : Allocr E) (c : Cut) (q : Kv.SeqId) (p : Int) : Prop :=
  ∃ i ∈ c.idxs, q.val ∈ b.seqSet i ∧ b.pos i = p

theorem hasToken_iff {c : Cut} (hb : Seatable f b) (hf : f.Valid)
    (hlt : ∀ i ∈ c.idxs, i < b.nTokens)
    (q : Kv.SeqId) (p : Int) : (∃ k < (kvUbatch (b.ubatch c)).nTokens,
      q ∈ (kvUbatch (b.ubatch c)).seqId k ∧ (kvUbatch (b.ubatch c)).pos k = p) ↔
        HasToken b c q p := by
  have hseq : ∀ k < c.idxs.length, (q ∈ (kvUbatch (b.ubatch c)).seqId k ↔
      q.val ∈ b.seqSet (tokenAt c k)) := fun k hk => by
    rw [← mem_seqSet_iff hb hf (hlt _ (tokenAt_mem hk)), ← ubatch_seqId hk]
    rfl
  constructor
  · rintro ⟨k, hk, hq, rfl⟩
    exact ⟨tokenAt c k, tokenAt_mem hk, (hseq k hk).mp hq, (ubatch_pos hb hk).symm⟩
  · rintro ⟨i, hi, hq, rfl⟩
    obtain ⟨k, hk, rfl⟩ := exists_tokenAt hi
    exact ⟨k, hk, (hseq k hk).mpr hq, ubatch_pos hb hk⟩

/-- A dry run without a failing assertion tries only ubatches that can be searched for. -/
theorem tried_of_not_aborts (hf : f.Valid) (hswa : f.swaType = .none) :
    ∀ (us : List Kv.Ubatch) {d : Kv.Cache}, d.Plain f →
    (∀ u ∈ us, (1 < f.nStream → u.nTokens % u.seqIdUnq.length = 0) → Kv.Cache.Fed f u) →
    prepareAborts d us = false → Kv.Cache.Tried f d us
  | [], _, _, _, _ => trivial
  | u :: us, d, hd, hus, ha => by
    rw [prepareAborts, Bool.or_eq_false_iff] at ha
    have hu : Kv.Cache.Fed f u := by
      refine hus u mem_cons_self fun hst => ?_
      have h1 := ha.1
      rw [← hd.cfg] at hst
      simp only [slotAborts, hst, decide_true, Bool.true_and, Bool.or_eq_false_iff] at h1
      simpa using h1.1
    refine ⟨hu, ?_⟩
    have h2 := ha.2
    cases hsi : d.findSlot u false with
    | mk r ok =>
      cases r with
      | none => trivial
      | some si =>
        rw [hsi] at h2
        have hsi' : (d.findSlot u false).1 = some si := by rw [hsi]
        exact tried_of_not_aborts hf hswa us (hd.place hf hswa hu hsi' ok).1
          (fun v hv => hus v (mem_cons_of_mem u hv)) h2

/-- The blocks of the ubatches for which slots were found begin as `find_slot` asserts. -/
theorem firstTokens_of_slots (hf : f.Valid) (hswa : f.swaType = .none) :
    ∀ (us : List Kv.Ubatch) {d : Kv.Cache} {sis : List Kv.SlotInfo}, d.Plain f →
    prepareAborts d us = false → Kv.Cache.FoundSlots f d us sis → ∀ u ∈ us, FirstTokens f u
  | [], _, _, _, _, _ => by simp
  | u :: us, d, _, hd, ha, hs => by
    rw [prepareAborts, Bool.or_eq_false_iff] at ha
    obtain ⟨si, rest, -, hu, hsi, hrest⟩ := hs
    have h2 := ha.2
    intro v hv
    rcases mem_cons.mp hv with rfl | hv
    · exact hd.cfg ▸ firstTokens_of_slot ha.1 hsi
    · cases hr : d.findSlot u false with
      | mk r ok =>
        rw [hr] at h2 hsi hrest
        obtain rfl : r = some si := hsi
        have hsi' : (d.findSlot u false).1 = some si := by rw [hr]
        exact firstTokens_of_slots hf hswa us (hd.place hf hswa hu hsi' ok).1 h2 hrest v hv

/-- The memory before some cuts for which slots were found. -/
structure Ready (f : Kv.Config) (b : Allocr E) (m : Memory) (sis : List Kv.SlotInfo)
    (cuts : List Cut) : Prop where
  plain : m.attn.Plain f
  slots : ∃ d : Kv.Cache, d.Plain f ∧ Kv.Cache.Agree d m.attn ∧
    Kv.Cache.FoundSlots f d (cuts.map fun c => kvUbatch (b.ubatch c)) sis
  lt : ∀ c ∈ cuts, ∀ i ∈ c.idxs, i < b.nTokens
  homed : ∀ c ∈ cuts, Homed f (kvUbatch (b.ubatch c))
  range : ∀ r, m.recr = some r → ∀ c ∈ cuts, InRange r.size (b.ubatch c) ∧ ∃ n, Blocks b c n

/-- What applying the ubatch of a cut does. -/
structure Applied (b : Allocr E) (m : Memory) (c : Cut) (m1 : Memory) : Prop where
  contains : ∀ q p, m1.attn.Contains q p ↔ m.attn.Contains q p ∨ HasToken b c q p
  isSome : m1.recr.isSome = m.recr.isSome
  ends : ∀ i ∈ c.idxs, ∀ s ∈ b.seqSet i, ∃ l ∈ c.idxs, i ≤ l ∧ b.seqSet l ⊆ b.seqSet i ∧
    m1.EndsAt s (b.pos l)

theorem Ready.apply {si : Kv.SlotInfo} {sis : List Kv.SlotInfo} {c : Cut} {cuts : List Cut}
    (hf : f.Valid) (hswa : f.swaType = .none) (hb : Seatable f b)
    (h : Ready f b m (si :: sis) (c :: cuts)) (ha : m.applyUbatch si (b.ubatch c) = some m1) :
    Ready f b m1 sis cuts ∧ Applied b m c m1 := by
  obtain ⟨d, hd, hag, si', rest, hsis, hfed, hsi, hrest⟩ := h.slots
  obtain ⟨rfl, rfl⟩ := List.cons.inj hsis
  have hlt := h.lt c mem_cons_self
  -- the attention cache
  obtain ⟨hv, hstrm, hsize⟩ := hd.vacant hf hswa hfed.toFit hsi
  obtain ⟨hplain, hw⟩ := hd.place hf hswa hfed hsi (d.findSlot (kvUbatch (b.ubatch c)) false).2
  have hv' := hag.vacant hv
  have hw' := Kv.Cache.applyUbatch_written hv' (kvUbatch (b.ubatch c))
  have hag' := hag.written hv hw hw'
  have hattn : (m.attn.applyUbatch si (kvUbatch (b.ubatch c))).Plain f :=
    ⟨h.plain.toSized.applyUbatch (hd.toSized.findSlot_inside hf hfed.toFit hsi) _,
      hag'.tidy hplain.tidy⟩
  have hcontains := hw'.contains hv'
    (h.plain.cfg ▸ (h.homed c mem_cons_self).settled hfed.toFit hstrm hsize)
  simp only [hasToken_iff hb hf hlt] at hcontains
  -- the recurrent part
  obtain ⟨hm1, hrec⟩ : m1.attn = m.attn.applyUbatch si (kvUbatch (b.ubatch c)) ∧
      ((m.recr = none ∧ m1.recr = none) ∨ ∃ r flag r1, m.recr = some r ∧ m1.recr = some r1 ∧
        r.findSlot (b.ubatch c) = some (flag, r1)) := by
    rw [Memory.applyUbatch] at ha
    cases hr : m.recr with
    | none =>
      rw [hr] at ha
      cases ha
      exact ⟨rfl, .inl ⟨rfl, rfl⟩⟩
    | some r =>
      rw [hr] at ha
      obtain ⟨⟨flag, r1⟩, hfind, rfl⟩ := Option.map_eq_some_iff.mp ha
      exact ⟨rfl, .inr ⟨r, flag, r1, rfl, rfl, hfind⟩⟩
  have hready : Ready f b m1 sis cuts := by
    refine ⟨hm1 ▸ hattn, ⟨_, hplain, hm1 ▸ hag', hrest⟩,
      fun c' hc' => h.lt c' (mem_cons_of_mem c hc'),
      fun c' hc' => h.homed c' (mem_cons_of_mem c hc'), fun r1 hr1 c' hc' => ?_⟩
    rcases hrec with ⟨-, hnone⟩ | ⟨r, flag, r1', hr, hr1', hfind⟩
    · rw [hnone] at hr1
      cases hr1
    · obtain rfl : r1' = r1 := Option.some.inj (hr1'.symm.trans hr1)
      obtain ⟨hin, n, hblk⟩ := h.range r hr c mem_cons_self
      have hsz := ((findSlot_sits hfind).2 hin (setsOf_disjoint hb hblk)).1
      exact hsz ▸ h.range r hr c' (mem_cons_of_mem c hc')
  refine ⟨hready, fun q p => hm1 ▸ hcontains q p, ?_, fun i hi s hs => ?_⟩
  · rcases hrec with ⟨h1, h2⟩ | ⟨r, flag, r1, h1, h2, -⟩
    · rw [h1, h2]
    · rw [h1, h2]
      rfl
  · rcases hrec with ⟨-, hnone⟩ | ⟨r, flag, r1, hr, hr1, hfind⟩
    · exact ⟨i, hi, le_rfl, Finset.Subset.refl _, fun r hr => by rw [hnone] at hr; cases hr⟩
    · obtain ⟨hin, n, hblk⟩ := h.range r hr c mem_cons_self
      obtain ⟨l, hl, hle, hsub, hsit⟩ := sits_ubatch hb hblk hin hfind hi hs
      refine ⟨l, hl, hle, hsub, fun r' hr' => ?_⟩
      obtain rfl : r1 = r' := Option.some.inj (hr1.symm.trans hr')
      exact hsit

theorem Memory.seqRm_plain (h : m.attn.Plain f) (id p0 p1 : Int) :
    (m.seqRm id p0 p1).2.attn.Plain f := by
  have hrm : ∀ q, (m.attn.seqRm q p0 p1).Plain f := fun q =>
    ⟨h.toSized.seqRm q p0 p1, h.tidy.seqRm q p0 p1⟩
  simp only [Memory.seqRm]
  split
  · exact hrm _
  · split
    · exact h
    · exact hrm _

theorem Memory.rollback_plain (h : m.attn.Plain f) (u : UBatch E) :
    (m.rollback u).attn.Plain f := by
  rw [Memory.rollback]
  generalize List.range Kv.maxSeq = ss
  induction ss generalizing m with
  | nil => exact h
  | cons s ss ih =>
    rw [foldl_cons]
    split
    · exact ih h
    · exact ih (seqRm_plain h _ _ _)

/-- The loop returns at the first computation that fails. The memory then has the tokens of all
cuts before, and those of the failed cut are removed again. -/
theorem decodeLoop_spec (hf : f.Valid) (hswa : f.swaType = .none) (hb : Seatable f b)
    (compute : Nat → Status) : ∀ (cuts : List Cut) (sis : List Kv.SlotInfo) (k : Nat) {m : Memory}
    {o : Outcome}, Ready f b m sis cuts →
    decodeLoop compute k (sis.zip (cuts.map b.ubatch)) m = some o →
    o.memory.attn.Plain f ∧ ∀ k' st m', o = .failed k' st m' →
      ∃ pre c post m0 m1, cuts = pre ++ c :: post ∧ k' = k + pre.length ∧
        (∀ q p, m0.attn.Contains q p ↔ m.attn.Contains q p ∨ ∃ c' ∈ pre, HasToken b c' q p) ∧
        m0.recr.isSome = m.recr.isSome ∧ Applied b m0 c m1 ∧ m' = m1.rollback (b.ubatch c)
  | [], sis, k, m, o, h, hd => by
    rw [map_nil, zip_nil_right, decodeLoop] at hd
    cases hd
    refine ⟨h.plain, fun k' st m' he => ?_⟩
    cases he
  | c :: cuts, sis, k, m, o, h, hd => by
    obtain ⟨d, -, -, si, rest, rfl, -⟩ := h.slots
    rw [map_cons, zip_cons_cons, decodeLoop] at hd
    cases ha : m.applyUbatch si (b.ubatch c) with
    | none =>
      rw [ha] at hd
      cases hd
    | some m1 =>
      obtain ⟨hready, happ⟩ := h.apply hf hswa hb ha
      simp only [ha] at hd
      have hfail : ∀ st, some (Outcome.failed k st (m1.rollback (b.ubatch c))) = some o →
          o.memory.attn.Plain f ∧ ∀ k' st m', o = .failed k' st m' →
          ∃ pre c' post m0 m1, c :: cuts = pre ++ c' :: post ∧ k' = k + pre.length ∧
            (∀ q p, m0.attn.Contains q p ↔ m.attn.Contains q p ∨ ∃ c' ∈ pre, HasToken b c' q p) ∧
            m0.recr.isSome = m.recr.isSome ∧ Applied b m0 c' m1 ∧
              m' = m1.rollback (b.ubatch c') := by
        intro st ho
        cases ho
        refine ⟨m1.rollback_plain hready.plain _, fun k' st' m' he => ?_⟩
        cases he
        exact ⟨[], c, cuts, m, m1, rfl, rfl, by simp, rfl, happ, rfl⟩
      cases hst : compute k with
      | success =>
        simp only [hst] at hd
        obtain ⟨hplain, hrest⟩ := decodeLoop_spec hf hswa hb compute cuts rest (k + 1) hready hd
        refine ⟨hplain, fun k' st m' he => ?_⟩
        obtain ⟨pre, c', post, m0, m2, hcuts, hk, hcont, hsome, happ', hm'⟩ := hrest k' st m' he
        refine ⟨c :: pre, c', post, m0, m2, by rw [hcuts]; rfl, ?_, fun q p => ?_,
          hsome.trans happ.isSome, happ', hm'⟩
        · rw [hk, length_cons]
          omega
        · rw [hcont, happ.contains, or_assoc, exists_mem_cons_iff]
      | aborted =>
        simp only [hst] at hd
        exact hfail _ hd
      | allocFailed =>
        simp only [hst] at hd
        exact hfail _ hd
      | failed =>
        simp only [hst] at hd
        exact hfail _ hd

end Llama.Decode
