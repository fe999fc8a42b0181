import Llama.Kv.Prepare
import Llama.Kv.State
import Llama.Kv.Shift

/-!
# `find_slot` finds a slot exactly when there is one

The search for single cells is in `Llama.Kv.Slot`. The continuous search tests windows: from the
head to the last window that fits, then from the start up to the head. A window that fails is left
behind its first unusable cell, so every window that is skipped contains that cell.
-/

namespace Llama.Kv

open List Function

variable {f : Config} {x : Cells} {head nTokens : Nat}

/-! ## Windows -/

/-- The `n` cells from `s` on are inside the stream and usable. -/
def Cells.Window (f : Config) (x : Cells) (n s : Nat) : Prop :=
  s + n ≤ x.size ∧ ∀ i < n, x.canUse f.nSwa f.swaType (s + i) = true

/-- A test of `n` cells in a row: all usable, or stopped behind the first unusable one. -/
theorem testCells_cont : ∀ (n : Nat) (st : Search),
    (∀ i < n, x.canUse f.nSwa f.swaType (st.headCur + i) = true) ∧
        (testCells f x true n st).idxs = st.idxs ++ range' st.headCur n ∨
      ∃ m < n, x.canUse f.nSwa f.swaType (st.headCur + m) = false ∧
        (testCells f x true n st).idxs = st.idxs ++ range' st.headCur m ∧
        (testCells f x true n st).headCur = st.headCur + (m + 1) ∧
        (testCells f x true n st).nTested = st.nTested + (m + 1)
  | 0, st => .inl ⟨fun i hi => absurd hi (Nat.not_lt_zero i), by simp [testCells]⟩
  | n + 1, st => by
    by_cases hu : x.canUse f.nSwa f.swaType st.headCur = true
    · simp only [testCells, hu, if_true]
      rcases testCells_cont n { headCur := st.headCur + 1, nTested := st.nTested + 1
                                idxs := st.idxs ++ [st.headCur]
                                ok := st.ok && x.canUsePre st.headCur } with
        ⟨hall, hidxs⟩ | ⟨m, hm, hbad, hidxs, hhead, htested⟩
      · refine .inl ⟨fun i hi => ?_, ?_⟩
        · cases i with
          | zero => exact hu
          | succ i =>
            have := hall i (by omega)
            rwa [Nat.add_right_comm, Nat.add_assoc] at this
        · rw [hidxs, append_assoc, range'_succ]
          rfl
      · refine .inr ⟨m + 1, by omega, ?_, ?_, ?_, ?_⟩
        · rwa [Nat.add_right_comm, Nat.add_assoc] at hbad
        · rw [hidxs, append_assoc, range'_succ]
          rfl
        · rw [hhead]
          simp only
          omega
        · rw [htested]
          simp only
          omega
    · refine .inr ⟨0, by omega, by simpa using hu, ?_, ?_, ?_⟩ <;> simp [testCells, hu]

/-- State of the continuous search: which windows are known to fail. -/
structure Search.Passed (f : Config) (x : Cells) (head nTokens : Nat) (st : Search) : Prop where
  idxs : st.idxs = []
  phase : (st.headCur = head + st.nTested ∧ st.headCur ≤ x.size ∧
      ∀ s, head ≤ s → s < st.headCur → ¬ x.Window f nTokens s) ∨
    (st.headCur + (x.size - head) = st.nTested ∧ st.headCur ≤ head ∧
      ∀ s, head ≤ s ∨ s < st.headCur → ¬ x.Window f nTokens s) ∨
    (st.headCur = 0 ∧ x.size ≤ st.nTested ∧ ∀ s, ¬ x.Window f nTokens s)

/-- Turns that the continuous search may still take. -/
def Search.windows (x : Cells) (nTokens : Nat) (st : Search) : Nat :=
  2 * (x.size - st.nTested) + if x.size < st.headCur + nTokens then 1 else 0

/-- What a continuous search leaves: a window, or the certainty that there is none. -/
structure WindowResult (f : Config) (x : Cells) (nTokens : Nat) (r : Option (List Nat)) :
    Prop where
  /-- A slot is a window. -/
  found : ∀ idxs, r = some idxs → ∃ s, x.Window f nTokens s ∧ idxs = range' s nTokens
  /-- Without a slot there is no window. -/
  failed : r = none → ∀ s, ¬ x.Window f nTokens s

variable {s : Nat} {u : Ubatch}

/-- A window that starts before an unusable cell and reaches it. -/
theorem Cells.not_window {j : Nat} (hj : x.canUse f.nSwa f.swaType j = false) (hs : s ≤ j)
    (hn : j < s + nTokens) : ¬ x.Window f nTokens s := by
  intro hw
  have := hw.2 (j - s) (by omega)
  rw [Nat.add_sub_cancel' hs, hj] at this
  cases this

section

variable (hh : head ≤ x.size) (ht : 0 < nTokens) (hsz : nTokens ≤ x.size)
include hh ht hsz

theorem searchLoop_cont :
    ∀ (fuel : Nat) (st : Search), st.Passed f x head nTokens → st.windows x nTokens < fuel →
      searchHalts f x nTokens nTokens true fuel st = true ∧
        WindowResult f x nTokens (searchLoop f x nTokens nTokens true fuel st).1 := by
  intro fuel
  induction fuel with
  | zero => intro st _ hf; omega
  | succ fuel ih =>
    intro st hst hf
    rw [searchLoop, searchHalts]
    by_cases hw : x.size < st.headCur + nTokens
    · -- no window from here on fits
      rw [if_pos hw, if_pos hw]
      have hfit : ∀ s, st.headCur ≤ s → ¬ x.Window f nTokens s := by
        intro s hs hwin
        have := hwin.1
        omega
      simp only [Search.windows, hw, if_true] at hf
      have hzero : ¬ x.size < 0 + nTokens := by omega
      apply ih
      · refine ⟨hst.idxs, ?_⟩
        rcases hst.phase with ⟨h1, h2, h3⟩ | ⟨h1, h2, h3⟩ | ⟨h1, h2, h3⟩
        · refine .inr (.inl ⟨by simp only; omega, Nat.zero_le _, fun s hs => ?_⟩)
          have hle : head ≤ s := by simpa using hs
          by_cases hlt : s < st.headCur
          · exact h3 s hle hlt
          · exact hfit s (by omega)
        · refine .inr (.inr ⟨rfl, by simp only; omega, fun s => ?_⟩)
          by_cases hlt : s < st.headCur
          · exact h3 s (.inr hlt)
          · exact hfit s (by omega)
        · omega
      · simp only [Search.windows, hzero, if_false]
        rcases hst.phase with ⟨h1, h2, -⟩ | ⟨h1, h2, -⟩ | ⟨h1, h2, -⟩ <;> omega
    · rw [if_neg hw, if_neg hw]
      rcases testCells_cont (f := f) (x := x) nTokens st with
        ⟨hall, hidxs⟩ | ⟨m, hm, hbad, hidxs, hhead, htested⟩
      · -- the window at the head
        have hlen : (testCells f x true nTokens st).idxs.length = nTokens := by
          rw [hidxs, hst.idxs]
          simp
        rw [if_pos hlen, if_pos hlen]
        refine ⟨rfl, fun idxs he => ?_, by simp⟩
        obtain rfl := Option.some.inj he
        exact ⟨st.headCur, ⟨by omega, hall⟩, by rw [hidxs, hst.idxs]; rfl⟩
      · have hlen : ¬ (testCells f x true nTokens st).idxs.length = nTokens := by
          rw [hidxs, hst.idxs]
          simp
          omega
        rw [if_neg hlen, if_neg hlen]
        have hskip : ∀ s, st.headCur ≤ s → s < st.headCur + (m + 1) → ¬ x.Window f nTokens s :=
          fun s h1 h2 => Cells.not_window hbad (by omega) (by omega)
        simp only [if_true, hhead, htested]
        by_cases hend : x.size ≤ st.nTested + (m + 1)
        · rw [if_pos hend, if_pos hend]
          refine ⟨rfl, by simp, fun _ s hwin => ?_⟩
          have hin := hwin.1
          rcases hst.phase with ⟨h1, h2, h3⟩ | ⟨h1, h2, h3⟩ | ⟨-, -, h3⟩
          · by_cases hlt : s < st.headCur
            · exact h3 s (by omega) hlt hwin
            · exact hskip s (by omega) (by omega) hwin
          · by_cases hlt : s < st.headCur
            · exact h3 s (.inr hlt) hwin
            · by_cases hle : head ≤ s
              · exact h3 s (.inl hle) hwin
              · exact hskip s (by omega) (by omega) hwin
          · exact h3 s hwin
        · rw [if_neg hend, if_neg hend]
          apply ih
          · refine ⟨rfl, ?_⟩
            rcases hst.phase with ⟨h1, h2, h3⟩ | ⟨h1, h2, h3⟩ | ⟨-, h2, -⟩
            · refine .inl ⟨by simp only; omega, by simp only; omega, fun s hs hlt => ?_⟩
              by_cases hlt' : s < st.headCur
              · exact h3 s hs hlt'
              · exact hskip s (by omega) hlt
            · refine .inr (.inl ⟨by simp only; omega, by simp only; omega, fun s hs => ?_⟩)
              by_cases hlt' : head ≤ s ∨ s < st.headCur
              · exact h3 s hlt'
              · exact hskip s (by omega) (by simp only at hs; omega)
            · omega
          · simp only [Search.windows] at hf ⊢
            split <;> omega

/-- The continuous search of one stream. -/
theorem findSlotStream_cont : searchHalts f x nTokens nTokens true (2 * x.size + 2)
        { headCur := startHead x head nTokens, nTested := 0, idxs := [], ok := true } = true ∧
      WindowResult f x nTokens (findSlotStream f x head nTokens true).1 := by
  have hh' : startHead x head nTokens ≤ x.size := startHead_le hh
  rw [findSlotStream]
  simp only [Nat.not_lt.mpr hsz, if_false, if_true]
  apply searchLoop_cont hh' ht hsz
  · refine ⟨rfl, .inl ⟨rfl, hh', fun s h1 h2 => ?_⟩⟩
    simp only at h2
    omega
  · simp only [Search.windows]
    split <;> omega

end

/-! ## What the search of a stream promises -/

/-- A cell is usable: it is empty, or owned by exactly one sequence and masked by the sliding
window for the next position of that sequence. -/
def Cells.Usable (f : Config) (x : Cells) (i : Nat) : Prop :=
  (x.cell i).pos = -1 ∨ ∃ q, (x.cell i).seq = {q} ∧
    isMaskedSwa f.nSwa f.swaType (x.cell i).pos (x.seqPosMax q + 1) = true

theorem Cells.canUse_iff {i : Nat} : x.canUse f.nSwa f.swaType i = true ↔ x.Usable f i := by
  simp only [Cells.canUse, Cells.isEmpty, Cells.seqCount, Cells.Usable, Bool.or_eq_true,
    beq_iff_eq, Bool.and_eq_true]
  apply or_congr_right
  constructor
  · rintro ⟨hcard, hmask⟩
    obtain ⟨q, hq⟩ := Finset.card_eq_one.mp hcard
    rw [Cache.seqGet_singleton hq] at hmask
    exact ⟨q, hq, hmask⟩
  · rintro ⟨q, hq, hmask⟩
    rw [Cache.seqGet_singleton hq, hq]
    exact ⟨Finset.card_singleton q, hmask⟩

instance (f : Config) (x : Cells) : DecidablePred (x.Usable f) :=
  fun _ => decidable_of_iff _ Cells.canUse_iff

/-- The usable cells of a stream. -/
def Cells.usableCells (f : Config) (x : Cells) : Finset Nat :=
  (Finset.range x.size).filter (x.Usable f)

theorem Cells.card_usableCells (f : Config) (x : Cells) : (x.usableCells f).card =
    ((range x.size).filter (x.canUse f.nSwa f.swaType)).length := by
  have hlist : x.usableCells f =
      ((range x.size).filter (x.canUse f.nSwa f.swaType)).toFinset := by
    ext i
    simp [usableCells, canUse_iff]
  rw [hlist, toFinset_card_of_nodup (nodup_range.filter _)]

/-- `n` different usable cells of a stream. -/
def Cells.Choice (f : Config) (x : Cells) (n : Nat) (l : List Nat) : Prop :=
  l.length = n ∧ l.Nodup ∧ ∀ i ∈ l, i < x.size ∧ x.Usable f i

/-- `n` consecutive usable cells of a stream. -/
def Cells.Block (f : Config) (x : Cells) (n : Nat) (l : List Nat) : Prop :=
  ∃ s, l = range' s n ∧ ∀ i ∈ l, i < x.size ∧ x.Usable f i

theorem Cells.window_iff {n : Nat} (hn : 0 < n) :
    x.Window f n s ↔ ∀ i ∈ range' s n, i < x.size ∧ x.Usable f i := by
  simp only [Cells.Window, mem_range'_1, canUse_iff]
  constructor
  · rintro ⟨hfit, hall⟩ i ⟨h1, h2⟩
    refine ⟨by omega, ?_⟩
    have := hall (i - s) (by omega)
    rwa [Nat.add_sub_cancel' h1] at this
  · intro h
    refine ⟨?_, fun i hi => (h (s + i) ⟨by omega, by omega⟩).2⟩
    have := (h (s + n - 1) ⟨by omega, by omega⟩).1
    omega

/-- What the search of a stream may return, by the kind of search. -/
def Cells.Slot (f : Config) (x : Cells) (cont : Bool) (n : Nat) (l : List Nat) : Prop :=
  if cont then x.Block f n l else x.Choice f n l

theorem Cells.exists_choice_iff (f : Config) (x : Cells) (n : Nat) :
    (∃ l, x.Choice f n l) ↔ n ≤ (x.usableCells f).card := by
  constructor
  · rintro ⟨l, rfl, hnd, hall⟩
    rw [← toFinset_card_of_nodup hnd]
    apply Finset.card_le_card
    intro i hi
    have hin := hall i (mem_toFinset.mp hi)
    exact Finset.mem_filter.mpr ⟨Finset.mem_range.mpr hin.1, hin.2⟩
  · intro hn
    obtain ⟨s, hsub, hcard⟩ := Finset.exists_subset_card_eq hn
    refine ⟨s.toList, by rw [Finset.length_toList, hcard], s.nodup_toList, fun i hi => ?_⟩
    obtain ⟨h1, h2⟩ := Finset.mem_filter.mp (hsub (Finset.mem_toList.mp hi))
    exact ⟨Finset.mem_range.mp h1, h2⟩

/-- Soundness and completeness of the search of one stream. -/
theorem findSlotStream_slot (hh : head ≤ x.size) (ht : 0 < nTokens) (cont : Bool) :
    (∀ l, (findSlotStream f x head nTokens cont).1 = some l → x.Slot f cont nTokens l) ∧
      ((findSlotStream f x head nTokens cont).1.isSome ↔ ∃ l, x.Slot f cont nTokens l) := by
  cases cont with
  | false =>
    simp only [Cells.Slot, Bool.false_eq_true, if_false]
    refine ⟨fun l hl => ?_, ?_⟩
    · obtain ⟨hlen, hnd, hall⟩ := findSlotStream_found hh ht hl
      exact ⟨hlen, hnd, fun i hi => ⟨(hall i hi).1, Cells.canUse_iff.mp (hall i hi).2⟩⟩
    · rw [Cells.exists_choice_iff, Cells.card_usableCells]
      exact findSlotStream_isSome_iff hh ht
  | true =>
    simp only [Cells.Slot, if_true]
    by_cases hsz : x.size < nTokens
    · have hnone : (findSlotStream f x head nTokens true).1 = none := by
        simp [findSlotStream, hsz]
      rw [hnone]
      refine ⟨fun l hl => (by cases hl), ?_⟩
      simp only [Option.isSome_none, Bool.false_eq_true, false_iff]
      rintro ⟨l, s, rfl, hall⟩
      have := ((Cells.window_iff ht).mpr hall).1
      omega
    · obtain ⟨-, hres⟩ := findSlotStream_cont (f := f) hh ht (Nat.le_of_not_lt hsz)
      have hfound : ∀ l, (findSlotStream f x head nTokens true).1 = some l →
          x.Block f nTokens l := by
        intro l hl
        obtain ⟨s, hwin, rfl⟩ := hres.found l hl
        exact ⟨s, rfl, (Cells.window_iff ht).mp hwin⟩
      refine ⟨hfound, ?_⟩
      constructor
      · intro hsome
        obtain ⟨l, hl⟩ := Option.isSome_iff_exists.mp hsome
        exact ⟨l, hfound l hl⟩
      · rintro ⟨l, s, rfl, hall⟩
        by_contra hnone
        rw [Option.not_isSome_iff_eq_none] at hnone
        exact hres.failed hnone s ((Cells.window_iff ht).mpr hall)

/-- The search loop of one stream leaves within its bound. -/
theorem findSlotStream_halts (hh : head ≤ x.size) (ht : 0 < nTokens) (hsz : nTokens ≤ x.size)
    (cont : Bool) : searchHalts f x nTokens (if cont then nTokens else 1) cont (2 * x.size + 2)
      { headCur := startHead x head nTokens, nTested := 0, idxs := [], ok := true } = true := by
  cases cont with
  | false => exact (findSlotStream_result hh ht hsz).1
  | true => exact (findSlotStream_cont hh ht hsz).1

/-! ## `find_slot` -/

/-- Tokens that the ubatch has for each stream. -/
def Ubatch.perStream (f : Config) (u : Ubatch) : Nat :=
  if 1 < f.nStream then u.nTokens / u.seqIdUnq.length else u.nTokens

/-- The sequences whose streams the ubatch involves; a unified cache has one stream for all. -/
def Ubatch.slotSeqs (f : Config) (u : Ubatch) : List SeqId :=
  if 1 < f.nStream then u.seqIdUnq else u.seqIdUnq.take 1

/-- A cache whose streams have their size and whose heads lie inside or just behind. -/
structure Cache.Sized (f : Config) (c : Cache) : Prop where
  cfg : c.cfg = f
  size : ∀ t < f.nStream, (c.cells t).size = f.kvSize
  heads : ∀ t < f.nStream, c.heads t ≤ f.kvSize

/-- What the search needs of an ubatch: tokens, and different valid sequences among which they can
be divided. -/
structure Ubatch.Fit (f : Config) (u : Ubatch) : Prop where
  tokens : 0 < u.nTokens
  unq : u.seqIdUnq ≠ []
  nodup : u.seqIdUnq.Nodup
  valid : ∀ q ∈ u.seqIdUnq, f.ValidSeq q
  blocks : 1 < f.nStream → u.nTokens % u.seqIdUnq.length = 0

theorem Ubatch.Fit.perStream_pos (hu : u.Fit f) : 0 < u.perStream f := by
  unfold Ubatch.perStream
  split
  · rename_i hs
    have hlen : 0 < u.seqIdUnq.length := length_pos_of_ne_nil hu.unq
    have hdvd := Nat.dvd_of_mod_eq_zero (hu.blocks hs)
    exact Nat.div_pos (Nat.le_of_dvd hu.tokens hdvd) hlen
  · exact hu.tokens

theorem Ubatch.Fit.slotSeqs_stream (hu : u.Fit f) (hf : f.Valid) {q : SeqId}
    (hq : q ∈ u.slotSeqs f) : f.seqToStream q < f.nStream := by
  by_cases hs : 1 < f.nStream
  · rw [Ubatch.slotSeqs, if_pos hs] at hq
    exact hf.seqToStream_lt (hu.valid q hq)
  · rw [Config.seqToStream, if_neg hs]
    exact hf.pos

theorem Ubatch.Shape.fit (hu : u.Shape f) : u.Fit f :=
  ⟨hu.tokens, hu.unq, hu.nodup, hu.validUnq, hu.blocks⟩

namespace Cache

variable {c : Cache} {u : Ubatch}

/-- The search of the stream of one sequence. -/
def streamSlot (c : Cache) (cont : Bool) (n : Nat) (q : SeqId) : Option (List Nat) :=
  (findSlotStream c.cfg (c.cells (c.cfg.seqToStream q)) (c.heads (c.cfg.seqToStream q)) n cont).1

/-- The loop over the streams succeeds when each search does, and collects what they found. -/
theorem findSlotLoop_fst (cont : Bool) (n : Nat) : ∀ (qs : List SeqId) (s : Nat) (res : SlotInfo),
    ((findSlotLoop c u cont n qs s res).1.isSome ↔ ∀ q ∈ qs, (c.streamSlot cont n q).isSome) ∧
      ∀ si, (findSlotLoop c u cont n qs s res).1 = some si →
        si.strm = res.strm ++ qs.map c.cfg.seqToStream ∧
          ∃ L, si.idxs = res.idxs ++ L ∧ Forall₂ (fun q l => c.streamSlot cont n q = some l) qs L
  | [], s, res => by
    refine ⟨by simp [findSlotLoop], fun si hsi => ?_⟩
    simp only [findSlotLoop, Option.some.injEq] at hsi
    subst hsi
    exact ⟨by simp, [], by simp, List.Forall₂.nil⟩
  | q :: qs, s, res => by
    simp only [findSlotLoop]
    cases hf : findSlotStream c.cfg (c.cells (c.cfg.seqToStream q))
        (c.heads (c.cfg.seqToStream q)) n cont with
    | mk found ok =>
      have hq : c.streamSlot cont n q = found := by rw [streamSlot, hf]
      cases found with
      | none => simp [hq]
      | some idxs =>
        obtain ⟨hiff, hall⟩ := findSlotLoop_fst cont n qs (s + 1)
          { s0 := min res.s0 (c.cfg.seqToStream q), s1 := max res.s1 (c.cfg.seqToStream q)
            strm := res.strm ++ [c.cfg.seqToStream q], idxs := res.idxs ++ [idxs] }
        refine ⟨by simp [hiff, hq], fun si hsi => ?_⟩
        obtain ⟨hstrm, L, hL, hrest⟩ := hall si hsi
        exact ⟨by simpa using hstrm, idxs :: L, by simpa using hL, List.Forall₂.cons hq hrest⟩

theorem findSlot_fst (c : Cache) (u : Ubatch) (cont : Bool) : (c.findSlot u cont).1 =
    (findSlotLoop c u cont (u.perStream c.cfg) (u.slotSeqs c.cfg) 0
      { s0 := maxSeq, s1 := 0, strm := [], idxs := [] }).1 := by
  unfold findSlot Ubatch.perStream Ubatch.slotSeqs
  by_cases hs : 1 < c.cfg.nStream
  · simp only [if_pos hs]
  · simp only [if_neg hs]

/-- Every search loop of a call of `find_slot` leaves. -/
def SearchesHalt (c : Cache) (u : Ubatch) (cont : Bool) : Prop :=
  ∀ q ∈ u.slotSeqs c.cfg,
    let x := c.cells (c.cfg.seqToStream q)
    let n := u.perStream c.cfg
    n ≤ x.size → searchHalts c.cfg x n (if cont then n else 1) cont (2 * x.size + 2)
      { headCur := startHead x (c.heads (c.cfg.seqToStream q)) n, nTested := 0, idxs := []
        ok := true } = true

/-- `find_slot` returns a slot exactly when every involved stream has one, and what it returns is
one slot for each of them. -/
structure FindsSlots (c : Cache) (u : Ubatch) (cont : Bool) : Prop where
  complete : (c.findSlot u cont).1.isSome ↔ ∀ q ∈ u.slotSeqs c.cfg,
    ∃ l, (c.cells (c.cfg.seqToStream q)).Slot c.cfg cont (u.perStream c.cfg) l
  sound : ∀ si, (c.findSlot u cont).1 = some si →
    si.strm = (u.slotSeqs c.cfg).map c.cfg.seqToStream ∧
      Forall₂ (fun q l => (c.cells (c.cfg.seqToStream q)).Slot c.cfg cont (u.perStream c.cfg) l)
        (u.slotSeqs c.cfg) si.idxs

section

variable (h : c.Sized f) (hf : f.Valid) (hu : u.Fit c.cfg)
include h hf hu

theorem Sized.head_le {q : SeqId} (hq : q ∈ u.slotSeqs c.cfg) :
    c.heads (c.cfg.seqToStream q) ≤ (c.cells (c.cfg.seqToStream q)).size := by
  obtain rfl := h.cfg
  have ht := hu.slotSeqs_stream hf hq
  rw [h.size _ ht]
  exact h.heads _ ht

theorem Sized.findsSlots (cont : Bool) : c.FindsSlots u cont := by
  have hstream := fun q hq => h.head_le (q := q) hf hu hq
  obtain ⟨hiff, hall⟩ := findSlotLoop_fst (c := c) (u := u) cont (u.perStream c.cfg)
    (u.slotSeqs c.cfg) 0 { s0 := maxSeq, s1 := 0, strm := [], idxs := [] }
  rw [← findSlot_fst] at hiff hall
  refine ⟨?_, fun si hsi => ?_⟩
  · rw [hiff]
    exact forall₂_congr fun q hq => (findSlotStream_slot (hstream q hq) hu.perStream_pos cont).2
  · obtain ⟨hstrm, L, hL, hslots⟩ := hall si hsi
    rw [nil_append] at hstrm hL
    refine ⟨hstrm, ?_⟩
    rw [hL]
    refine forall₂_iff_get.mpr ⟨hslots.length_eq, fun i h1 h2 => ?_⟩
    have hq := (forall₂_iff_get.mp hslots).2 i h1 h2
    have hmem := get_mem (u.slotSeqs c.cfg) ⟨i, h1⟩
    exact (findSlotStream_slot (hstream _ hmem) hu.perStream_pos cont).1 _ hq

theorem Sized.searchesHalt (cont : Bool) : c.SearchesHalt u cont := by
  intro q hq x n hn
  exact findSlotStream_halts (h.head_le hf hu hq) hu.perStream_pos hn cont

end

/-! ## Sizes and heads along a run -/

theorem init_sized (f : Config) : (Cache.init f).Sized f :=
  ⟨rfl, fun _ _ => rfl, fun _ _ => Nat.zero_le _⟩

theorem Sized.assert (h : c.Sized f) (p : Bool) : (c.assert p).Sized f := ⟨h.cfg, h.size, h.heads⟩

theorem Sized.setCells (h : c.Sized f) {t : Nat} {y : Cells} (hy : y.size = (c.cells t).size) :
    (c.setCells t y).Sized f := by
  refine ⟨h.cfg, fun t' ht' => ?_, h.heads⟩
  by_cases he : t' = t
  · subst he
    simpa [Cache.setCells, hy] using h.size t' ht'
  · simpa [Cache.setCells, update_of_ne he] using h.size t' ht'

theorem Sized.setHead (h : c.Sized f) {t n : Nat} (hn : t < f.nStream → n ≤ f.kvSize) :
    (c.setHead t n).Sized f := by
  refine ⟨h.cfg, h.size, fun t' ht' => ?_⟩
  by_cases he : t' = t
  · subst he
    simpa [Cache.setHead] using hn ht'
  · simpa [Cache.setHead, update_of_ne he] using h.heads t' ht'

theorem Sized.foldl {α : Type} {g : Cache → α → Cache} {l : List α}
    (hg : ∀ c, ∀ a ∈ l, c.Sized f → (g c a).Sized f) (h : c.Sized f) : (l.foldl g c).Sized f := by
  induction l generalizing c with
  | nil => exact h
  | cons a l ih =>
    rw [foldl_cons]
    exact ih (fun c b hb => hg c b (mem_cons_of_mem a hb)) (hg c a mem_cons_self h)

end Cache

namespace Cells

section

variable (x : Cells) (i : Nat)

theorem seqRm_size (q : SeqId) : (x.seqRm i q).1.size = x.size := by
  simp only [seqRm]
  split <;> rfl

theorem seqKeep_size (q : SeqId) : (x.seqKeep i q).1.size = x.size := by
  simp only [seqKeep]
  split
  · rfl
  · split <;> rfl

theorem posAdd_size (d : Int) : (x.posAdd i d).1.size = x.size := by
  simp only [posAdd]
  split <;> rfl

theorem setOne_size (y : Cell) : (x.setOne i y).size = x.size := by
  by_cases hx : (x.cell i).pos = -1 <;> by_cases hy : y.pos = -1 <;>
    simp [Cells.setOne, hx, hy, Cells.put, usedInsert, usedErase, seqPosRm, seqPosAdd]

end

/-- A loop whose body keeps the number of cells keeps it. -/
theorem foldl_size {α : Type} {g : Cells → α → Cells} (hg : ∀ x a, (g x a).size = x.size)
    (l : List α) (x : Cells) : (l.foldl g x).size = x.size := by
  induction l generalizing x with
  | nil => rfl
  | cons a l ih => rw [foldl_cons, ih, hg]

theorem foldl_fst_size {α β : Type} {g : Cells × β → α → Cells × β}
    (hg : ∀ st a, (g st a).1.size = st.1.size) (l : List α) (st : Cells × β) :
    (l.foldl g st).1.size = st.1.size := by
  induction l generalizing st with
  | nil => rfl
  | cons a l ih => rw [foldl_cons, ih, hg]

theorem set_size (x : Cells) (idxs : List Nat) (other : List Cell) :
    (x.set idxs other).size = x.size :=
  foldl_size (g := fun x (e : Nat × Cell) => x.setOne e.1 e.2)
    (fun x e => setOne_size x e.1 e.2) _ x

/-- The same with the first freed cell, that stays inside. -/
theorem foldl_size_freed {g : Cells × Nat → Nat → Cells × Nat} {n : Nat}
    (hg : ∀ st i, (g st i).1.size = st.1.size)
    (hfreed : ∀ st i, (g st i).2 = st.2 ∨ (g st i).2 = i) (x : Cells) (h : Nat) (hh : h ≤ n) :
    ((range n).foldl g (x, h)).1.size = x.size ∧ ((range n).foldl g (x, h)).2 ≤ n := by
  apply Loop.foldl_range_induction
    (motive := fun _ (st : Cells × Nat) => st.1.size = x.size ∧ st.2 ≤ n)
  · exact ⟨rfl, hh⟩
  · rintro i hi st ⟨h1, h2⟩
    refine ⟨(hg st i).trans h1, ?_⟩
    rcases hfreed st i with he | he <;> omega

end Cells

namespace Cache

variable {c : Cache} {u : Ubatch}

theorem firstFreed_cases (size h i : Nat) : firstFreed size h i = h ∨ firstFreed size h i = i := by
  unfold firstFreed
  split
  · exact .inr rfl
  · exact .inl rfl

theorem seqRmBody_size (q : SeqId) (p0 p1 : Int) (st : Cells × Nat) (i : Nat) :
    (seqRmBody q p0 p1 st i).1.size = st.1.size := by
  simp only [seqRmBody]
  split
  · rfl
  · split
    · exact Cells.seqRm_size _ i q
    · rfl

theorem rmBody_size (p0 p1 : Int) (st : Cells × Nat) (i : Nat) :
    (rmBody p0 p1 st i).1.size = st.1.size := by
  simp only [rmBody]
  split <;> rfl

theorem seqAddBody_size (q : SeqId) (p0 p1 d : Int) (st : Cells × Nat) (i : Nat) :
    (seqAddBody q p0 p1 d st i).1.size = st.1.size := by
  simp only [seqAddBody]
  split
  · rfl
  · split
    · exact Cells.posAdd_size _ i d
    · rfl

theorem seqAddBody_freed_cases (q : SeqId) (p0 p1 d : Int) (st : Cells × Nat) (i : Nat) :
    (seqAddBody q p0 p1 d st i).2 = st.2 ∨ (seqAddBody q p0 p1 d st i).2 = i := by
  simp only [seqAddBody]
  split
  · exact .inl rfl
  · split
    · split
      · exact firstFreed_cases _ _ _
      · exact .inl rfl
    · exact .inl rfl

theorem seqCpBody_size (src dst : SeqId) (p0 p1 : Int) (x : Cells) (i : Nat) :
    (seqCpBody src dst p0 p1 x i).size = x.size := by
  simp only [seqCpBody]
  split
  · rfl
  · split <;> rfl

theorem seqDivBody_size (q : SeqId) (p0 p1 d : Int) (x : Cells) (i : Nat) :
    (seqDivBody q p0 p1 d x i).size = x.size := by
  simp only [seqDivBody]
  split
  · rfl
  · split <;> rfl

theorem Sized.clear (h : c.Sized f) : c.clear.Sized f := by
  refine ⟨h.cfg, fun t ht => ?_, fun t ht => ?_⟩
  · simp only [Cache.clear, h.cfg, if_pos ht]
    exact h.size t ht
  · simp only [Cache.clear, h.cfg, if_pos ht]
    exact Nat.zero_le _

theorem Sized.sweep (h : c.Sized f) (t : Nat) {body : Cells × Nat → Nat → Cells × Nat}
    (hb : ∀ st i, (body st i).1.size = st.1.size) : (c.sweep t body).Sized f := by
  have hc := h.setCells (t := t)
    (Cells.foldl_fst_size hb (range (c.cells t).size) (c.cells t, (c.cells t).size))
  simp only [Cache.sweep, Cache.lowerHead]
  split
  · rename_i hlt
    refine hc.setHead fun ht => ?_
    exact hlt.2.le.trans (h.heads t ht)
  · exact hc

theorem Sized.seqRm (h : c.Sized f) (q : Option SeqId) (p0 p1 : Int) :
    (c.seqRm q p0 p1).Sized f := by
  cases q with
  | some q => exact (h.assert _).sweep _ (seqRmBody_size q _ _)
  | none => exact Sized.foldl (fun c t _ hc => hc.sweep t (rmBody_size _ _)) h

theorem crossCpBody_sized (h : c.Sized f) (x : Cells) (src dst : SeqId) (s0 s1 i : Nat) :
    (crossCpBody x src dst c s0 s1 i).Sized f := by
  unfold crossCpBody
  split
  · have h1 := (h.setCells (t := s0) (y := (c.cells s0).assert (x.nonEmptyPre i)) rfl).assert
      ((x.cell i).shift == 0 || decide (0 ≤ (x.cell i).pos - (x.cell i).shift))
    refine h1.setCells ?_
    simp only [Cells.extSet, Cells.put, Cells.assert_size]
    split
    · exact Cells.posAdd_size _ _ _
    · rfl
  · exact h

theorem Sized.seqCp (h : c.Sized f) (src dst : SeqId) (p0 p1 : Int)
    (hs : f.seqToStream src < f.nStream) : (c.seqCp src dst p0 p1).Sized f := by
  have ha := h.assert (decide (c.cfg.ValidSeq src) && decide (c.cfg.ValidSeq dst))
  have hsrc :
    (c.assert (decide (c.cfg.ValidSeq src) && decide (c.cfg.ValidSeq dst))).cfg.seqToStream
      src < f.nStream := by
    rw [ha.cfg]
    exact hs
  simp only [Cache.seqCp]
  split
  · split
    · exact ha
    · exact ha.setCells (Cells.foldl_size (seqCpBody_size _ _ _ _) _ _)
  · -- the cells of the destination are rebuilt, its head is that of the source
    generalize c.assert (decide (c.cfg.ValidSeq src) && decide (c.cfg.ValidSeq dst)) =
      d at ha hsrc ⊢
    generalize d.cfg.seqToStream src = s0 at hsrc ⊢
    generalize d.cfg.seqToStream dst = s1
    have hreset : Sized f ({ d.assert (d.isFull p0 p1) with
        scInfo := (d.assert (d.isFull p0 p1)).scInfo ++ [(s0, s1)] }.setCells s1
          (d.cells s1).reset) := by
      have hb : Sized f { d.assert (d.isFull p0 p1) with
          scInfo := (d.assert (d.isFull p0 p1)).scInfo ++ [(s0, s1)] } :=
            ⟨ha.cfg, ha.size, ha.heads⟩
      exact hb.setCells rfl
    have hcopied := Sized.foldl (l := range (d.cells s0).size)
      (fun e i _ he => crossCpBody_sized he (d.cells s0) src dst s0 s1 i) hreset
    exact hcopied.setHead fun _ => hcopied.heads s0 hsrc

theorem Sized.seqKeep (h : c.Sized f) (q : SeqId) : (c.seqKeep q).Sized f :=
  (h.assert _).sweep _ fun st i => Cells.seqKeep_size st.1 i q

theorem Sized.seqAdd (h : c.Sized f) (q : SeqId) (p0 p1 d : Int) :
    (c.seqAdd q p0 p1 d).Sized f := by
  have ha := h.assert (decide (c.cfg.ValidSeq q) && c.cfg.nPosPerEmbd == 1)
  simp only [Cache.seqAdd]
  split
  · exact ha
  · split
    · exact ha
    · obtain ⟨hsize, hfreed⟩ := Cells.foldl_size_freed (n := (c.cells (c.cfg.seqToStream q)).size)
        (seqAddBody_size q (lower p0) (upper p1) d)
          (seqAddBody_freed_cases q (lower p0) (upper p1) d)
        (c.cells (c.cfg.seqToStream q)) (c.cells (c.cfg.seqToStream q)).size le_rfl
      refine (ha.setCells hsize).setHead fun ht => ?_
      split
      · have := h.size _ ht
        rw [← this]
        exact hfreed
      · exact Nat.zero_le _

theorem Sized.seqDiv (h : c.Sized f) (q : SeqId) (p0 p1 d : Int) :
    (c.seqDiv q p0 p1 d).Sized f := by
  have ha := h.assert (decide (c.cfg.ValidSeq q) && c.cfg.nPosPerEmbd == 1)
  simp only [Cache.seqDiv]
  split
  · exact ha
  · split
    · exact ha
    · exact ha.setCells (Cells.foldl_size (seqDivBody_size _ _ _ _) _ _)

theorem placeToken_size (u : Ubatch) (st : Cells × RmMax) (idx i : Nat) :
    (placeToken u st idx i).1.size = st.1.size := by
  have hclear : (clearFor st idx).1.size = st.1.size := by
    unfold clearFor
    dsimp only
    split <;> rfl
  rw [placeToken_eq]
  dsimp only [writeToken]
  rw [Cells.foldl_size (g := fun x q => x.seqAdd idx q) fun x q => rfl]
  split
  · exact hclear
  · exact hclear

variable {si : SlotInfo}

theorem placeStream_sized {st : Cache × RmMax} (h : st.1.Sized f) (s : Nat) :
    (placeStream u si st s).1.Sized f :=
  h.setCells (Cells.foldl_fst_size (fun st _ => placeToken_size u st _ _) _ _)

theorem purgeSeq_sized (h : c.Sized f) (r : RmMax) (q : SeqId) : (purgeSeq r c q).Sized f := by
  unfold purgeSeq
  split
  · exact h
  · dsimp only
    split
    · exact (h.assert _).seqRm _ _ _
    · exact h.assert _

/-- The last cell of every entry of a slot is inside the streams. -/
def SlotInside (si : SlotInfo) (n : Nat) : Prop :=
  ∀ s < si.strm.length, (si.idxsAt s).getLastD 0 + 1 ≤ n

theorem Sized.applyUbatch {si : SlotInfo} (h : c.Sized f) (hsi : SlotInside si f.kvSize)
    (u : Ubatch) :
    (c.applyUbatch si u).Sized f := by
  have hplace : ∀ (l : List Nat) (st : Cache × RmMax), st.1.Sized f →
      (l.foldl (placeStream u si) st).1.Sized f := by
    intro l
    induction l with
    | nil => exact fun st hst => hst
    | cons s l ih => exact fun st hst => ih _ (placeStream_sized hst s)
  simp only [Cache.applyUbatch]
  refine Sized.foldl (fun d s hs hd => hd.setHead fun _ => hsi s (mem_range.mp hs)) ?_
  refine Sized.foldl (fun d q _ hd => purgeSeq_sized hd _ q) ?_
  exact hplace _ _ (h.assert _)

theorem Sized.findSlot_inside (h : c.Sized f) (hf : f.Valid) (hu : u.Fit f)
    (hsi : (c.findSlot u false).1 = some si) : SlotInside si f.kvSize := by
  obtain rfl := h.cfg
  obtain ⟨hstrm, hslots⟩ := (h.findsSlots hf hu false).sound si hsi
  obtain ⟨hlen, hget⟩ := forall₂_iff_get.mp hslots
  intro s hs
  rw [hstrm, length_map] at hs
  have hs' : s < si.idxs.length := by omega
  have ht := hu.slotSeqs_stream hf (get_mem _ ⟨s, hs⟩)
  obtain ⟨hl, -, hall⟩ := hget s hs hs'
  have hat : si.idxsAt s = si.idxs.get ⟨s, hs'⟩ := by
    rw [SlotInfo.idxsAt, getD_eq_getElem _ _ hs']
    rfl
  have hne : si.idxs.get ⟨s, hs'⟩ ≠ [] := by
    have hpos := hu.perStream_pos
    rw [← hl] at hpos
    exact ne_nil_of_length_pos hpos
  rw [hat, getLastD_eq_getLast?, getLast?_eq_some_getLast hne]
  have hlast := (hall _ (getLast_mem hne)).1
  rwa [h.size _ ht] at hlast

/-- The number of streams that an ubatch involves. -/
theorem Fit.slotSeqs_length_le (hu : u.Fit f) (hf : f.Valid) :
    (u.slotSeqs f).length ≤ f.nStream := by
  by_cases hs : 1 < f.nStream
  · have hmap : ((u.slotSeqs f).map f.seqToStream).Nodup := by
      rw [Ubatch.slotSeqs, if_pos hs]
      exact hu.nodup.map fun q r he => Config.seqToStream_inj hs he
    have hsub : (u.slotSeqs f).map f.seqToStream ⊆ range f.nStream := by
      intro t ht
      obtain ⟨q, hq, rfl⟩ := mem_map.mp ht
      exact mem_range.mpr (hu.slotSeqs_stream hf hq)
    have := (subperm_of_subset hmap hsub).length_le
    rwa [length_map, length_range] at this
  · rw [Ubatch.slotSeqs, if_neg hs]
    have := hf.pos
    rw [length_take]
    omega

theorem Sized.place (h : c.Sized f) (hf : f.Valid) (hu : u.Shape f) :
    ((Op.place u).run c).Sized f := by
  simp only [Op.run]
  cases hr : (c.findSlot u false).1 with
  | none => exact h.assert _
  | some si => exact (h.assert _).applyUbatch (h.findSlot_inside hf hu.fit hr) u

theorem Sized.run (h : c.Sized f) (hf : f.Valid) (o : Op) (hv : o.Valid c) : (o.run c).Sized f := by
  cases o with
  | clear => exact h.clear
  | seqRm q p0 p1 => exact h.seqRm q p0 p1
  | seqCp src dst p0 p1 =>
    obtain ⟨hs, -, -⟩ := hv
    rw [h.cfg] at hs
    exact h.seqCp src dst p0 p1 (hf.seqToStream_lt hs)
  | seqKeep q => exact h.seqKeep q
  | seqAdd q p0 p1 d => exact h.seqAdd q p0 p1 d
  | seqDiv q p0 p1 d => exact h.seqDiv q p0 p1 d
  | place u =>
    refine h.place hf ?_
    rw [← h.cfg]
    exact hv

/-- What a recovery entry of `prepare` may hold. -/
structure SavedInside (f : Config) (sv : Saved) : Prop where
  len : sv.sinfo.strm.length ≤ f.nStream
  heads : ∀ t < f.nStream, sv.headsOld t ≤ f.kvSize

theorem Sized.restore (h : c.Sized f) {sv : Saved} (hsv : SavedInside f sv) :
    (c.restore sv).Sized f := by
  refine Sized.foldl (fun d s hs hd => ?_) h
  have hset := hd.setCells (t := sv.sinfo.strmAt s)
    (y := (d.cells (sv.sinfo.strmAt s)).set (sv.sinfo.idxsAt s) (sv.cells.getD s []))
    (Cells.set_size _ _ _)
  refine hset.setHead fun _ => hsv.heads s ?_
  exact (mem_range.mp hs).trans_le hsv.len

theorem prepareLoop_sized (hf : f.Valid) : ∀ (us : List Ubatch) (p : Prep),
    (∀ u ∈ us, u.Fit f) → p.cache.Sized f → (∀ sv ∈ p.states, SavedInside f sv) →
      (prepareLoop p us).cache.Sized f ∧ ∀ sv ∈ (prepareLoop p us).states, SavedInside f sv
  | [], p, _, hc, hs => ⟨hc, hs⟩
  | u :: us, p, hu, hc, hs => by
    have hu' := hu u mem_cons_self
    simp only [prepareLoop]
    cases hr : (p.cache.findSlot u false).1 with
    | none => exact ⟨hc.assert _, hs⟩
    | some si =>
      apply prepareLoop_sized hf us _ fun v hv => hu v (mem_cons_of_mem u hv)
      · exact (hc.assert _).applyUbatch (hc.findSlot_inside hf hu' hr) u
      · intro sv hsv
        rcases mem_cons.mp hsv with rfl | hsv
        · refine ⟨?_, hc.heads⟩
          obtain rfl := hc.cfg
          have hstrm := ((hc.findsSlots hf hu' false).sound si hr).1
          have hlen := Fit.slotSeqs_length_le hu' hf
          simpa [save, hstrm] using hlen
        · exact hs sv hsv

theorem Sized.prepare (h : c.Sized f) (hf : f.Valid) {us : List Ubatch}
    (hu : ∀ u ∈ us, u.Fit f) : (c.prepare us).1.Sized f := by
  obtain ⟨hc, hs⟩ := prepareLoop_sized hf us
    { cache := c, states := [], res := [], success := true } hu h (by simp)
  simp only [Cache.prepare]
  exact Sized.foldl (fun d sv hsv hd => hd.restore (hs sv hsv)) (hc.assert _)

/-- The end of `update(do_shift)`: the shift has been applied to every stream. -/
def resetShift (c : Cache) : Cache :=
  { c with cells := fun t => if t < c.cfg.nStream then (c.cells t).resetShift else c.cells t }

theorem Sized.resetShift (h : c.Sized f) : c.resetShift.Sized f := by
  refine ⟨h.cfg, fun t ht => ?_, h.heads⟩
  simp only [Cache.resetShift, h.cfg, if_pos ht]
  exact h.size t ht

end Cache

namespace Store

open Bytes

variable {s : Store} {t cellCount : Nat}

variable {i n nSeqMax : Nat} {q : SeqId}

theorem readSeqId_size (hx : x.size = n) (j : Nat) :
    Ensures (readSeqId nSeqMax i x j) fun y => y.size = n := by
  refine Ensures.after fun q => Ensures.after fun _ => ?_
  split
  · exact Ensures.pure hx
  · exact Ensures.pure hx

theorem readCell_size (hx : x.size = n) : Ensures (readCell nSeqMax x i) fun y => y.size = n := by
  refine Ensures.after fun pos => Ensures.after fun k => ?_
  exact Ensures.foldlM (fun y j hy => readSeqId_size hy j) _ _ hx

theorem readMetaAll_sized (h : s.cache.Sized f) :
    Ensures (readMetaAll s t cellCount) fun r => r.1.cache.Sized f := by
  refine Ensures.after fun _ => ?_
  have hc : s.clear.cache.Sized f := h.clear
  refine (Ensures.foldlM (fun y i hy => readCell_size hy) _ _ rfl).bind fun x hx => ?_
  exact Ensures.pure ((hc.setCells hx).setHead fun _ => Nat.zero_le _)

theorem seqUbatch_shape (hq : f.ValidSeq q) (hn : 0 < cellCount) (pos : List Int)
    (ext : List CellExt) : (seqUbatch f q cellCount pos ext).Shape f where
  tokens := hn
  unq := by simp [seqUbatch]
  nodup := by simp [seqUbatch]
  valid i _ r hr := by
    rw [seqUbatch, mem_singleton] at hr
    rwa [hr]
  blocks _ := by simp [seqUbatch, Nat.mod_one]
  block _ s _ k _ := by simp [seqUbatch]

theorem readMetaSeq_sized (h : s.cache.Sized f) (hf : f.Valid) (hq : f.ValidSeq q)
    (hn : 0 < cellCount) : Ensures (readMetaSeq s q t cellCount) fun r => r.1.cache.Sized f := by
  have hrm := h.seqRm (some q) (-1) (-1)
  refine Ensures.after fun r => ?_
  have hu := seqUbatch_shape hq hn r.1 r.2
  rw [← hrm.cfg] at hu
  dsimp only
  split
  · exact Ensures.of_fails (fun _ => rfl) _
  · rename_i si hsi
    rw [hrm.cfg] at hu hsi
    exact Ensures.pure (((hrm.assert _).applyUbatch (hrm.findSlot_inside hf hu.fit hsi) _).assert _)

theorem readData_sized (h : s.cache.Sized f) (idxs : List Nat) :
    Ensures (readData s t cellCount idxs) fun r => r.cache.Sized f := by
  refine Ensures.after fun _ => Ensures.after fun _ => Ensures.after fun _ => Ensures.after fun _ =>
    Ensures.after fun _ => Ensures.after fun _ => Ensures.after fun _ => Ensures.pure h

theorem readStream_sized (hf : f.Valid) {q : Option SeqId} (hq : ∀ r ∈ q, f.ValidSeq r)
    (h : s.cache.Sized f) (i : Nat) : Ensures (readStream q s i) fun r => r.cache.Sized f := by
  refine Ensures.after fun n => ?_
  split
  · exact Ensures.pure h
  · rename_i hn
    cases q with
    | none => exact (readMetaAll_sized h).bind fun r hr => readData_sized hr _
    | some q =>
      exact (readMetaSeq_sized h hf (hq q rfl) (Nat.pos_of_ne_zero hn)).bind fun r hr =>
        readData_sized hr _

/-- A restored state has the sizes of the cache that it is read into. -/
theorem stateRead_sized (hf : f.Valid) {q : Option SeqId} (hq : ∀ r ∈ q, f.ValidSeq r)
    (h : s.cache.Sized f) : Ensures (stateRead s q) fun r => r.cache.Sized f := by
  refine Ensures.after fun n => Ensures.after fun _ => ?_
  exact Ensures.foldlM (fun r i hr => readStream_sized hf hq hr i) _ _ (h.assert _)

end Store

namespace Cache

/-- The caches that a run of the public operations can reach: the memory operations, the dry run of
a batch, an applied shift, and a restored state. The assertions of the cells are compiled out, so
none of them is assumed to hold. -/
inductive Reachable (f : Config) : Cache → Prop
  | init : Reachable f (Cache.init f)
  | op {c : Cache} (o : Op) : Reachable f c → o.Valid c → Reachable f (o.run c)
  | prepare {c : Cache} (us : List Ubatch) : Reachable f c → (∀ u ∈ us, u.Shape f) →
      Reachable f (c.prepare us).1
  | shifted {c : Cache} : Reachable f c → Reachable f c.resetShift
  | restored {s s' : Store} {q : Option SeqId} {bs rest : List UInt8} : Reachable f s.cache →
      (∀ r ∈ q, f.ValidSeq r) → s.stateRead q bs = some (s', rest) → Reachable f s'.cache

theorem Reachable.sized (hf : f.Valid) {c : Cache} (h : Reachable f c) : c.Sized f := by
  induction h with
  | init => exact init_sized f
  | op o _ hv ih => exact ih.run hf o hv
  | prepare us _ hu ih => exact ih.prepare hf fun u h => (hu u h).fit
  | shifted _ ih => exact ih.resetShift
  | restored _ hq hr ih => exact Store.stateRead_sized hf hq ih _ _ _ hr

/-- In every reachable cache `find_slot` leaves its loops. Without the continuity requirement it
finds a slot exactly when every involved stream has as many usable cells as it gets tokens, and
returns different usable cells; with it, exactly when every involved stream has that many usable
cells in a row, and returns such a row. -/
theorem find_slot_sound_and_complete {f : Config} {c : Cache} {u : Ubatch} (hf : f.Valid)
    (h : Reachable f c) (hu : u.Shape f) :
    (c.SearchesHalt u false ∧ c.SearchesHalt u true) ∧
    ((c.findSlot u false).1.isSome ↔ ∀ q ∈ u.slotSeqs f,
      u.perStream f ≤ ((c.cells (f.seqToStream q)).usableCells f).card) ∧
    (∀ si, (c.findSlot u false).1 = some si → si.strm = (u.slotSeqs f).map f.seqToStream ∧
      Forall₂ (fun q l => (c.cells (f.seqToStream q)).Choice f (u.perStream f) l)
        (u.slotSeqs f) si.idxs) ∧
    ((c.findSlot u true).1.isSome ↔ ∀ q ∈ u.slotSeqs f,
      ∃ l, (c.cells (f.seqToStream q)).Block f (u.perStream f) l) ∧
    (∀ si, (c.findSlot u true).1 = some si → si.strm = (u.slotSeqs f).map f.seqToStream ∧
      Forall₂ (fun q l => (c.cells (f.seqToStream q)).Block f (u.perStream f) l)
        (u.slotSeqs f) si.idxs) := by
  have hs := h.sized hf
  obtain rfl := hs.cfg
  obtain ⟨hcomplete, hsound⟩ := hs.findsSlots hf hu.fit false
  obtain ⟨hcomplete', hsound'⟩ := hs.findsSlots hf hu.fit true
  simp only [Cells.Slot, Bool.false_eq_true, if_false, Cells.exists_choice_iff]
    at hcomplete hsound
  simp only [Cells.Slot, if_true] at hcomplete' hsound'
  exact ⟨⟨hs.searchesHalt hf hu.fit false, hs.searchesHalt hf hu.fit true⟩, hcomplete, hsound,
    hcomplete',
    hsound'⟩

theorem filledStreams_reachable : Reachable wideStreams filledStreams :=
  .op _ (.op _ .init (Ubatch.next_shape (by decide) 0 (by decide)))
    (Ubatch.next_shape (by decide +kernel) 0 (by decide))

/-- Three tokens in a row behind the three of their stream. -/
theorem find_slot_sound_and_complete_filled :
    (filledStreams.findSlot (.next 1 3 3) true).1.isSome := by
  refine (find_slot_sound_and_complete wideStreams_valid filledStreams_reachable
    (Ubatch.next_shape (by decide) 3 (by decide))).2.2.2.1.mpr fun q hq =>
      ⟨[3, 4, 5], 3, rfl, ?_⟩
  obtain rfl := mem_singleton.mp hq
  decide +kernel

end Cache

end Llama.Kv
