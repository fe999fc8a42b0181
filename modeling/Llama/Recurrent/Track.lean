import Llama.Recurrent.Slot

/-!
# Where `find_slot` leaves the states

The states of the cells are rows of a tensor that `find_slot` does not touch. While cells are
split, swapped and written, `src` tells from which row the state of a cell comes; a cell without
a source has the zero state. Every sequence keeps the state it had.
-/

namespace Llama.Recurrent

open List hiding Disjoint
open Function

variable {S : Type} {m m' : Memory} {F done : Finset Nat}

/-- The state of a cell, in the rows `R`. -/
def Memory.load (zero : S) (R : Nat → S) (m : Memory) (c : Nat) : S :=
  match (m.cells c).src with
  | none => zero
  | some k => R k

/-- Sequence `s` has the state `E s`, which is zero if it has no cell, and so are the states of
the cells that no sequence has. -/
structure Track (zero : S) (R E : Nat → S) (m : Memory) : Prop where
  tail : ∀ s < m.size, ∀ c, (m.cells s).tail = some c → m.load zero R c = E s
  none : ∀ s < m.size, (m.cells s).tail = none → E s = zero
  free : ∀ c < m.size, m.Free c → m.load zero R c = zero

variable {zero : S} {R E : Nat → S}

variable {c s max min : Nat} {π : Equiv.Perm Nat} {xs : List SetInfo} {stored : Nat → S} {r : Range}
  {m2 : Memory}

theorem load_congr (h : (m'.cells c).src = (m.cells c).src) :
    m'.load zero R c = m.load zero R c := by
  rw [Memory.load, Memory.load, h]

/-- A new sequence takes an empty cell. -/
theorem Track.fresh {next : Nat} (h : Track zero R E m) (hs : s < m.size) (hnext : next < m.size)
    (hfree : m.Free next) (hst : (m.cells s).tail = .none) :
    Track zero R E (m.modify s fun x => { x with tail := some next }) := by
  have hcell : ∀ c, ((m.modify s fun x => { x with tail := some next }).cells c).src =
        (m.cells c).src ∧ ((m.modify s fun x => { x with tail := some next }).cells c).tail =
        if c = s then some next else (m.cells c).tail := by
    intro c
    rw [Memory.modify_cells]
    split
    · next he =>
      subst he
      exact ⟨rfl, rfl⟩
    · exact ⟨rfl, rfl⟩
  constructor
  · intro r hr c hrc
    rw [load_congr (hcell c).1]
    rw [(hcell r).2] at hrc
    split at hrc
    · next he =>
      cases hrc
      rw [he, h.none s hs hst]
      exact h.free next hnext hfree
    · exact h.tail r hr c hrc
  · intro r hr hrn
    rw [(hcell r).2] at hrn
    split at hrn
    · cases hrn
    · exact h.none r hr hrn
  · intro c hc hcf
    rw [load_congr (hcell c).1]
    apply h.free c hc
    intro r hr hrc
    by_cases he : r = s
    · rw [he, hst] at hrc
      cases hrc
    · apply hcf r hr
      rw [(hcell r).2, if_neg he, hrc]

/-- A sequence that shares its cell moves to an empty one and takes its state along. -/
theorem Track.moved {s t next : Nat} (h : Track zero R E m) (hs : s < m.size)
    (hfree : m.Free next) (hst : (m.cells s).tail = some t) (hshare : m.Shares s) :
    Track zero R E (m.moved s t next) := by
  have hne : t ≠ next := by
    rintro rfl
    exact hfree s hs hst
  have hload : ∀ c, (m.moved s t next).load zero R c =
      if c = next then m.load zero R t else m.load zero R c := by
    intro c
    rw [Memory.load, (moved_cells hne c).2.2.2]
    by_cases hc : c = next
    · rw [if_pos hc, if_pos hc]
      rfl
    · rw [if_neg hc, if_neg hc]
      rfl
  constructor
  · intro r hr c hrc
    rw [(moved_cells hne r).1] at hrc
    rw [hload]
    split at hrc
    · next he =>
      cases hrc
      rw [if_pos rfl, he]
      exact h.tail s hs t hst
    · have hcn : c ≠ next := by
        rintro rfl
        exact hfree r hr hrc
      rw [if_neg hcn]
      exact h.tail r hr c hrc
  · intro r hr hrn
    rw [(moved_cells hne r).1] at hrn
    split at hrn
    · cases hrn
    · exact h.none r hr hrn
  · intro c hc hcf
    have hcn : c ≠ next := by
      rintro rfl
      exact hcf s hs (by rw [(moved_cells hne s).1, if_pos rfl])
    rw [hload, if_neg hcn]
    apply h.free c hc
    intro r hr hrc
    by_cases he : r = s
    · -- the cell it leaves belongs to another sequence as well
      subst he
      obtain ⟨q, hq, hqr, hqc⟩ := hshare c hrc
      exact hcf q hq (by rw [(moved_cells hne q).1, if_neg hqr, hqc])
    · exact hcf r hr (by rw [(moved_cells hne r).1, if_neg he, hrc])

theorem Track.split {s next : Nat} (h : Track zero R E m) (hs : s < m.size)
    (hnext : next < m.size) (hfree : m.Free next) (hshare : m.Shares s)
    (hsplit : m.split s next = some m') : Track zero R E m' := by
  rw [Memory.split] at hsplit
  split at hsplit
  · split at hsplit
    · next hst =>
      cases hsplit
      exact h.fresh hs hnext hfree hst
    · next t hst =>
      dsimp only at hsplit
      split at hsplit
      · cases hsplit
      · cases hsplit
        exact h.moved hs hfree hst hshare
  · cases hsplit

/-- A sequence that does not own its cell alone. -/
theorem Finding.shares {n t : Nat} (h : Finding n F done m) (hs : s < m.size) (hdone : s ∉ done)
    (hst : (m.cells s).tail = some t) (hcard : (m.cells t).seqId.card ≠ 1) : m.Shares s := by
  intro c hc
  rw [hst] at hc
  cases hc
  have htl := h.linked.tail_lt s hs t hst
  have hmem : s ∈ (m.cells t).seqId :=
    (h.linked.mem_iff s t htl).mpr ⟨hs, hst, fun hF => hdone (h.sub hF)⟩
  have hlt : 1 < (m.cells t).seqId.card := by
    have := Finset.card_pos.mpr ⟨s, hmem⟩
    omega
  obtain ⟨q, hq, hne⟩ := Finset.exists_mem_ne hlt s
  obtain ⟨hq', hqt, -⟩ := (h.linked.mem_iff q t htl).mp hq
  exact ⟨q, hq', hne, hqt⟩

/-- One turn of the loop that finds the usable cells. -/
theorem Track.turn {n k s : Nat} {r r' : Range} {last : Bool} (h : Track zero R E r.m)
    (hf : Finding n F done r.m) (hseek : r.m.Seeks F k r.next) (hs : s < n) (hdone : s ∉ done)
    (hturn : r.turn s last = some r') : Track zero R E r'.m := by
  have hs' : s < r.m.size := hf.size.symm ▸ hs
  have hmove : r.m.Shares s → r.move s last = some r' → Track zero R E r'.m := by
    intro hshare hmove
    obtain ⟨a, -, hnext, hfree, -⟩ := hseek (exists_free hs' hshare)
    have hlt : r.next < r.m.size := by
      rw [hnext]
      exact Nat.mod_lt _ (by omega)
    rw [Range.move, Option.bind_eq_bind, Option.bind_eq_some_iff] at hmove
    obtain ⟨m1, hm1, hrest⟩ := hmove
    cases hrest
    exact h.split hs' hlt hfree hshare hm1
  rw [Range.turn] at hturn
  split at hturn
  · next hst =>
    apply hmove _ hturn
    intro c hc
    rw [hst] at hc
    cases hc
  · next t hst =>
    split at hturn
    · split at hturn
      · cases hturn
        exact h
      · next hcard => exact hmove (hf.shares hs' hdone hst hcard) hturn
    · cases hturn

/-- The loop that finds the usable cells. -/
theorem Track.find {n k : Nat} (hk : k ≤ n) : ∀ (ss : List Nat) {r r' : Range}
    {F done : Finset Nat}, Track zero R E r.m → Finding n F done r.m →
    (ss ≠ [] → r.m.Seeks F k r.next) → r.Covers done → ss.Nodup →
    (∀ s ∈ ss, s < n ∧ s ∉ done) → r.find ss = some r' → Track zero R E r'.m := by
  intro ss
  induction ss with
  | nil =>
    intro r r' F done h _ _ _ _ _ hfind
    cases hfind
    exact h
  | cons s ss ih =>
    intro r r' F done h hf hseek hcov hnd hss hfind
    obtain ⟨hs, hdone⟩ := hss s mem_cons_self
    obtain ⟨hnot, hnd'⟩ := nodup_cons.mp hnd
    obtain ⟨r1, F1, h1, hf1, hseek1, hcov1, -⟩ :=
      turn_spec ss.isEmpty hf (hseek (by simp)) hk hcov hs hdone
    have htrack := h.turn hf (hseek (by simp)) hs hdone h1
    rw [Range.find, h1] at hfind
    apply ih htrack hf1 (fun hne => hseek1 (isEmpty_eq_false_iff.mpr hne)) hcov1 hnd' _ hfind
    intro q hq
    refine ⟨(hss q (mem_cons_of_mem s hq)).1, fun hmem => ?_⟩
    rcases Finset.mem_insert.mp hmem with rfl | hmem
    · exact hnot hq
    · exact (hss q (mem_cons_of_mem s hq)).2 hmem

theorem Track.gathered (h : Track zero R E m) (hm : Moved π m m') (hl : Linked F m') :
    Track zero R E m' := by
  have hload : ∀ c < m.size, m'.load zero R (π c) = m.load zero R c := by
    intro c hc
    rw [Memory.load, (hm.cell c hc).2.2]
    rfl
  have hsize := hm.size
  constructor
  · intro s hs c hc
    have hlt := hl.tail_lt s hs c hc
    rw [hsize] at hs hlt
    rw [hm.tail s hs] at hc
    obtain ⟨d, hd, rfl⟩ := Option.map_eq_some_iff.mp hc
    rw [hload d ((hm.lt_iff d).mp hlt)]
    exact h.tail s hs d hd
  · intro s hs hn
    rw [hsize] at hs
    rw [hm.tail s hs, Option.map_eq_none_iff] at hn
    exact h.none s hs hn
  · intro c hc hcf
    rw [hsize] at hc
    obtain ⟨d, hd, rfl⟩ := hm.exists_src hc
    rw [hload d hd]
    apply h.free d hd
    intro r hr hrd
    exact hcf r (hsize.symm ▸ hr) ((hm.tail_eq hr).mpr hrd)

/-- The tails after all sets are written. -/
theorem placeAll_tail : ∀ (xs : List SetInfo) (m : Memory) (c s : Nat),
    xs.Pairwise (fun x y => Disjoint x.seqs y.seqs) →
    (∀ i (h : i < xs.length), s ∈ xs[i].seqs → ((m.placeAll c xs).cells s).tail = some (c + i)) ∧
    ((∀ x ∈ xs, s ∉ x.seqs) → ((m.placeAll c xs).cells s).tail = (m.cells s).tail) := by
  intro xs
  induction xs with
  | nil =>
    intro m c s _
    exact ⟨fun i h => absurd h (Nat.not_lt_zero i), fun _ => rfl⟩
  | cons x xs ih =>
    intro m c s hdisj
    obtain ⟨hx, hdisj'⟩ := pairwise_cons.mp hdisj
    obtain ⟨hin, hout⟩ := ih (m.place c x) (c + 1) s hdisj'
    rw [Memory.placeAll]
    constructor
    · intro i hi hs
      cases i with
      | zero =>
        have hrest : ∀ y ∈ xs, s ∉ y.seqs := fun y hy => Finset.disjoint_left.mp (hx y hy) hs
        rw [hout hrest, (place_cells m c x s).2.2.2.1]
        exact if_pos hs
      | succ i =>
        rw [hin i (Nat.lt_of_succ_lt_succ hi) hs]
        congr 1
        omega
    · intro hs
      rw [hout fun y hy => hs y (mem_cons_of_mem x hy), (place_cells m c x s).2.2.2.1,
        if_neg (hs x mem_cons_self)]

/-- The rows after the one at `rs_z` is zeroed. -/
def Memory.zeroed (zero : S) (m : Memory) (R : Nat → S) : Nat → S :=
  match m.rsZ with
  | none => R
  | some z => Function.update R z zero

/-- `s_copy`: the state that is read for cell `i` of the range. -/
def Memory.sCopy (m : Memory) (i : Nat) : Nat := ((m.cells (m.head + i)).src0).getD 0

section

variable (h : m.stage min max = some m')
include h

/-- What the last loop of `find_slot` writes. -/
theorem stage_cells :
    m'.rsZ = (range' min (max + 1 - min)).find? (fun c => decide (m.refcount c = 0)) ∧
    (∀ c, min ≤ c → c ≤ max → (m'.cells c).src = some c ∧
      (m'.cells c).src0 = ((m.cells c).src).or m'.rsZ ∧
      ((m.cells c).src = .none → m'.rsZ ≠ .none)) ∧
    ∀ c, c < min ∨ max < c → (m'.cells c).src = (m.cells c).src := by
  have hrange : ∀ c, c ∈ range' min (max + 1 - min) ↔ min ≤ c ∧ c ≤ max := by
    intro c
    rw [mem_range'_1]
    omega
  rw [Memory.stage] at h
  dsimp only at h
  split at h
  · next hcond =>
    cases h
    refine ⟨rfl, fun c h1 h2 => ?_, fun c hc => ?_⟩
    · dsimp only
      rw [if_pos ((hrange c).mpr ⟨h1, h2⟩)]
      refine ⟨rfl, ?_, fun hn => ?_⟩
      · dsimp only
        cases (m.cells c).src <;> rfl
      · rw [Bool.or_eq_true, all_eq_true] at hcond
        rcases hcond with hall | hz
        · have := hall c ((hrange c).mpr ⟨h1, h2⟩)
          simp [hn] at this
        · exact Option.isSome_iff_ne_none.mp hz
    · dsimp only
      rw [if_neg]
      rw [hrange]
      omega
  · cases h

theorem stage_tail (c : Nat) : (m'.cells c).tail = (m.cells c).tail := by
  rw [Memory.stage] at h
  dsimp only at h
  split at h
  · cases h
    dsimp only
    split <;> rfl
  · cases h

/-- The row that is zeroed is the source of no cell. -/
theorem stage_rsZ {z : Nat} (hz : m'.rsZ = some z) :
    min ≤ z ∧ z ≤ max ∧ ∀ c < m.size, (m.cells c).src ≠ some z := by
  rw [(stage_cells h).1] at hz
  have hmem := mem_of_find?_eq_some hz
  rw [mem_range'_1] at hmem
  refine ⟨hmem.1, by omega, fun c hc hsrc => ?_⟩
  have href := find?_some hz
  rw [decide_eq_true_eq, Memory.refcount, length_eq_zero_iff, filter_eq_nil_iff] at href
  exact href c (mem_range.mpr hc) (decide_eq_true hsrc)

/-- A cell of the range reads the state it had. -/
theorem stage_read (hc : c < m.size) (h1 : min ≤ c) (h2 : c ≤ max) :
    m'.zeroed zero R (((m'.cells c).src0).getD 0) = m.load zero R c := by
  obtain ⟨-, hsrc0, hz⟩ := (stage_cells h).2.1 c h1 h2
  rw [hsrc0, Memory.load]
  cases hs : (m.cells c).src with
  | none =>
    obtain ⟨z, hrs⟩ := Option.ne_none_iff_exists'.mp (hz hs)
    simp [Memory.zeroed, hrs]
  | some k =>
    rw [Option.some_or, Option.getD_some, Memory.zeroed]
    cases hrs : m'.rsZ with
    | none => rfl
    | some z =>
      have hne : k ≠ z := by
        rintro rfl
        exact (stage_rsZ h hrs).2.2 c hc hs
      exact update_of_ne hne _ _

/-- A row outside of the range is not zeroed. -/
theorem stage_zeroed (hc : c < min ∨ max < c) : m'.zeroed zero R c = R c := by
  rw [Memory.zeroed]
  cases hrs : m'.rsZ with
  | none => rfl
  | some z =>
    have := stage_rsZ h hrs
    exact update_of_ne (by omega) _ _

end

/-- The states that `build_rs` reads for the sets of the ubatch. -/
def Memory.readStates (zero : S) (m : Memory) (R : Nat → S) (i : Nat) : S :=
  m.zeroed zero R (m.sCopy i)

/-- The rows after the step: the states of the sets are stored, those of the other cells of the
range are copied. -/
def Memory.storeStates (zero : S) (m : Memory) (R : Nat → S) (nSeqs : Nat) (stored : Nat → S)
    (c : Nat) : S :=
  if m.head ≤ c ∧ c < m.head + nSeqs then stored (c - m.head)
  else if m.head + nSeqs ≤ c ∧ c < m.head + m.n then m.readStates zero R (c - m.head)
  else m.zeroed zero R c

/-- The states of the sequences after the states of the sets are stored. -/
def placedStates (xs : List SetInfo) (stored E : Nat → S) (s : Nat) : S :=
  match xs.findIdx? fun x => decide (s ∈ x.seqs) with
  | some i => stored i
  | none => E s

theorem placedStates_of_mem {i : Nat} (hdisj : xs.Pairwise fun x y => Disjoint x.seqs y.seqs)
    (hi : i < xs.length) (hs : s ∈ xs[i].seqs) : placedStates xs stored E s = stored i := by
  have hfind : xs.findIdx? (fun x => decide (s ∈ x.seqs)) = some i := by
    rw [findIdx?_eq_some_iff_getElem]
    refine ⟨hi, decide_eq_true hs, fun j hj => ?_⟩
    have hd := pairwise_iff_getElem.mp hdisj j i (Nat.lt_trans hj hi) hi hj
    simpa using Finset.disjoint_right.mp hd hs
  rw [placedStates, hfind]

theorem placedStates_of_notMem (hs : ∀ x ∈ xs, s ∉ x.seqs) : placedStates xs stored E s = E s := by
  have hfind : xs.findIdx? (fun x => decide (s ∈ x.seqs)) = .none := by
    rw [findIdx?_eq_none_iff]
    exact fun x hx => decide_eq_false (hs x hx)
  rw [placedStates, hfind]

/-- The last two loops of `find_slot`, after the cells are gathered. -/
theorem Gathered.placed {m4 : Memory} (zero : S) (R : Nat → S) (hg : Gathered m xs r π m2)
    (hstage : (m2.placeAll r.min xs).stage r.min r.max = some m4)
    (hsrc : ∀ d, ((m2.placeAll r.min xs).cells d).src = (m2.cells d).src)
    (hsize : (m2.placeAll r.min xs).size = m2.size) :
    (∀ c < m.size, r.min ≤ c → c ≤ r.max →
      m4.zeroed zero R (((m4.cells c).src0).getD 0) = m2.load zero R c) ∧
    ∀ stored : Nat → S, ∀ c < m.size, (∀ i < xs.length, c ≠ r.min + i) →
      Memory.load zero (Memory.storeStates zero
        { m4 with head := r.min, n := r.max + 1 - r.min, used := m4.countUsed } R xs.length stored)
        m4 c = m2.load zero R c := by
  have hread : ∀ c < m.size, r.min ≤ c → c ≤ r.max →
      m4.zeroed zero R (((m4.cells c).src0).getD 0) = m2.load zero R c := by
    intro c hc h1 h2
    rw [stage_read hstage (by rw [hsize, hg.size]; exact hc) h1 h2, load_congr (hsrc c)]
  refine ⟨hread, fun stored c hc hno => ?_⟩
  have hmain : ¬ (r.min ≤ c ∧ c < r.min + xs.length) := by
    rintro ⟨h1, h2⟩
    exact hno (c - r.min) (by omega) (by omega)
  have hlen := hg.length_le
  by_cases hin : r.min ≤ c ∧ c ≤ r.max
  · rw [Memory.load, ((stage_cells hstage).2.1 c hin.1 hin.2).1]
    dsimp only
    rw [Memory.storeStates, if_neg hmain, if_pos (by dsimp only; omega), ← hread c hc hin.1 hin.2,
      Memory.readStates, Memory.sCopy]
    dsimp only
    rw [Nat.add_sub_cancel' hin.1]
    rfl
  · have hout : c < r.min ∨ r.max < c := by omega
    have hsrc4 : (m4.cells c).src = (m2.cells c).src := by
      rw [(stage_cells hstage).2.2 c hout, hsrc]
    rw [Memory.load, Memory.load, hsrc4]
    rcases hg.src c hc hout with he | he
    · rw [he]
    · rw [he]
      dsimp only
      rw [Memory.storeStates, if_neg hmain, if_neg (by dsimp only; omega)]
      change m4.zeroed zero R c = R c
      exact stage_zeroed hstage hout

theorem Gathered.placeSets {xs : List SetInfo} {r : Range} {π : Equiv.Perm Nat} {m2 : Memory}
    {b : Bool} (hg : Gathered m xs r π m2) (h : m.placeSets xs = some (b, m')) :
    ∃ m4, (m2.placeAll r.min xs).stage r.min r.max = some m4 ∧
      m' = { m4 with head := r.min, n := r.max + 1 - r.min, used := m4.countUsed } := by
  rw [Memory.placeSets] at h
  simp only [hg.find, hg.gather, Option.bind_eq_bind, Option.bind_some, Option.pure_def,
    Option.bind_eq_some_iff, Option.some.injEq, Prod.mk.injEq] at h
  obtain ⟨m4, h4, -, hm'⟩ := h
  exact ⟨m4, h4, hm'.symm⟩

/-- The loop that finds the cells and the swaps keep the states. -/
theorem Gathered.track (hg : Gathered m xs r π m2) (h : Inv m) (hxs : SetsOk m.size xs)
    (ht : Track zero R E m) : Track zero R E m2 := by
  obtain ⟨F, hl2, -⟩ := hg.linked
  have hlt : ∀ s ∈ xs.map SetInfo.first, s < m.size := by
    intro s hs
    obtain ⟨x, hx, rfl⟩ := mem_map.mp hs
    exact hxs.seqs_lt hx (first_mem_seqs (hxs.ids_ne x hx))
  have hfind : Track zero R E r.m := by
    apply Track.find (F := ∅) h.head (xs.map SetInfo.first) ht h.finding
      (fun _ => firstEmpty_seeks h.toLinked h.head)
      ⟨fun s hs => absurd hs (Finset.notMem_empty s), ?_⟩ hxs.first_nodup
      (fun s hs => ⟨hlt s hs, Finset.notMem_empty s⟩) hg.find
    exact Nat.lt_of_le_of_lt (Nat.zero_le _) hg.max_lt
  exact hfind.gathered hg.moved hl2

/-- Placing sets reads the states of their first sequences, and all sequences have the right
states afterwards. -/
theorem placeSets_states (h : Inv m) (hxs : SetsOk m.size xs) (hpos : ∀ x ∈ xs, 0 ≤ x.lastPos)
    (hrest : ∀ x ∈ xs, ∀ id ∈ x.ids.tail, (m.cells id.toNat).tail = .none) (ht : Track zero R E m) :
    ∃ m', m.placeSets xs = some (true, m') ∧ Inv m' ∧ m'.size = m.size ∧
      (∀ i (h : i < xs.length), m'.readStates zero R i = E xs[i].first) ∧
      (∀ s < m.size, (∀ x ∈ xs, s ∉ x.seqs) →
        ((m'.cells s).tail = .none ↔ (m.cells s).tail = .none)) ∧
      ∀ stored, Track zero (m'.storeStates zero R xs.length stored)
        (placedStates xs stored E) m' := by
  obtain ⟨m', hplace, hinv, hsize⟩ := placeSets_spec h hxs hpos hrest
  refine ⟨m', hplace, hinv, hsize, ?_⟩
  obtain ⟨r, π, m2, hg⟩ := exists_gathered h hxs hpos hrest
  obtain ⟨F, hl2, -⟩ := hg.linked
  have hdisj := hxs.disjoint_seqs
  obtain ⟨hsize3, hsrc3, -⟩ := placeAll_spec xs m2 r.min F hl2 hdisj hg.ready
  obtain ⟨m4, hstage, rfl⟩ := hg.placeSets hplace
  have htrack := hg.track h hxs ht
  obtain ⟨hread, hrows⟩ := hg.placed zero R hstage hsrc3 hsize3
  have hlen := hg.length_le
  have hmax := hg.max_lt
  have htail := fun s => stage_tail hstage s
  have hcell : ∀ i < xs.length, r.min + i < m.size := by
    intro i hi
    omega
  refine ⟨?_, ?_, ?_⟩
  · intro i hi
    have hfirst := (hg.ready i hi).first
    rw [Memory.readStates, Memory.sCopy]
    exact (hread (r.min + i) (hcell i hi) (by omega) (by omega)).trans
      (htrack.tail _ (hg.size ▸ hxs.seqs_lt (getElem_mem hi) hfirst.1) _ hfirst.2)
  · intro s hs hno
    have hnot : s ∉ xs.map SetInfo.first := by
      intro hmem
      obtain ⟨x, hx, rfl⟩ := mem_map.mp hmem
      exact hno x hx (first_mem_seqs (hxs.ids_ne x hx))
    change (m4.cells s).tail = .none ↔ _
    rw [htail, (placeAll_tail xs m2 r.min s hdisj).2 hno,
      hg.moved.tail s (by rw [← hg.moved.size, hg.size]; exact hs), Option.map_eq_none_iff,
      hg.tail s hnot]
  intro stored
  -- the cells of the sets belong to their sequences, before and after
  have hother : ∀ s < m.size, (∀ x ∈ xs, s ∉ x.seqs) → ∀ c, (m2.cells s).tail = some c →
      ∀ i < xs.length, c ≠ r.min + i := by
    rintro s hs hno c hc i hi rfl
    have halone := (hg.ready i hi).alone s (hg.size.symm ▸ hs) hc
    apply hno _ (getElem_mem hi)
    rw [halone]
    exact (hg.ready i hi).first.1
  have hset : ∀ s < m.size, (∀ x ∈ xs, s ∉ x.seqs) ∨
      ∃ i, ∃ hi : i < xs.length, s ∈ xs[i].seqs := by
    intro s _
    by_cases hs : ∃ x ∈ xs, s ∈ x.seqs
    · obtain ⟨x, hx, hsx⟩ := hs
      obtain ⟨i, hi, rfl⟩ := getElem_of_mem hx
      exact .inr ⟨i, hi, hsx⟩
    · push Not at hs
      exact .inl hs
  constructor
  · intro s hs c hc
    rw [hsize] at hs
    change (m4.cells s).tail = some c at hc
    rw [htail] at hc
    obtain ⟨hin, hout⟩ := placeAll_tail xs m2 r.min s hdisj
    rcases hset s hs with hno | ⟨i, hi, hsi⟩
    · rw [hout hno] at hc
      rw [placedStates_of_notMem hno, ← htrack.tail s (hg.size.symm ▸ hs) c hc]
      apply hrows stored c _ (hother s hs hno c hc)
      rw [← hg.size]
      exact hl2.tail_lt s (hg.size.symm ▸ hs) c hc
    · rw [hin i hi hsi] at hc
      cases hc
      rw [placedStates_of_mem hdisj hi hsi, Memory.load]
      change (match (m4.cells (r.min + i)).src with
        | .none => zero
        | some k => _) = _
      rw [((stage_cells hstage).2.1 (r.min + i) (by omega) (by omega)).1]
      dsimp only
      rw [Memory.storeStates, if_pos (by dsimp only; omega)]
      dsimp only
      rw [Nat.add_sub_cancel_left]
  · intro s hs hn
    rw [hsize] at hs
    change (m4.cells s).tail = .none at hn
    rw [htail] at hn
    obtain ⟨hin, hout⟩ := placeAll_tail xs m2 r.min s hdisj
    rcases hset s hs with hno | ⟨i, hi, hsi⟩
    · rw [hout hno] at hn
      rw [placedStates_of_notMem hno]
      exact htrack.none s (hg.size.symm ▸ hs) hn
    · rw [hin i hi hsi] at hn
      cases hn
  · intro c hc hfree
    rw [hsize] at hc
    have hnot : ∀ i < xs.length, c ≠ r.min + i := by
      rintro i hi rfl
      have hfirst := (hg.ready i hi).first.1
      apply hfree _ (hsize.symm ▸ hxs.seqs_lt (getElem_mem hi) hfirst)
      exact (htail _).trans ((placeAll_tail xs m2 r.min _ hdisj).1 i hi hfirst)
    refine (hrows stored c hc hnot).trans (htrack.free c (hg.size.symm ▸ hc) fun s hs hsc => ?_)
    rw [hg.size] at hs
    obtain ⟨hin, hout⟩ := placeAll_tail xs m2 r.min s hdisj
    rcases hset s hs with hno | ⟨i, hi, hsi⟩
    · exact hfree s (hsize.symm ▸ hs) ((htail s).trans ((hout hno).trans hsc))
    · by_cases hf : s = xs[i].first
      · rw [hf, (hg.ready i hi).first.2] at hsc
        exact hnot i hi (Option.some.inj hsc).symm
      · rw [(hg.ready i hi).rest s hsi hf] at hsc
        cases hsc

end Llama.Recurrent
