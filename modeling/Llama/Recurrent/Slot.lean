import Llama.Recurrent.Find

/-!
# `find_slot` keeps the invariant

After a cell was found for every set, the cells are gathered by swaps, each swap renames the two
cells in all tails, and the sets are written. No assertion fails on the way.
-/

namespace Llama.Recurrent

open List hiding Disjoint

variable {m : Memory} {F done : Finset Nat}

/-- The cells of `m'` are those of `m` in another order, with the tails renamed. -/
structure Moved (π : Equiv.Perm Nat) (m m' : Memory) : Prop where
  size : m'.size = m.size
  lt_iff : ∀ c, π c < m.size ↔ c < m.size
  tail : ∀ r < m.size, (m'.cells r).tail = ((m.cells r).tail).map π
  cell : ∀ c < m.size, (m'.cells (π c)).seqId = (m.cells c).seqId ∧
    (m'.cells (π c)).pos = (m.cells c).pos ∧ (m'.cells (π c)).src = (m.cells c).src

theorem Moved.refl (m : Memory) : Moved (Equiv.refl Nat) m m :=
  ⟨rfl, fun _ => Iff.rfl, fun r _ => by simp, fun _ _ => ⟨rfl, rfl, rfl⟩⟩

theorem Moved.trans {π ρ : Equiv.Perm Nat} {m1 m2 m3 : Memory} (h1 : Moved π m1 m2)
    (h2 : Moved ρ m2 m3) : Moved (π.trans ρ) m1 m3 := by
  refine ⟨h2.size.trans h1.size, fun c => ?_, fun r hr => ?_, fun c hc => ?_⟩
  · have := h2.lt_iff (π c)
    rw [h1.size] at this
    exact this.trans (h1.lt_iff c)
  · rw [h2.tail r (h1.size.symm ▸ hr), h1.tail r hr, Option.map_map]
    rfl
  · have hlt : π c < m2.size := by
      rw [h1.size]
      exact (h1.lt_iff c).mpr hc
    obtain ⟨a1, a2, a3⟩ := h2.cell (π c) hlt
    obtain ⟨b1, b2, b3⟩ := h1.cell c hc
    exact ⟨a1.trans b1, a2.trans b2, a3.trans b3⟩

variable {π : Equiv.Perm Nat} {m' : Memory} {c s n : Nat} {x : SetInfo} {xs : List SetInfo}
  {I : Memory → Prop}

theorem Moved.exists_src (h : Moved π m m') (hc : c < m.size) : ∃ d < m.size, c = π d :=
  ⟨π.symm c, (h.lt_iff _).mp (by simpa using hc), by simp⟩

theorem Moved.tail_eq (h : Moved π m m') {r : Nat} (hr : r < m.size) :
    (m'.cells r).tail = some (π c) ↔ (m.cells r).tail = some c := by
  rw [h.tail r hr]
  cases (m.cells r).tail with
  | none => simp
  | some d => simp

theorem Linked.moved (h : Linked F m) (hm : Moved π m m') : Linked F m' where
  mem_iff s c hc := by
    rw [hm.size] at hc ⊢
    obtain ⟨d, hd, rfl⟩ := hm.exists_src hc
    rw [(hm.cell d hd).1, h.mem_iff s d hd]
    refine and_congr_right fun hs => ?_
    rw [hm.tail_eq hs]
  tail_lt s hs c ht := by
    rw [hm.size] at hs ⊢
    rw [hm.tail s hs] at ht
    obtain ⟨d, hd, rfl⟩ := Option.map_eq_some_iff.mp ht
    exact (hm.lt_iff d).mpr (h.tail_lt s hs d hd)
  pos_iff c hc := by
    rw [hm.size] at hc
    obtain ⟨d, hd, rfl⟩ := hm.exists_src hc
    rw [(hm.cell d hd).1, (hm.cell d hd).2.1]
    exact h.pos_iff d hd
  pos_ge c hc := by
    rw [hm.size] at hc
    obtain ⟨d, hd, rfl⟩ := hm.exists_src hc
    rw [(hm.cell d hd).2.1]
    exact h.pos_ge d hd

theorem swap_moved {dst src : Nat} (hdst : dst < m.size) (hsrc : src < m.size)
    (hne : dst ≠ src) : Moved (Equiv.swap dst src) m (m.swap dst src) := by
  have hcell : ∀ c < m.size, ((m.swap dst src).cells c).tail =
        ((m.cells c).tail).map (Equiv.swap dst src) ∧
      ((m.swap dst src).cells c).seqId = (m.cells (Equiv.swap dst src c)).seqId ∧
      ((m.swap dst src).cells c).pos = (m.cells (Equiv.swap dst src c)).pos ∧
      ((m.swap dst src).cells c).src = (m.cells (Equiv.swap dst src c)).src := by
    intro c hc
    have htail : (((m.modify dst fun x => { x with
          pos := (m.cells src).pos, src := (m.cells src).src, seqId := (m.cells src).seqId }).modify
        src fun y => { y with
          pos := (m.cells dst).pos, src := (m.cells dst).src
          seqId := (m.cells dst).seqId }).cells c).tail = (m.cells c).tail := by
      simp only [Memory.modify_cells]
      by_cases h1 : c = src
      · subst h1
        simp [hne.symm]
      · by_cases h2 : c = dst
        · subst h2
          simp [hne]
        · simp [h1, h2]
    refine ⟨?_, ?_⟩
    · simp only [Memory.swap, Memory.modify_size, if_pos hc, htail]
      cases ht : (m.cells c).tail with
      | none => simp
      | some t =>
        rw [Option.map_some, Equiv.swap_apply_def]
        by_cases h1 : t = src
        · subst h1
          simp [hne.symm]
        · by_cases h2 : t = dst
          · subst h2
            simp [hne]
          · simp [h1, h2]
    · simp only [Memory.swap, Memory.modify_size, if_pos hc, Memory.modify_cells]
      by_cases h1 : c = src
      · subst h1
        simp
      · by_cases h2 : c = dst
        · subst h2
          simp [hne]
        · simp [h1, h2, Equiv.swap_apply_of_ne_of_ne h2 h1]
  have hlt : ∀ c, Equiv.swap dst src c < m.size ↔ c < m.size := by
    intro c
    rw [Equiv.swap_apply_def]
    split
    · rename_i he
      subst he
      exact iff_of_true hsrc hdst
    · split
      · rename_i he
        subst he
        exact iff_of_true hdst hsrc
      · rfl
  refine ⟨rfl, hlt, fun r hr => (hcell r hr).1, fun c hc => ?_⟩
  have := (hcell (Equiv.swap dst src c) ((hlt c).mpr hc)).2
  rwa [Equiv.swap_apply_self] at this

/-- The sequences have cells of their own from `lo` to `hi`. -/
def Memory.Own (m : Memory) (lo hi : Nat) (ss : List Nat) : Prop :=
  ∀ s ∈ ss, s < m.size ∧ ∃ c, (m.cells s).tail = some c ∧ lo ≤ c ∧ c ≤ hi ∧
    ∀ r < m.size, (m.cells r).tail = some c → r = s

/-- Gathering puts the cells of the sequences next to each other. -/
theorem gather_spec {hi : Nat} : ∀ (ss : List Nat) (m : Memory) (dst : Nat), m.Own dst hi ss →
    ss.Nodup → hi < m.size → Linked F m → dst + ss.length ≤ hi + 1 →
    ∃ m' π, m.gather dst ss = some m' ∧ Moved π m m' ∧
      (∀ c, c < dst ∨ hi < c → π c = c) ∧
      ∀ i (h : i < ss.length), (m'.cells ss[i]).tail = some (dst + i) := by
  intro ss
  induction ss with
  | nil =>
    intro m dst _ _ _ _ _
    exact ⟨m, Equiv.refl Nat, rfl, Moved.refl m, fun _ _ => rfl, fun i h => by simp at h⟩
  | cons s ss ih =>
    intro m dst hown hnd hhi hl hlen
    obtain ⟨hs, src, hst, hlo, hle, huniq⟩ := hown s mem_cons_self
    obtain ⟨hnot, hnd'⟩ := nodup_cons.mp hnd
    rw [length_cons] at hlen
    have hdst : dst < m.size := by omega
    have hsrc : src < m.size := by omega
    -- one swap, unless the cell is there already
    obtain ⟨m1, π1, hm1, hmoved1, hfix1, hst1, hother1⟩ : ∃ m1 π1,
        (if dst ≠ src then m.swap dst src else m) = m1 ∧ Moved π1 m m1 ∧
        (∀ c, c < dst ∨ hi < c → π1 c = c) ∧ π1 src = dst ∧
        ∀ c, c ≠ src → dst ≤ c → c ≤ hi → dst + 1 ≤ π1 c ∧ π1 c ≤ hi := by
      by_cases he : dst = src
      · subst he
        refine ⟨m, Equiv.refl Nat, by simp, Moved.refl m, fun _ _ => rfl, rfl, fun c h1 h2 h3 => ?_⟩
        simp only [Equiv.refl_apply]
        omega
      · refine ⟨m.swap dst src, Equiv.swap dst src, by simp [he], swap_moved hdst hsrc he,
          fun c hc => ?_, Equiv.swap_apply_right dst src, fun c h1 h2 h3 => ?_⟩
        · rw [Equiv.swap_apply_of_ne_of_ne] <;> omega
        · rw [Equiv.swap_apply_def]
          split <;> omega
    have hown1 : m1.Own (dst + 1) hi ss := by
      intro q hq
      obtain ⟨hqs, c, hqc, h1, h2, hquniq⟩ := hown q (mem_cons_of_mem s hq)
      have hne : c ≠ src := by
        rintro rfl
        exact hnot (huniq q hqs hqc ▸ hq)
      obtain ⟨h3, h4⟩ := hother1 c hne h1 h2
      refine ⟨hmoved1.size.symm ▸ hqs, π1 c, (hmoved1.tail_eq hqs).mpr hqc, h3, h4,
        fun r hr hrt => ?_⟩
      rw [hmoved1.size] at hr
      exact hquniq r hr ((hmoved1.tail_eq hr).mp hrt)
    obtain ⟨m2, π2, h2, hmoved2, hfix2, hplace2⟩ := ih m1 (dst + 1) hown1 hnd'
      (by rw [hmoved1.size]; exact hhi) (hl.moved hmoved1) (by omega)
    refine ⟨m2, π1.trans π2, ?_, hmoved1.trans hmoved2, fun c hc => ?_, fun i hi' => ?_⟩
    · rw [Memory.gather, hst]
      dsimp only
      rw [if_pos hdst, hm1, h2]
    · rw [Equiv.trans_apply, hfix1 c hc, hfix2 c (by omega)]
    · cases i with
      | zero =>
        have h3 : (m1.cells s).tail = some dst := by
          rw [← hst1]
          exact (hmoved1.tail_eq hs).mpr hst
        have h4 := (hmoved2.tail_eq (c := dst) (hmoved1.size.symm ▸ hs)).mpr h3
        rw [hfix2 dst (by omega)] at h4
        simpa using h4
      | succ i =>
        have := hplace2 i (by simpa using hi')
        rw [getElem_cons_succ, this]
        congr 1
        omega

def SetInfo.seqs (x : SetInfo) : Finset Nat := (x.ids.map Int.toNat).toFinset

theorem mem_seqs : s ∈ x.seqs ↔ ∃ id ∈ x.ids, id.toNat = s := by
  simp [SetInfo.seqs]

theorem placeIds_cells (c : Nat) : ∀ (ids : List Int) (m : Memory) (j : Nat),
    let m' := ids.foldl (fun m id => (m.modify c fun y =>
      { y with seqId := insert id.toNat y.seqId }).modify id.toNat fun y =>
      { y with tail := some c }) m
    m'.size = m.size ∧ (m'.cells j).pos = (m.cells j).pos ∧ (m'.cells j).src = (m.cells j).src ∧
    (m'.cells j).tail = (if j ∈ ids.map Int.toNat then some c else (m.cells j).tail) ∧
    (m'.cells j).seqId = if j = c then (ids.map Int.toNat).toFinset ∪ (m.cells j).seqId
      else (m.cells j).seqId := by
  intro ids
  induction ids with
  | nil =>
    intro m j
    simp
  | cons id ids ih =>
    intro m j
    have hone : ∀ j, (((m.modify c fun y => { y with seqId := insert id.toNat y.seqId }).modify
          id.toNat fun y => { y with tail := some c }).cells j).pos = (m.cells j).pos ∧
        (((m.modify c fun y => { y with seqId := insert id.toNat y.seqId }).modify
          id.toNat fun y => { y with tail := some c }).cells j).src = (m.cells j).src ∧
        (((m.modify c fun y => { y with seqId := insert id.toNat y.seqId }).modify
          id.toNat fun y => { y with tail := some c }).cells j).tail =
            (if j = id.toNat then some c else (m.cells j).tail) ∧
        (((m.modify c fun y => { y with seqId := insert id.toNat y.seqId }).modify
          id.toNat fun y => { y with tail := some c }).cells j).seqId =
            if j = c then insert id.toNat (m.cells j).seqId else (m.cells j).seqId := by
      intro j
      simp only [Memory.modify_cells]
      by_cases h1 : j = id.toNat
      · subst h1
        by_cases h2 : id.toNat = c
        · simp [h2]
        · simp [h2]
      · by_cases h2 : j = c
        · subst h2
          simp [h1]
        · simp [h1, h2]
    obtain ⟨h0, h1, h2, h3, h4⟩ := ih ((m.modify c fun y =>
      { y with seqId := insert id.toNat y.seqId }).modify id.toNat fun y =>
        { y with tail := some c }) j
    obtain ⟨g1, g2, g3, g4⟩ := hone j
    simp only [foldl_cons]
    refine ⟨h0, h1.trans g1, h2.trans g2, ?_, ?_⟩
    · rw [h3, g3]
      by_cases hj : j ∈ ids.map Int.toNat
      · simp only [map_cons, mem_cons, hj, or_true, if_true]
      · simp only [map_cons, mem_cons, hj, or_false, if_false]
    · rw [h4, g4]
      split
      · rw [map_cons, toFinset_cons, Finset.union_insert, Finset.insert_union]
      · rfl

theorem place_cells (m : Memory) (c : Nat) (x : SetInfo) (j : Nat) :
    (m.place c x).size = m.size ∧ ((m.place c x).cells j).src = (m.cells j).src ∧
    ((m.place c x).cells j).pos = (if j = c then x.lastPos else (m.cells j).pos) ∧
    ((m.place c x).cells j).tail = (if j ∈ x.seqs then some c else (m.cells j).tail) ∧
    ((m.place c x).cells j).seqId = if j = c then x.seqs else (m.cells j).seqId := by
  obtain ⟨h0, h1, h2, h3, h4⟩ := placeIds_cells c x.ids
    (m.modify c fun y => { y with pos := x.lastPos, seqId := ∅ }) j
  have hbase : ∀ j, ((m.modify c fun y => { y with pos := x.lastPos, seqId := ∅ }).cells j).src =
        (m.cells j).src ∧
      ((m.modify c fun y => { y with pos := x.lastPos, seqId := ∅ }).cells j).tail =
        (m.cells j).tail ∧
      ((m.modify c fun y => { y with pos := x.lastPos, seqId := ∅ }).cells j).pos =
        (if j = c then x.lastPos else (m.cells j).pos) ∧
      ((m.modify c fun y => { y with pos := x.lastPos, seqId := ∅ }).cells j).seqId =
        if j = c then ∅ else (m.cells j).seqId := by
    intro j
    rw [Memory.modify_cells]
    by_cases hj : j = c
    · subst hj
      simp
    · simp [hj]
  obtain ⟨g1, g2, g3, g4⟩ := hbase j
  refine ⟨h0, h2.trans g1, h1.trans g3, ?_, ?_⟩
  · refine h3.trans ?_
    rw [g2]
    simp only [SetInfo.seqs, mem_toFinset]
  · refine h4.trans ?_
    rw [g4]
    split
    · rw [Finset.union_empty]
      rfl
    · rfl

/-- The cell of the first sequence of a set is ready for the set. -/
structure Memory.Ready (m : Memory) (c : Nat) (x : SetInfo) : Prop where
  lt : c < m.size
  first : x.first ∈ x.seqs ∧ (m.cells x.first).tail = some c
  alone : ∀ r < m.size, (m.cells r).tail = some c → r = x.first
  rest : ∀ s ∈ x.seqs, s ≠ x.first → (m.cells s).tail = none
  seqs_lt : ∀ s ∈ x.seqs, s < m.size
  pos : 0 ≤ x.lastPos

theorem Linked.place (h : Linked F m) (hr : m.Ready c x) : Linked (F \ x.seqs) (m.place c x) where
  mem_iff s d hd := by
    rw [(place_cells m c x s).1] at hd ⊢
    rw [(place_cells m c x d).2.2.2.2, (place_cells m c x s).2.2.2.1, Finset.mem_sdiff]
    by_cases hs : s ∈ x.seqs
    · rw [if_pos hs, Option.some.injEq]
      by_cases hdc : d = c
      · subst hdc
        simp [hs, hr.seqs_lt s hs]
      · rw [if_neg hdc]
        refine iff_of_false (fun hmem => ?_) fun hn => hdc hn.2.1.symm
        have ht := h.tail_of_mem hd hmem
        by_cases hf : s = x.first
        · subst hf
          rw [hr.first.2] at ht
          exact hdc (Option.some.inj ht).symm
        · rw [hr.rest s hs hf] at ht
          cases ht
    · rw [if_neg hs]
      by_cases hdc : d = c
      · subst hdc
        rw [if_pos rfl]
        refine iff_of_false hs fun hn => ?_
        exact hs (hr.alone s hn.1 hn.2.1 ▸ hr.first.1)
      · rw [if_neg hdc, h.mem_iff s d hd]
        simp [hs]
  tail_lt s hs d ht := by
    rw [(place_cells m c x s).1] at hs ⊢
    rw [(place_cells m c x s).2.2.2.1] at ht
    split at ht
    · cases ht
      exact hr.lt
    · exact h.tail_lt s hs d ht
  pos_iff d hd := by
    rw [(place_cells m c x d).1] at hd
    rw [(place_cells m c x d).2.2.1, (place_cells m c x d).2.2.2.2]
    split
    · have := hr.pos
      exact iff_of_false (by omega) (Finset.ne_empty_of_mem hr.first.1)
    · exact h.pos_iff d hd
  pos_ge d hd := by
    rw [(place_cells m c x d).1] at hd
    rw [(place_cells m c x d).2.2.1]
    split
    · have := hr.pos
      omega
    · exact h.pos_ge d hd

/-- Writing one set leaves the cells of the others ready. -/
theorem Memory.Ready.place {d : Nat} {y : SetInfo} (h : m.Ready d y) (hcd : d ≠ c)
    (hdisj : Disjoint x.seqs y.seqs) : (m.place c x).Ready d y := by
  have hnot : ∀ s ∈ y.seqs, s ∉ x.seqs := fun s hy hx => Finset.disjoint_left.mp hdisj hx hy
  refine ⟨?_, ⟨h.first.1, ?_⟩, fun r hr hrt => ?_, fun s hs hne => ?_, fun s hs => ?_, h.pos⟩
  · rw [(place_cells m c x d).1]
    exact h.lt
  · rw [(place_cells m c x _).2.2.2.1, if_neg (hnot _ h.first.1), h.first.2]
  · rw [(place_cells m c x r).1] at hr
    rw [(place_cells m c x r).2.2.2.1] at hrt
    split at hrt
    · cases hrt
      exact (hcd rfl).elim
    · exact h.alone r hr hrt
  · rw [(place_cells m c x s).2.2.2.1, if_neg (hnot s hs), h.rest s hs hne]
  · rw [(place_cells m c x s).1]
    exact h.seqs_lt s hs

theorem placeAll_spec : ∀ (xs : List SetInfo) (m : Memory) (c : Nat) (F : Finset Nat), Linked F m →
    xs.Pairwise (fun x y => Disjoint x.seqs y.seqs) →
    (∀ i (h : i < xs.length), m.Ready (c + i) xs[i]) →
    (m.placeAll c xs).size = m.size ∧ (∀ d, ((m.placeAll c xs).cells d).src = (m.cells d).src) ∧
    ∃ F', Linked F' (m.placeAll c xs) ∧ ∀ s, s ∈ F' ↔ s ∈ F ∧ ∀ x ∈ xs, s ∉ x.seqs := by
  intro xs
  induction xs with
  | nil =>
    intro m c F h _ _
    exact ⟨rfl, fun _ => rfl, F, h, by simp⟩
  | cons x xs ih =>
    intro m c F h hdisj hready
    obtain ⟨hx, hdisj'⟩ := pairwise_cons.mp hdisj
    have hx0 : m.Ready c x := by
      have := hready 0 (by simp)
      simpa using this
    obtain ⟨h1, h2, F', h3, h4⟩ := ih (m.place c x) (c + 1) (F \ x.seqs) (h.place hx0) hdisj'
      fun i hi => by
        have hr := hready (i + 1) (by simpa using hi)
        rw [getElem_cons_succ] at hr
        have hr' := hr.place (c := c) (x := x) (by omega) (hx _ (getElem_mem hi))
        rwa [show c + 1 + i = c + (i + 1) by omega]
    rw [Memory.placeAll]
    refine ⟨h1.trans (place_cells m c x 0).1, fun d => ?_, F', h3, fun s => ?_⟩
    · rw [h2, (place_cells m c x d).2.1]
    · rw [h4, Finset.mem_sdiff]
      simp only [mem_cons, forall_eq_or_imp]
      tauto

/-- The sources allow to find a cell for the zeroed state. -/
theorem stage_spec {min max : Nat}
    (hout : ∀ c < m.size, c < min ∨ max < c → (m.cells c).src = none ∨ (m.cells c).src = some c) :
    ∃ m', m.stage min max = some m' ∧ m'.size = m.size ∧ m'.countUsed = m.countUsed ∧
      (∀ c, (m'.cells c).seqId = (m.cells c).seqId ∧ (m'.cells c).tail = (m.cells c).tail ∧
        (m'.cells c).pos = (m.cells c).pos) ∧
      ∀ c < m.size, (m'.cells c).src = none ∨ (m'.cells c).src = some c := by
  have hrange : ∀ c, c ∈ range' min (max + 1 - min) ↔ min ≤ c ∧ c ≤ max := by
    intro c
    rw [mem_range'_1]
    omega
  have hcond : ((range' min (max + 1 - min)).all fun c => decide ((m.cells c).src ≠ none)) ||
      ((range' min (max + 1 - min)).find? fun c => decide (m.refcount c = 0)).isSome := by
    rw [Bool.or_eq_true, all_eq_true, find?_isSome]
    simp only [decide_eq_true_eq, hrange]
    by_contra hn
    push Not at hn
    obtain ⟨⟨c0, hc0, hsrc0⟩, href⟩ := hn
    -- every cell of the range is the source of a cell of the range, but one has no source
    have hsub : Finset.Icc min max ⊆
        ((Finset.Icc min max).erase c0).image fun c => ((m.cells c).src).getD 0 := by
      intro c hc
      have hc' := Finset.mem_Icc.mp hc
      have hpos := href c hc'
      rw [Memory.refcount, ne_eq, length_eq_zero_iff] at hpos
      obtain ⟨i, hi⟩ := exists_mem_of_ne_nil _ hpos
      rw [mem_filter, mem_range, decide_eq_true_eq] at hi
      have hin : min ≤ i ∧ i ≤ max := by
        by_contra hn
        have := hout i hi.1 (by omega)
        rw [hi.2] at this
        simp only [reduceCtorEq, Option.some.injEq, false_or] at this
        omega
      refine Finset.mem_image.mpr ⟨i, Finset.mem_erase.mpr ⟨?_, Finset.mem_Icc.mpr hin⟩, ?_⟩
      · rintro rfl
        rw [hsrc0] at hi
        cases hi.2
      · rw [hi.2, Option.getD_some]
    have hcard := (Finset.card_le_card hsub).trans Finset.card_image_le
    have hmem : c0 ∈ Finset.Icc min max := Finset.mem_Icc.mpr hc0
    rw [Finset.card_erase_of_mem hmem] at hcard
    have := Finset.card_pos.mpr ⟨c0, hmem⟩
    omega
  rw [Memory.stage]
  dsimp only
  rw [if_pos hcond]
  refine ⟨_, rfl, rfl, ?_, fun c => ?_, fun c hc => ?_⟩
  · refine countUsed_congr rfl fun c _ => ?_
    dsimp only
    split <;> rfl
  · dsimp only
    split <;> exact ⟨rfl, rfl, rfl⟩
  · dsimp only
    split
    · exact .inr rfl
    · rename_i hn
      rw [hrange] at hn
      exact hout c hc (by omega)

/-- Sequence sets that `find_slot` can place: not empty, with sequences of the memory, and
disjoint. -/
structure SetsOk (n : Nat) (xs : List SetInfo) : Prop where
  ne_nil : xs ≠ []
  ids_ne : ∀ x ∈ xs, x.ids ≠ []
  range : ∀ x ∈ xs, ∀ id ∈ x.ids, 0 ≤ id ∧ id < n
  disjoint : xs.Pairwise fun x y => ∀ id ∈ x.ids, id ∉ y.ids

theorem first_mem_seqs (h : x.ids ≠ []) : x.first ∈ x.seqs := by
  obtain ⟨id, ids, he⟩ := exists_cons_of_ne_nil h
  exact mem_seqs.mpr ⟨id, by simp [he], by simp [SetInfo.first, he]⟩

theorem SetsOk.disjoint_seqs (h : SetsOk n xs) : xs.Pairwise fun x y => Disjoint x.seqs y.seqs := by
  refine h.disjoint.imp_of_mem fun {x y} hx hy hd => Finset.disjoint_left.mpr fun s hsx hsy => ?_
  obtain ⟨i, hi, rfl⟩ := mem_seqs.mp hsx
  obtain ⟨j, hj, he⟩ := mem_seqs.mp hsy
  have h1 := h.range x hx i hi
  have h2 := h.range y hy j hj
  obtain rfl : j = i := by omega
  exact hd j hi hj

theorem SetsOk.seqs_lt (h : SetsOk n xs) (hx : x ∈ xs) (hs : s ∈ x.seqs) : s < n := by
  obtain ⟨i, hi, rfl⟩ := mem_seqs.mp hs
  have := h.range x hx i hi
  omega

theorem SetsOk.first_nodup (h : SetsOk n xs) : (xs.map SetInfo.first).Nodup := by
  rw [Nodup, pairwise_map]
  refine h.disjoint_seqs.imp_of_mem fun {x y} hx hy hd he => ?_
  refine Finset.disjoint_left.mp hd (first_mem_seqs (h.ids_ne x hx)) ?_
  rw [he]
  exact first_mem_seqs (h.ids_ne y hy)

/-- What the first loop of `find_slot` has done to the memory. -/
structure Released (m m' : Memory) : Prop where
  inv : Inv m'
  size : m'.size = m.size
  tail : ∀ s, (m.cells s).tail = none → (m'.cells s).tail = none

/-- Releasing sequences keeps what every single release keeps, and exactly the listed sequences
lose their tails. -/
theorem releaseIds_keeps (hI : ∀ m s, I m → s < m.size → I (m.release s)) :
    ∀ (ids : List Int) (later : Bool) (m : Memory), I m → (∀ id ∈ ids, 0 ≤ id ∧ id < m.size) →
    ∃ m', releaseIds ids later m = (true, m') ∧ I m' ∧ m'.size = m.size ∧
      ∀ s, (m'.cells s).tail = if s ∈ (if later then ids else ids.tail).map Int.toNat then none
        else (m.cells s).tail := by
  intro ids
  induction ids with
  | nil =>
    intro later m h _
    exact ⟨m, rfl, h, rfl, fun s => by simp⟩
  | cons id ids ih =>
    intro later m h hids
    have hid := hids id mem_cons_self
    obtain ⟨m1, hm1, h1, hsize, htail⟩ : ∃ m1, (if later then m.release id.toNat else m) = m1 ∧
        I m1 ∧ m1.size = m.size ∧ ∀ s, (m1.cells s).tail =
          if later = true ∧ s = id.toNat then none else (m.cells s).tail := by
      cases later with
      | true => exact ⟨_, rfl, hI m _ h (by omega), release_size, fun s => by simp [release_tail]⟩
      | false => exact ⟨m, rfl, h, rfl, fun s => by simp⟩
    obtain ⟨m2, h2, hI2, hsize2, htail2⟩ := ih true m1 h1 fun i hi => by
      rw [hsize]
      exact hids i (mem_cons_of_mem id hi)
    refine ⟨m2, ?_, hI2, hsize2.trans hsize, fun s => ?_⟩
    · rw [releaseIds, if_neg (by omega), hm1, h2]
    · rw [htail2, htail, if_pos rfl]
      cases later with
      | true =>
        simp only [true_and, if_true, map_cons, mem_cons]
        by_cases hs : s ∈ ids.map Int.toNat
        · simp only [hs, or_true, if_true]
        · simp only [hs, or_false, if_false]
      | false => simp

theorem releaseSets_keeps (hI : ∀ m s, I m → s < m.size → I (m.release s)) :
    ∀ (xs : List SetInfo) (m : Memory), I m →
    (∀ x ∈ xs, ∀ id ∈ x.ids, 0 ≤ id ∧ id < m.size) →
    ∃ m', releaseSets xs m = (true, m') ∧ I m' ∧ m'.size = m.size ∧
      (∀ x ∈ xs, ∀ id ∈ x.ids.tail, (m'.cells id.toNat).tail = none) ∧
      (∀ s, (m.cells s).tail = none → (m'.cells s).tail = none) ∧
      ∀ s, (∀ x ∈ xs, s ∉ x.ids.tail.map Int.toNat) → (m'.cells s).tail = (m.cells s).tail := by
  intro xs
  induction xs with
  | nil =>
    intro m h _
    exact ⟨m, rfl, h, rfl, by simp, fun _ hs => hs, fun _ _ => rfl⟩
  | cons x xs ih =>
    intro m h hxs
    obtain ⟨m1, h1, hI1, hsize1, htail1⟩ :=
      releaseIds_keeps hI x.ids false m h (hxs x mem_cons_self)
    obtain ⟨m2, h2, hI2, hsize2, hlater2, hnone2, hsame2⟩ := ih m1 hI1 fun y hy id hid => by
      rw [hsize1]
      exact hxs y (mem_cons_of_mem x hy) id hid
    simp only [Bool.false_eq_true, if_false] at htail1
    refine ⟨m2, ?_, hI2, hsize2.trans hsize1, fun y hy id hid => ?_, fun s hs => ?_, fun s hs => ?_⟩
    · rw [releaseSets, h1]
      exact h2
    · rcases mem_cons.mp hy with rfl | hy
      · exact hnone2 _ (by rw [htail1, if_pos (mem_map_of_mem hid)])
      · exact hlater2 y hy id hid
    · apply hnone2
      rw [htail1, hs, ite_self]
    · rw [hsame2 s fun y hy => hs y (mem_cons_of_mem x hy), htail1, if_neg (hs x mem_cons_self)]

theorem releaseSets_spec (xs : List SetInfo) (m : Memory) (h : Inv m)
    (hxs : ∀ x ∈ xs, ∀ id ∈ x.ids, 0 ≤ id ∧ id < m.size) : ∃ m', releaseSets xs m = (true, m') ∧
      Released m m' ∧ ∀ x ∈ xs, ∀ id ∈ x.ids.tail, (m'.cells id.toNat).tail = none := by
  obtain ⟨m', h1, hinv, hsize, hlater, hnone, -⟩ :=
    releaseSets_keeps (fun m s hm hs => release_inv hm hs) xs m h hxs
  exact ⟨m', h1, ⟨hinv, hsize, hnone⟩, hlater⟩

/-- The sequences of a set besides the first one are released, or stand there twice. -/
theorem tail_none_of_released (h : ∀ id ∈ x.ids.tail, (m.cells id.toNat).tail = none)
    (hs : s ∈ x.seqs) (hne : s ≠ x.first) : (m.cells s).tail = none := by
  obtain ⟨id, hid, rfl⟩ := mem_seqs.mp hs
  cases hx : x.ids with
  | nil => simp [hx] at hid
  | cons i ids =>
    rw [hx] at hid h
    rcases mem_cons.mp hid with rfl | hid
    · exact (hne (by simp [SetInfo.first, hx])).elim
    · exact h id hid

/-- The cells of the sets have been found, in the range `r`, and gathered. -/
structure Gathered (m : Memory) (xs : List SetInfo) (r : Range) (π : Equiv.Perm Nat)
    (m2 : Memory) : Prop where
  find : Range.find { m := m, next := m.firstEmpty m.size m.head, min := m.size - 1, max := 0 }
    (xs.map SetInfo.first) = some r
  gather : r.m.gather r.min (xs.map SetInfo.first) = some m2
  tail : ∀ s ∉ xs.map SetInfo.first, (r.m.cells s).tail = (m.cells s).tail
  moved : Moved π r.m m2
  fix : ∀ c, c < r.min ∨ r.max < c → π c = c
  size : m2.size = m.size
  max_lt : r.max < m.size
  length_le : xs.length ≤ r.max + 1 - r.min
  ready : ∀ i (h : i < xs.length), m2.Ready (r.min + i) xs[i]
  linked : ∃ F, Linked F m2 ∧ ∀ s ∈ F, ∃ x ∈ xs, s ∈ x.seqs
  src : ∀ c < m.size, c < r.min ∨ r.max < c → (m2.cells c).src = none ∨ (m2.cells c).src = some c

section

variable (h : Inv m) (hxs : SetsOk m.size xs) (hpos : ∀ x ∈ xs, 0 ≤ x.lastPos)
  (hrest : ∀ x ∈ xs, ∀ id ∈ x.ids.tail, (m.cells id.toNat).tail = none)
include h hxs hpos hrest

theorem exists_gathered : ∃ r π m2, Gathered m xs r π m2 := by
  have hnd := hxs.first_nodup
  have hfirst : ∀ s ∈ xs.map SetInfo.first, ∃ x ∈ xs, s = x.first ∧ s ∈ x.seqs := by
    intro s hs
    obtain ⟨x, hx, rfl⟩ := mem_map.mp hs
    exact ⟨x, hx, rfl, first_mem_seqs (hxs.ids_ne x hx)⟩
  have hsize : 0 < m.size := by
    obtain ⟨x, hx⟩ := exists_mem_of_ne_nil xs hxs.ne_nil
    have := hxs.seqs_lt hx (first_mem_seqs (hxs.ids_ne x hx))
    omega
  -- cells of their own
  obtain ⟨r, F, done, hfind, hf, hcov, hdone, htail⟩ := find_spec h.head (xs.map SetInfo.first)
    { m := m, next := m.firstEmpty m.size m.head, min := m.size - 1, max := 0 } ∅ ∅ h.finding
    (fun _ => firstEmpty_seeks h.toLinked h.head)
    ⟨fun s hs => absurd hs (Finset.notMem_empty s), hsize⟩ hnd fun s hs => by
      obtain ⟨x, hx, -, hsx⟩ := hfirst s hs
      exact ⟨hxs.seqs_lt hx hsx, Finset.notMem_empty s⟩
  have hdone' : ∀ s ∈ xs.map SetInfo.first, s ∈ done := fun s hs => (hdone s).mpr (.inr hs)
  have hlen := hcov.length_le hf hnd hdone'
  rw [length_map] at hlen
  have hxpos : 0 < xs.length := length_pos_of_ne_nil hxs.ne_nil
  have hmaxlt := hcov.max_lt
  -- next to each other
  have hown : r.m.Own r.min r.max (xs.map SetInfo.first) := by
    intro s hs
    obtain ⟨c, hc, huniq⟩ := hf.owns s (hdone' s hs)
    obtain ⟨h1, h2⟩ := hcov.mem s (hdone' s hs) c hc
    exact ⟨hf.lt s (hdone' s hs), c, hc, h1, h2, huniq⟩
  obtain ⟨m2, π, hgather, hmoved, hfix, hplace⟩ := gather_spec (xs.map SetInfo.first) r.m r.min hown
    hnd hmaxlt hf.linked (by rw [length_map]; omega)
  have hl2 := hf.linked.moved hmoved
  have hsize2 : m2.size = m.size := hmoved.size.trans hf.size
  have hready : ∀ i (hi : i < xs.length), m2.Ready (r.min + i) xs[i] := by
    intro i hi
    have hx : xs[i] ∈ xs := getElem_mem hi
    have hs : xs[i].first ∈ xs.map SetInfo.first := mem_map_of_mem hx
    have hst : (m2.cells xs[i].first).tail = some (r.min + i) := by
      have := hplace i (by simpa using hi)
      simpa using this
    have hslt := hf.lt _ (hdone' _ hs)
    refine ⟨by rw [hsize2, ← hf.size]; omega, ⟨first_mem_seqs (hxs.ids_ne _ hx), hst⟩,
      fun q hq hqt => ?_, fun s hsx hne => ?_, fun s hsx => ?_, hpos _ hx⟩
    · obtain ⟨c, hc, huniq⟩ := hf.owns _ (hdone' _ hs)
      have hcq : π c = r.min + i := by
        rw [hmoved.tail _ hslt, hc, Option.map_some] at hst
        exact Option.some.inj hst
      rw [hmoved.size] at hq
      rw [← hcq, hmoved.tail_eq hq] at hqt
      exact huniq q hq hqt
    · -- sequences that are not first in any set kept their tails
      have hnot : s ∉ xs.map SetInfo.first := by
        intro hmem
        obtain ⟨y, hy, he, hsy⟩ := hfirst s hmem
        by_cases hxy : y = xs[i]
        · subst hxy
          exact hne he
        · have hsymm : Std.Symm fun x y : SetInfo => Disjoint x.seqs y.seqs :=
            ⟨fun _ _ hd => hd.symm⟩
          have := List.Pairwise.forall hxs.disjoint_seqs hy hx hxy
          exact Finset.disjoint_left.mp this hsy hsx
      have hslt' : s < r.m.size := by
        rw [hf.size]
        exact hxs.seqs_lt hx hsx
      have htl : (r.m.cells s).tail = none :=
        (htail s hnot).trans (tail_none_of_released (hrest _ hx) hsx hne)
      rw [hmoved.tail s hslt', htl, Option.map_none]
    · rw [hsize2]
      exact hxs.seqs_lt hx hsx
  refine ⟨r, π, m2, hfind, hgather, htail, hmoved, hfix, hsize2, hf.size ▸ hmaxlt, hlen, hready,
    ⟨F, hl2, fun s hs => ?_⟩, fun c hc hcr => ?_⟩
  · rcases (hdone s).mp (hf.sub hs) with hd | hd
    · exact absurd hd (Finset.notMem_empty s)
    · obtain ⟨x, hx, -, hsx⟩ := hfirst s hd
      exact ⟨x, hx, hsx⟩
  · rw [← hf.size] at hc
    have hcell := (hmoved.cell c hc).2.2
    rw [hfix c hcr] at hcell
    rw [hcell]
    rcases hf.src c hc with he | he | ⟨⟨s, hs, hst⟩, -⟩
    · exact .inl he
    · exact .inr he
    · have := hcov.mem s hs c hst
      omega

/-- Placing sets succeeds and keeps the invariant. -/
theorem placeSets_spec : ∃ m', m.placeSets xs = some (true, m') ∧ Inv m' ∧ m'.size = m.size := by
  obtain ⟨r, π, m2, hg⟩ := exists_gathered h hxs hpos hrest
  obtain ⟨F, hl2, hF⟩ := hg.linked
  obtain ⟨hsize3, hsrc3, F', hl3, hF'⟩ := placeAll_spec xs m2 r.min F hl2 hxs.disjoint_seqs hg.ready
  have hF0 : F' = ∅ := by
    refine Finset.eq_empty_of_forall_notMem fun s hs => ?_
    obtain ⟨hsF, hnone⟩ := (hF' s).mp hs
    obtain ⟨x, hx, hsx⟩ := hF s hsF
    exact hnone x hx hsx
  rw [hF0] at hl3
  have hout : ∀ c < (m2.placeAll r.min xs).size, c < r.min ∨ r.max < c →
      ((m2.placeAll r.min xs).cells c).src = none ∨
        ((m2.placeAll r.min xs).cells c).src = some c := by
    intro c hc hcr
    rw [hsize3, hg.size] at hc
    rw [hsrc3]
    exact hg.src c hc hcr
  obtain ⟨m4, hstage, hsize4, hcount4, hsame4, hsrc4⟩ := stage_spec hout
  refine ⟨{ m4 with head := r.min, n := r.max + 1 - r.min, used := m4.countUsed }, ?_, ?_, ?_⟩
  · rw [Memory.placeSets]
    simp only [hg.find, hg.gather, hstage, Option.bind_eq_bind, Option.bind_some, Option.pure_def,
      decide_eq_true hg.length_le]
  · have hl4 : Linked ∅ m4 := hl3.congr hsize4 fun c _ => hsame4 c
    refine ⟨hl4.congr rfl fun c _ => ⟨rfl, rfl, rfl⟩, rfl, ?_, fun c hc => ?_⟩
    · change r.min ≤ m4.size
      have := hg.max_lt
      have := hg.length_le
      have := length_pos_of_ne_nil hxs.ne_nil
      rw [hsize4, hsize3, hg.size]
      omega
    · exact hsrc4 c (hsize4 ▸ hc)
  · exact hsize4.trans (hsize3.trans hg.size)

end

/-- A ubatch with equal sets that can be placed. -/
structure UbatchOk {E : Type} (n : Nat) (u : Batch.UBatch E) : Prop where
  equal : u.equalSeqs = true
  sets : SetsOk n (setsOf u)

/-- `find_slot` returns true and keeps the invariant. -/
theorem findSlot_spec {E : Type} {u : Batch.UBatch E} (h : Inv m) (hu : UbatchOk m.size u)
    (hpos : ∀ x ∈ setsOf u, 0 ≤ x.lastPos) :
    ∃ m', m.findSlot u = some (true, m') ∧ Inv m' ∧ m'.size = m.size := by
  obtain ⟨m0, hm0, hinv0, hsize0⟩ : ∃ m0,
      (if m.used + 2 * u.nSeqs < m.head then { m with head := 0 } else m) = m0 ∧ Inv m0 ∧
        m0.size = m.size := by
    refine ⟨_, rfl, ?_, ?_⟩
    · split
      · exact ⟨h.toLinked.congr rfl fun _ _ => ⟨rfl, rfl, rfl⟩, h.used, Nat.zero_le _, h.src⟩
      · exact h
    · split <;> rfl
  obtain ⟨m1, h1, hrel, hrest⟩ := releaseSets_spec (setsOf u) m0 hinv0 (by
    rw [hsize0]
    exact hu.sets.range)
  obtain ⟨m2, h2, hinv2, hsize2⟩ := placeSets_spec hrel.inv
    (by rw [hrel.size, hsize0]; exact hu.sets) hpos hrest
  refine ⟨m2, ?_, hinv2, hsize2.trans (hrel.size.trans hsize0)⟩
  rw [Memory.findSlot]
  simp only [hm0, hu.equal, if_true, h1, h2]

end Llama.Recurrent
