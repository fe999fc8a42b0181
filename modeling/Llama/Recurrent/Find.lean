import Llama.Recurrent.Inv
import Mathlib.Data.Nat.ModEq
import Mathlib.Order.Interval.Finset.Nat

/-!
# Finding cells for the sequences of a ubatch

The loop that looks for usable cells gives a cell of its own to the first sequence of every set.
A cell that a new sequence has taken still looks empty until its set is written, so the search
for empty cells could come back to it; it does not, because the search goes round once from the
head and there are as many cells as sequences.
-/

namespace Llama.Recurrent

open List

variable {m : Memory} {F done : Finset Nat}

/-- No sequence has this cell. -/
def Memory.Free (m : Memory) (c : Nat) : Prop := ∀ r < m.size, (m.cells r).tail ≠ some c

variable {c s h n next t : Nat} {r : Range}

theorem Linked.seqId_of_free (h : Linked F m) (hc : c < m.size) (hfree : m.Free c) :
    (m.cells c).seqId = ∅ := by
  refine Finset.eq_empty_of_forall_notMem fun s hs => ?_
  obtain ⟨hlt, ht, -⟩ := (h.mem_iff s c hc).mp hs
  exact hfree s hlt ht

/-- An empty cell that is not free belongs to a sequence that waits for its set. -/
theorem Linked.waiting_of_empty (h : Linked F m) (hc : c < m.size) (he : (m.cells c).seqId = ∅)
    (hfree : ¬ m.Free c) : ∃ s ∈ F, (m.cells s).tail = some c := by
  unfold Memory.Free at hfree
  push Not at hfree
  obtain ⟨r, hr, ht⟩ := hfree
  refine ⟨r, ?_, ht⟩
  by_contra hF
  have := (h.mem_iff r c hc).mpr ⟨hr, ht, hF⟩
  rw [he] at this
  exact Finset.notMem_empty r this

/-- Other sequences have the cell too, if the sequence has one. -/
def Memory.Shares (m : Memory) (s : Nat) : Prop :=
  ∀ c, (m.cells s).tail = some c → ∃ r < m.size, r ≠ s ∧ (m.cells r).tail = some c

/-- If a sequence has no cell, or not alone, then some cell is free: there are as many cells as
sequences. -/
theorem exists_free (hs : s < m.size) (hshare : m.Shares s) : ∃ c < m.size, m.Free c := by
  by_contra hno
  push Not at hno
  have hsub : Finset.range m.size ⊆
      ((Finset.range m.size).erase s).image fun r => ((m.cells r).tail).getD 0 := by
    intro c hc
    have hfree := hno c (Finset.mem_range.mp hc)
    unfold Memory.Free at hfree
    push Not at hfree
    obtain ⟨r, hr, ht⟩ := hfree
    obtain ⟨r', hr', hne, ht'⟩ : ∃ r' < m.size, r' ≠ s ∧ (m.cells r').tail = some c := by
      by_cases he : r = s
      · subst he
        exact hshare c ht
      · exact ⟨r, hr, he, ht⟩
    refine Finset.mem_image.mpr ⟨r', Finset.mem_erase.mpr ⟨hne, Finset.mem_range.mpr hr'⟩, ?_⟩
    rw [ht', Option.getD_some]
  have hcard := (Finset.card_le_card hsub).trans Finset.card_image_le
  rw [Finset.card_erase_of_mem (Finset.mem_range.mpr hs), Finset.card_range] at hcard
  omega

theorem wrap_eq_mod (hc : c ≤ m.size) : m.wrap c = c % m.size := by
  unfold Memory.wrap
  split
  · obtain rfl : c = m.size := by omega
    rw [Nat.sub_self, Nat.mod_self]
  · rw [Nat.mod_eq_of_lt (by omega)]

theorem firstEmpty_spec (hpos : 0 < m.size) : ∀ (k c o : Nat), c ≤ m.size → o < k →
    (m.cells ((c + o) % m.size)).seqId = ∅ → ∃ a ≤ o, m.firstEmpty k c = (c + a) % m.size ∧
      (m.cells ((c + a) % m.size)).seqId = ∅ ∧ ∀ b < a, (m.cells ((c + b) % m.size)).seqId ≠ ∅ := by
  intro k
  induction k with
  | zero => intro c o _ ho; omega
  | succ k ih =>
    intro c o hc ho he
    rw [Memory.firstEmpty, wrap_eq_mod hc]
    split
    · rename_i hempty
      exact ⟨0, Nat.zero_le o, rfl, isEmpty_iff.mp hempty, fun b hb => by omega⟩
    · rename_i hempty
      have hne : (m.cells (c % m.size)).seqId ≠ ∅ := fun h => hempty (isEmpty_iff.mpr h)
      have hmod : ∀ b, (c % m.size + 1 + b) % m.size = (c + (b + 1)) % m.size := by
        intro b
        rw [Nat.add_assoc, Nat.mod_add_mod, Nat.add_comm 1 b]
      obtain ⟨o', rfl⟩ : ∃ o', o = o' + 1 := by
        refine ⟨o - 1, ?_⟩
        have : o ≠ 0 := by
          rintro rfl
          exact hne he
        omega
      have hlt := Nat.mod_lt c hpos
      obtain ⟨a, ha, h1, h2, h3⟩ := ih (c % m.size + 1) o' (by omega) (by omega)
        (by rw [hmod]; exact he)
      refine ⟨a + 1, by omega, ?_, ?_, fun b hb => ?_⟩
      · rw [h1, hmod]
      · rw [← hmod]
        exact h2
      · cases b with
        | zero => exact hne
        | succ b =>
          rw [← hmod]
          exact h3 b (by omega)

theorem nextEmpty_eq_firstEmpty (hpos : 0 < m.size) : ∀ (k c o : Nat), c < m.size → o < k →
    (m.cells ((c + 1 + o) % m.size)).seqId = ∅ → m.nextEmpty k c = m.firstEmpty k (c + 1) := by
  intro k
  induction k with
  | zero => intro c o _ ho; omega
  | succ k ih =>
    intro c o hc ho he
    rw [Memory.firstEmpty, Memory.nextEmpty]
    split
    · rfl
    · rename_i hempty
      rw [wrap_eq_mod (by omega)] at hempty ⊢
      cases o with
      | zero => exact (hempty (isEmpty_iff.mpr he)).elim
      | succ o =>
        refine ih ((c + 1) % m.size) o (Nat.mod_lt _ hpos) (by omega) ?_
        rw [Nat.add_assoc, Nat.mod_add_mod, Nat.add_comm 1 o]
        exact he

/-- The next cell to take is the first free one from `h` on, and the cells of the sequences that
wait for their sets have been passed. -/
def Memory.Seeks (m : Memory) (F : Finset Nat) (h next : Nat) : Prop :=
  (∃ c < m.size, m.Free c) → ∃ a < m.size, next = (h + a) % m.size ∧ m.Free next ∧
    (∀ o < a, ¬ m.Free ((h + o) % m.size)) ∧
    ∀ s ∈ F, ∀ c, (m.cells s).tail = some c → ∃ o < a, c = (h + o) % m.size

theorem exists_offset (hh : h ≤ n) (hc : c < n) : ∃ o < n, c = (h + o) % n := by
  by_cases hle : h ≤ c
  · exact ⟨c - h, by omega, by rw [Nat.add_sub_cancel' hle, Nat.mod_eq_of_lt hc]⟩
  · refine ⟨c + n - h, by omega, ?_⟩
    have : h + (c + n - h) = c + n := by omega
    rw [this, Nat.add_mod_right, Nat.mod_eq_of_lt hc]

theorem firstEmpty_seeks (h : Linked ∅ m) (hhead : m.head ≤ m.size) :
    m.Seeks ∅ m.head (m.firstEmpty m.size m.head) := by
  rintro ⟨c, hc, hfree⟩
  have hpos : 0 < m.size := by omega
  have hempty : ∀ c < m.size, (m.cells c).seqId = ∅ → m.Free c := by
    intro c hc he
    by_contra hn
    obtain ⟨s, hs, -⟩ := h.waiting_of_empty hc he hn
    exact Finset.notMem_empty s hs
  obtain ⟨o, ho, rfl⟩ := exists_offset hhead hc
  obtain ⟨a, ha, h1, h2, h3⟩ := firstEmpty_spec hpos m.size m.head o hhead ho
    (h.seqId_of_free hc hfree)
  refine ⟨a, by omega, h1, ?_, fun b hb hn => ?_, fun s hs => absurd hs (Finset.notMem_empty s)⟩
  · rw [h1]
    exact hempty _ (Nat.mod_lt _ hpos) h2
  · exact h3 b hb (h.seqId_of_free (Nat.mod_lt _ hpos) hn)

theorem nextEmpty_seeks {a : Nat} (hl : Linked F m) (hnext : next = (h + a) % m.size)
    (hold : ∀ o ≤ a, ¬ m.Free ((h + o) % m.size)) (hh : h ≤ m.size)
    (hF : ∀ s ∈ F, ∀ c, (m.cells s).tail = some c → ∃ o ≤ a, c = (h + o) % m.size) :
    m.Seeks F h (m.nextEmpty m.size next) := by
  rintro ⟨c, hc, hfree⟩
  have hpos : 0 < m.size := by omega
  obtain ⟨o, ho, rfl⟩ := exists_offset hh hc
  have hao : a < o := by
    by_contra hn
    exact hold o (by omega) hfree
  have hmod : ∀ b, (next + 1 + b) % m.size = (h + (a + 1 + b)) % m.size := by
    intro b
    rw [hnext, Nat.add_assoc, Nat.mod_add_mod]
    congr 1
    omega
  have hempty : (m.cells ((next + 1 + (o - a - 1)) % m.size)).seqId = ∅ := by
    rw [hmod, show a + 1 + (o - a - 1) = o by omega]
    exact hl.seqId_of_free hc hfree
  have hlt : next < m.size := by
    rw [hnext]
    exact Nat.mod_lt _ hpos
  rw [nextEmpty_eq_firstEmpty hpos m.size next (o - a - 1) hlt (by omega) hempty]
  obtain ⟨b, hb, h1, h2, h3⟩ := firstEmpty_spec hpos m.size (next + 1) (o - a - 1) (by omega)
    (by omega) hempty
  have hbefore : ∀ x < b, ¬ m.Free ((h + (a + 1 + x)) % m.size) := by
    intro x hx hn
    have := h3 x hx
    rw [hmod] at this
    exact this (hl.seqId_of_free (Nat.mod_lt _ hpos) hn)
  refine ⟨a + 1 + b, by omega, by rw [h1, hmod], ?_, fun x hx => ?_, fun s hs c hst => ?_⟩
  · rw [h1]
    by_contra hn
    obtain ⟨s, hs, hst⟩ := hl.waiting_of_empty (Nat.mod_lt _ hpos) h2 hn
    obtain ⟨x, hx, he⟩ := hF s hs _ hst
    -- two offsets below the size give the same cell
    rw [hmod] at he
    have hdiff : (a + 1 + b) % m.size = x % m.size := Nat.ModEq.add_left_cancel' h he
    rw [Nat.mod_eq_of_lt (by omega), Nat.mod_eq_of_lt (by omega)] at hdiff
    omega
  · by_cases hxa : x ≤ a
    · exact hold x hxa
    · have := hbefore (x - a - 1) (by omega)
      rwa [show a + 1 + (x - a - 1) = x by omega] at this
  · obtain ⟨x, hx, he⟩ := hF s hs c hst
    exact ⟨x, by omega, he⟩

/-- What holds while the cells are found, for the sequences `done` that have one; those of `F`
were without a cell before. -/
structure Finding (n : Nat) (F done : Finset Nat) (m : Memory) : Prop where
  linked : Linked F m
  size : m.size = n
  sub : F ⊆ done
  lt : ∀ s ∈ done, s < m.size
  owns : ∀ s ∈ done, ∃ c, (m.cells s).tail = some c ∧
    ∀ r < m.size, (m.cells r).tail = some c → r = s
  src : ∀ c < m.size, (m.cells c).src = none ∨ (m.cells c).src = some c ∨
    (∃ s ∈ done, (m.cells s).tail = some c) ∧ ∃ x < m.size, (m.cells c).src = some x

theorem Inv.finding (h : Inv m) : Finding m.size ∅ ∅ m where
  linked := h.toLinked
  size := rfl
  sub := Finset.Subset.refl ∅
  lt s hs := absurd hs (Finset.notMem_empty s)
  owns s hs := absurd hs (Finset.notMem_empty s)
  src c hc := (h.src c hc).imp_right .inl

/-- A sequence that was alone in its cell is found. -/
theorem Finding.own (h : Finding n F done m) (hs : s < n) (hst : (m.cells s).tail = some t)
    (hmem : s ∈ (m.cells t).seqId) (hcard : (m.cells t).seqId.card = 1) :
    Finding n F (insert s done) m where
  linked := h.linked
  size := h.size
  sub := h.sub.trans (Finset.subset_insert s done)
  lt r hr := by
    rcases Finset.mem_insert.mp hr with rfl | hr
    · rwa [h.size]
    · exact h.lt r hr
  owns r hr := by
    rcases Finset.mem_insert.mp hr with rfl | hr
    · refine ⟨t, hst, fun q hq hqt => ?_⟩
      have htl := h.linked.tail_lt r (h.size.symm ▸ hs) t hst
      by_cases hqF : q ∈ F
      · obtain ⟨c, hc, huniq⟩ := h.owns q (h.sub hqF)
        rw [hqt] at hc
        cases hc
        exact (huniq r (h.size.symm ▸ hs) hst).symm
      · have hq' := (h.linked.mem_iff q t htl).mpr ⟨hq, hqt, hqF⟩
        exact Finset.card_le_one.mp hcard.le q hq' r hmem
    · exact h.owns r hr
  src c hc := by
    rcases h.src c hc with he | he | ⟨⟨r, hr, ht⟩, hx⟩
    · exact .inl he
    · exact .inr (.inl he)
    · exact .inr (.inr ⟨⟨r, Finset.mem_insert_of_mem hr, ht⟩, hx⟩)

/-- The cells after a sequence got the empty cell. -/
structure Taken (s next : Nat) (m m' : Memory) : Prop where
  size : m'.size = m.size
  tail : ∀ r, (m'.cells r).tail = if r = s then some next else (m.cells r).tail

theorem Taken.free_iff {m' : Memory} (h : Taken s next m m') (hs : s < m.size) (hshare : m.Shares s)
    (c : Nat) : m'.Free c ↔ m.Free c ∧ c ≠ next := by
  unfold Memory.Free
  rw [h.size]
  constructor
  · intro hf
    refine ⟨fun r hr ht => ?_, fun he => ?_⟩
    · by_cases hrs : r = s
      · subst hrs
        obtain ⟨q, hq, hne, hqt⟩ := hshare c ht
        refine hf q hq ?_
        rw [h.tail, if_neg hne, hqt]
      · refine hf r hr ?_
        rw [h.tail, if_neg hrs, ht]
    · refine hf s hs ?_
      rw [h.tail, if_pos rfl, he]
  · rintro ⟨hf, hne⟩ r hr ht
    rw [h.tail] at ht
    split at ht
    · cases ht
      exact hne rfl
    · exact hf r hr ht

theorem Taken.owns {n s next : Nat} {m' : Memory} (ht : Taken s next m m')
    (h : Finding n F done m) (hdone : s ∉ done) (hfree : m.Free next) :
    ∀ r ∈ insert s done, ∃ c, (m'.cells r).tail = some c ∧
      ∀ q < m'.size, (m'.cells q).tail = some c → q = r := by
  intro r hr
  rcases Finset.mem_insert.mp hr with rfl | hr
  · refine ⟨next, by rw [ht.tail, if_pos rfl], fun q hq hqt => ?_⟩
    rw [ht.size] at hq
    rw [ht.tail] at hqt
    split at hqt
    · assumption
    · exact (hfree q hq hqt).elim
  · obtain ⟨c, hc, huniq⟩ := h.owns r hr
    have hrs : r ≠ s := fun he => hdone (he ▸ hr)
    refine ⟨c, by rw [ht.tail, if_neg hrs, hc], fun q hq hqt => ?_⟩
    rw [ht.size] at hq
    rw [ht.tail] at hqt
    split at hqt
    · cases hqt
      exact (hfree r (h.lt r hr) hc).elim
    · exact huniq q hq hqt

theorem Taken.lt {n s next : Nat} {m' : Memory} (ht : Taken s next m m') (h : Finding n F done m)
    (hs : s < m.size) : ∀ r ∈ insert s done, r < m'.size := by
  intro r hr
  rw [ht.size]
  rcases Finset.mem_insert.mp hr with rfl | hr
  · exact hs
  · exact h.lt r hr

/-- A new sequence takes the empty cell: its set is written later. -/
theorem Finding.fresh (h : Finding n F done m) (hs : s < m.size) (hdone : s ∉ done)
    (hnext : next < m.size) (hfree : m.Free next) (hst : (m.cells s).tail = none) :
    Taken s next m (m.modify s fun x => { x with tail := some next }) ∧
      Finding n (insert s F) (insert s done)
        (m.modify s fun x => { x with tail := some next }) := by
  let m' := m.modify s fun x => { x with tail := some next }
  have hcell : ∀ c, (m'.cells c).tail = (if c = s then some next else (m.cells c).tail) ∧
      (m'.cells c).seqId = (m.cells c).seqId ∧ (m'.cells c).pos = (m.cells c).pos ∧
      (m'.cells c).src = (m.cells c).src := by
    intro c
    simp only [m', Memory.modify_cells]
    split
    · rename_i he
      subst he
      exact ⟨rfl, rfl, rfl, rfl⟩
    · exact ⟨rfl, rfl, rfl, rfl⟩
  have ht : Taken s next m m' := ⟨rfl, fun r => (hcell r).1⟩
  refine ⟨ht, ⟨fun r c hc => ?_, fun r hr c hrt => ?_, fun c hc => ?_, fun c hc => ?_⟩, h.size,
    Finset.insert_subset_insert s h.sub, ht.lt h hs, ht.owns h hdone hfree, fun c hc => ?_⟩
  · change r ∈ (m'.cells c).seqId ↔ r < m.size ∧ (m'.cells r).tail = some c ∧ r ∉ insert s F
    rw [(hcell c).2.1, (hcell r).1, h.linked.mem_iff r c hc]
    by_cases hrs : r = s
    · subst hrs
      simp [hst]
    · simp [hrs]
  · change (m'.cells r).tail = some c at hrt
    rw [(hcell r).1] at hrt
    split at hrt
    · cases hrt
      exact hnext
    · exact h.linked.tail_lt r hr c hrt
  · change (m'.cells c).pos = -1 ↔ (m'.cells c).seqId = ∅
    rw [(hcell c).2.1, (hcell c).2.2.1]
    exact h.linked.pos_iff c hc
  · change -1 ≤ (m'.cells c).pos
    rw [(hcell c).2.2.1]
    exact h.linked.pos_ge c hc
  · change (m'.cells c).src = none ∨ (m'.cells c).src = some c ∨
      (∃ r ∈ insert s done, (m'.cells r).tail = some c) ∧ ∃ x < m.size, (m'.cells c).src = some x
    rw [(hcell c).2.2.2]
    rcases h.src c hc with he | he | ⟨⟨r, hr, hrt⟩, hx⟩
    · exact .inl he
    · exact .inr (.inl he)
    · have hrs : r ≠ s := fun he => hdone (he ▸ hr)
      refine .inr (.inr ⟨⟨r, Finset.mem_insert_of_mem hr, ?_⟩, hx⟩)
      rw [(hcell r).1, if_neg hrs, hrt]

/-- The cells after a sequence moved from cell `t` to the empty cell. -/
def Memory.moved (m : Memory) (s t next : Nat) : Memory :=
  (((m.modify next fun x => { x with pos := (m.cells t).pos, src := (m.cells t).src }).modify t
    fun x => { x with seqId := x.seqId.erase s }).modify next
    fun x => { x with seqId := insert s x.seqId }).modify s fun x => { x with tail := some next }

theorem moved_cells (hne : t ≠ next) (c : Nat) :
    ((m.moved s t next).cells c).tail = (if c = s then some next else (m.cells c).tail) ∧
    ((m.moved s t next).cells c).seqId = (if c = next then insert s (m.cells c).seqId
      else if c = t then (m.cells c).seqId.erase s else (m.cells c).seqId) ∧
    ((m.moved s t next).cells c).pos = (if c = next then (m.cells t).pos else (m.cells c).pos) ∧
    ((m.moved s t next).cells c).src = (if c = next then (m.cells t).src else (m.cells c).src) := by
  have hne' : next ≠ t := hne.symm
  simp only [Memory.moved, Memory.modify_cells]
  by_cases hcn : c = next
  · subst hcn
    by_cases hcs : c = s
    · subst hcs
      simp [hne']
    · simp [hcs, hne']
  · by_cases hct : c = t
    · subst hct
      by_cases hcs : c = s
      · subst hcs
        simp [hcn]
      · simp [hcs, hcn]
    · by_cases hcs : c = s
      · subst hcs
        simp [hcn, hct]
      · simp [hcs, hcn, hct]

/-- A sequence that shared its cell moves to the empty one. -/
theorem Finding.moved {n s t next : Nat} (h : Finding n F done m) (hs : s < m.size)
    (hdone : s ∉ done) (hnext : next < m.size) (hfree : m.Free next)
    (hst : (m.cells s).tail = some t) (hrest : (m.cells t).seqId.erase s ≠ ∅) :
    Taken s next m (m.moved s t next) ∧ Finding n F (insert s done) (m.moved s t next) := by
  have hne : t ≠ next := by
    rintro rfl
    exact hfree s hs hst
  have htl := h.linked.tail_lt s hs t hst
  have hsF : s ∉ F := fun hF => hdone (h.sub hF)
  have hmem : s ∈ (m.cells t).seqId := (h.linked.mem_iff s t htl).mpr ⟨hs, hst, hsF⟩
  have hempty := h.linked.seqId_of_free hnext hfree
  have ht : Taken s next m (m.moved s t next) := ⟨rfl, fun r => (moved_cells hne r).1⟩
  refine ⟨ht, ⟨fun r c hc => ?_, fun r hr c hrt => ?_, fun c hc => ?_, fun c hc => ?_⟩, h.size,
    h.sub.trans (Finset.subset_insert s done), ht.lt h hs, ht.owns h hdone hfree, fun c hc => ?_⟩
  · change c < m.size at hc
    change r ∈ ((m.moved s t next).cells c).seqId ↔
      r < m.size ∧ ((m.moved s t next).cells r).tail = some c ∧ r ∉ F
    rw [(moved_cells hne c).2.1, (moved_cells hne r).1]
    by_cases hcn : c = next
    · subst hcn
      rw [if_pos rfl, hempty, Finset.mem_insert, or_iff_left (Finset.notMem_empty r)]
      by_cases hrs : r = s
      · subst hrs
        simp [hs, hsF]
      · rw [if_neg hrs]
        exact iff_of_false hrs fun hr => hfree r hr.1 hr.2.1
    · rw [if_neg hcn]
      by_cases hrs : r = s
      · subst hrs
        rw [if_pos rfl, Option.some.injEq]
        refine iff_of_false ?_ fun hr => hcn hr.2.1.symm
        split
        · exact Finset.notMem_erase r _
        · rename_i hct
          intro hr
          have := h.linked.tail_of_mem hc hr
          rw [hst] at this
          exact hct (Option.some.inj this).symm
      · rw [if_neg hrs, ← h.linked.mem_iff r c hc]
        split
        · rw [Finset.mem_erase]
          exact and_iff_right hrs
        · rfl
  · change r < m.size at hr
    change ((m.moved s t next).cells r).tail = some c at hrt
    rw [(moved_cells hne r).1] at hrt
    split at hrt
    · cases hrt
      exact hnext
    · exact h.linked.tail_lt r hr c hrt
  · change c < m.size at hc
    rw [(moved_cells hne c).2.1, (moved_cells hne c).2.2.1]
    by_cases hcn : c = next
    · rw [if_pos hcn, if_pos hcn]
      refine iff_of_false (fun hp => ?_) (Finset.insert_ne_empty s _)
      rw [(h.linked.pos_iff t htl).mp hp] at hmem
      exact Finset.notMem_empty s hmem
    · rw [if_neg hcn, if_neg hcn]
      split
      · rename_i hct
        subst hct
        refine iff_of_false (fun hp => ?_) hrest
        rw [(h.linked.pos_iff c hc).mp hp] at hmem
        exact Finset.notMem_empty s hmem
      · exact h.linked.pos_iff c hc
  · change c < m.size at hc
    rw [(moved_cells hne c).2.2.1]
    split
    · exact h.linked.pos_ge t htl
    · exact h.linked.pos_ge c hc
  · change c < m.size at hc
    change ((m.moved s t next).cells c).src = none ∨ ((m.moved s t next).cells c).src = some c ∨
      (∃ r ∈ insert s done, ((m.moved s t next).cells r).tail = some c) ∧
        ∃ x < m.size, ((m.moved s t next).cells c).src = some x
    rw [(moved_cells hne c).2.2.2]
    split
    · rename_i hcn
      -- the state it had was its cell's own: found sequences do not share theirs
      have hown : (m.cells t).src = none ∨ (m.cells t).src = some t := by
        rcases h.src t htl with he | he | ⟨⟨r, hr, hrt⟩, -⟩
        · exact .inl he
        · exact .inr he
        · obtain ⟨c', hc', huniq⟩ := h.owns r hr
          rw [hrt] at hc'
          cases hc'
          exact (hdone (huniq s hs hst ▸ hr)).elim
      rcases hown with he | he
      · exact .inl he
      · refine .inr (.inr ⟨⟨s, Finset.mem_insert_self s done, ?_⟩, t, htl, he⟩)
        rw [(moved_cells hne s).1, if_pos rfl, hcn]
    · rcases h.src c hc with he | he | ⟨⟨r, hr, hrt⟩, hx⟩
      · exact .inl he
      · exact .inr (.inl he)
      · have hrs : r ≠ s := fun he => hdone (he ▸ hr)
        refine .inr (.inr ⟨⟨r, Finset.mem_insert_of_mem hr, ?_⟩, hx⟩)
        rw [(moved_cells hne r).1, if_neg hrs, hrt]

theorem split_spec (h : Finding n F done m) (hs : s < m.size) (hdone : s ∉ done)
    (hnext : next < m.size) (hfree : m.Free next) (hshare : m.Shares s) :
    ∃ m' F', m.split s next = some m' ∧ Taken s next m m' ∧ (∀ r ∈ F', r ∈ F ∨ r = s) ∧
      Finding n F' (insert s done) m' := by
  have hempty := h.linked.seqId_of_free hnext hfree
  cases hst : (m.cells s).tail with
  | none =>
    obtain ⟨ht, hf⟩ := h.fresh hs hdone hnext hfree hst
    refine ⟨_, insert s F, ?_, ht, fun r hr => ?_, hf⟩
    · rw [Memory.split, if_pos ⟨hnext, isEmpty_iff.mpr hempty⟩, hst]
    · rcases Finset.mem_insert.mp hr with he | hr
      · exact .inr he
      · exact .inl hr
  | some t =>
    have htl := h.linked.tail_lt s hs t hst
    have hne : t ≠ next := by
      rintro rfl
      exact hfree s hs hst
    obtain ⟨r, hr, hrs, hrt⟩ := hshare t hst
    have hrF : r ∉ F := by
      intro hF
      obtain ⟨c, hc, huniq⟩ := h.owns r (h.sub hF)
      rw [hrt] at hc
      cases hc
      exact hrs (huniq s hs hst).symm
    have hrest : r ∈ (m.cells t).seqId.erase s :=
      Finset.mem_erase.mpr ⟨hrs, (h.linked.mem_iff r t htl).mpr ⟨hr, hrt, hrF⟩⟩
    obtain ⟨ht, hf⟩ := h.moved hs hdone hnext hfree hst (Finset.ne_empty_of_mem hrest)
    refine ⟨_, F, ?_, ht, fun r hr => .inl hr, hf⟩
    rw [Memory.split, if_pos ⟨hnext, isEmpty_iff.mpr hempty⟩, hst]
    dsimp only
    rw [if_neg]
    · rfl
    · rw [isEmpty_iff]
      simp only [Memory.modify_cells, if_neg hne, if_true]
      exact Finset.ne_empty_of_mem hrest

/-- The cells of the found sequences lie in the range. -/
structure Range.Covers (r : Range) (done : Finset Nat) : Prop where
  mem : ∀ s ∈ done, ∀ c, (r.m.cells s).tail = some c → r.min ≤ c ∧ c ≤ r.max
  max_lt : r.max < r.m.size

theorem Range.Covers.grow {r : Range} {s t : Nat} {m' : Memory} {next : Nat} (h : r.Covers done)
    (hsize : m'.size = r.m.size) (ht : t < r.m.size) (hst : (m'.cells s).tail = some t)
    (hother : ∀ q ∈ done, (m'.cells q).tail = (r.m.cells q).tail) :
    (Range.grow { r with m := m', next := next } t).Covers (insert s done) := by
  refine ⟨fun q hq c hqc => ?_, ?_⟩
  · change (m'.cells q).tail = some c at hqc
    simp only [Range.grow]
    rcases Finset.mem_insert.mp hq with rfl | hq
    · rw [hst] at hqc
      cases hqc
      split <;> split <;> omega
    · rw [hother q hq] at hqc
      have := h.mem q hq c hqc
      split <;> split <;> omega
  · have := h.max_lt
    simp only [Range.grow, hsize]
    split <;> omega

/-- The turn of a sequence that needs a cell. -/
theorem move_spec {last : Bool} (hf : Finding n F done r.m) (hseek : r.m.Seeks F h r.next)
    (hh : h ≤ n) (hcov : r.Covers done) (hs : s < n) (hdone : s ∉ done) (hshare : r.m.Shares s) :
    ∃ r' F', r.move s last = some r' ∧ Finding n F' (insert s done) r'.m ∧
      (last = false → r'.m.Seeks F' h r'.next) ∧ r'.Covers (insert s done) ∧
      ∀ q, q ≠ s → (r'.m.cells q).tail = (r.m.cells q).tail := by
  have hs' : s < r.m.size := hf.size.symm ▸ hs
  obtain ⟨a, ha, hnext, hfree, hold, hF⟩ := hseek (exists_free hs' hshare)
  have hlt : r.next < r.m.size := by
    rw [hnext]
    exact Nat.mod_lt _ (by omega)
  obtain ⟨m', F', hsplit, htaken, hF', hfind⟩ := split_spec hf hs' hdone hlt hfree hshare
  have hother : ∀ q, q ≠ s → (m'.cells q).tail = (r.m.cells q).tail := by
    intro q hq
    rw [htaken.tail, if_neg hq]
  have hst : (m'.cells s).tail = some r.next := by rw [htaken.tail, if_pos rfl]
  refine ⟨Range.grow { r with
      m := m', next := if last then r.next else m'.nextEmpty m'.size r.next } r.next, F', ?_, hfind,
    fun hlast => ?_, hcov.grow htaken.size hlt hst fun q hq => hother q ?_, hother⟩
  · rw [Range.move, hsplit]
    rfl
  · subst hlast
    change m'.Seeks F' h (m'.nextEmpty m'.size r.next)
    refine nextEmpty_seeks (a := a) hfind.linked (by rw [htaken.size]; exact hnext)
      (fun o ho hn => ?_) (by rw [hfind.size]; exact hh) fun q hq c hqc => ?_
    · rw [htaken.size] at hn
      obtain ⟨h1, h2⟩ := (htaken.free_iff hs' hshare _).mp hn
      rcases Nat.eq_or_lt_of_le ho with rfl | ho
      · exact h2 hnext.symm
      · exact hold o ho h1
    · rw [htaken.size]
      by_cases hqs : q = s
      · subst hqs
        rw [hst] at hqc
        cases hqc
        exact ⟨a, le_rfl, hnext⟩
      · rw [hother q hqs] at hqc
        obtain ⟨o, ho, he⟩ := hF q ((hF' q hq).resolve_right hqs) c hqc
        exact ⟨o, ho.le, he⟩
  · rintro rfl
    exact hdone hq

/-- One turn finds a cell for the sequence. -/
theorem turn_spec (last : Bool) (hf : Finding n F done r.m) (hseek : r.m.Seeks F h r.next)
    (hh : h ≤ n) (hcov : r.Covers done) (hs : s < n) (hdone : s ∉ done) :
    ∃ r' F', r.turn s last = some r' ∧ Finding n F' (insert s done) r'.m ∧
      (last = false → r'.m.Seeks F' h r'.next) ∧ r'.Covers (insert s done) ∧
      ∀ q, q ≠ s → (r'.m.cells q).tail = (r.m.cells q).tail := by
  have hs' : s < r.m.size := hf.size.symm ▸ hs
  rw [Range.turn]
  cases hst : (r.m.cells s).tail with
  | none =>
    refine move_spec hf hseek hh hcov hs hdone fun c hc => ?_
    rw [hst] at hc
    cases hc
  | some t =>
    have htl := hf.linked.tail_lt s hs' t hst
    have hmem : s ∈ (r.m.cells t).seqId :=
      (hf.linked.mem_iff s t htl).mpr ⟨hs', hst, fun hF => hdone (hf.sub hF)⟩
    dsimp only
    rw [if_pos hmem]
    split
    · rename_i hcard
      exact ⟨_, F, rfl, hf.own hs hst hmem hcard, fun _ => hseek,
        hcov.grow rfl htl hst fun _ _ => rfl, fun _ _ => rfl⟩
    · rename_i hcard
      refine move_spec hf hseek hh hcov hs hdone fun c hc => ?_
      rw [hst] at hc
      cases hc
      have hlt : 1 < (r.m.cells t).seqId.card := by
        have := Finset.card_pos.mpr ⟨s, hmem⟩
        omega
      obtain ⟨q, hq, hne⟩ := Finset.exists_mem_ne hlt s
      obtain ⟨hq', hqt, -⟩ := (hf.linked.mem_iff q t htl).mp hq
      exact ⟨q, hq', hne, hqt⟩

/-- The loop finds a cell for every sequence. -/
theorem find_spec (hh : h ≤ n) : ∀ (ss : List Nat) (r : Range) (F done : Finset Nat),
    Finding n F done r.m → (ss ≠ [] → r.m.Seeks F h r.next) → r.Covers done → ss.Nodup →
    (∀ s ∈ ss, s < n ∧ s ∉ done) →
    ∃ r' F' done', r.find ss = some r' ∧ Finding n F' done' r'.m ∧ r'.Covers done' ∧
      (∀ s, s ∈ done' ↔ s ∈ done ∨ s ∈ ss) ∧
      ∀ q ∉ ss, (r'.m.cells q).tail = (r.m.cells q).tail := by
  intro ss
  induction ss with
  | nil =>
    intro r F done hf _ hcov _ _
    exact ⟨r, F, done, rfl, hf, hcov, by simp, fun _ _ => rfl⟩
  | cons s ss ih =>
    intro r F done hf hseek hcov hnd hss
    obtain ⟨hs, hdone⟩ := hss s mem_cons_self
    obtain ⟨hnot, hnd'⟩ := nodup_cons.mp hnd
    obtain ⟨r1, F1, h1, hf1, hseek1, hcov1, htail1⟩ :=
      turn_spec ss.isEmpty hf (hseek (by simp)) hh hcov hs hdone
    obtain ⟨r2, F2, done2, h2, hf2, hcov2, hdone2, htail2⟩ := ih r1 F1 (insert s done) hf1
      (fun hne => hseek1 (isEmpty_eq_false_iff.mpr hne)) hcov1 hnd' fun q hq => by
        refine ⟨(hss q (mem_cons_of_mem s hq)).1, fun hmem => ?_⟩
        rcases Finset.mem_insert.mp hmem with rfl | hmem
        · exact hnot hq
        · exact (hss q (mem_cons_of_mem s hq)).2 hmem
    refine ⟨r2, F2, done2, ?_, hf2, hcov2, fun q => ?_, fun q hq => ?_⟩
    · rw [Range.find, h1]
      exact h2
    · rw [hdone2, Finset.mem_insert, mem_cons]
      tauto
    · rw [mem_cons, not_or] at hq
      rw [htail2 q hq.2, htail1 q hq.1]

theorem Range.Covers.length_le {ss : List Nat} (hf : Finding n F done r.m) (hcov : r.Covers done)
    (hnd : ss.Nodup) (hss : ∀ s ∈ ss, s ∈ done) : ss.length ≤ r.max + 1 - r.min := by
  have hmaps : ∀ s ∈ ss.toFinset, ((r.m.cells s).tail).getD 0 ∈ Finset.Icc r.min r.max := by
    intro s hs
    obtain ⟨c, hc, -⟩ := hf.owns s (hss s (mem_toFinset.mp hs))
    rw [hc, Option.getD_some, Finset.mem_Icc]
    exact hcov.mem s (hss s (mem_toFinset.mp hs)) c hc
  have hinj : Set.InjOn (fun s => ((r.m.cells s).tail).getD 0) ss.toFinset := by
    intro s hs q hq he
    rw [Finset.mem_coe, mem_toFinset] at hs hq
    obtain ⟨c, hc, -⟩ := hf.owns s (hss s hs)
    obtain ⟨d, hd, huniq⟩ := hf.owns q (hss q hq)
    simp only [hc, hd, Option.getD_some] at he
    exact huniq s (hf.lt s (hss s hs)) (he ▸ hc)
  have := Finset.card_le_card_of_injOn _ hmaps hinj
  rwa [toFinset_card_of_nodup hnd, Nat.card_Icc] at this

end Llama.Recurrent
