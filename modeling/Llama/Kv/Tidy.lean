import Llama.Kv.Search

/-!
# Sequences have positions

A cell whose position is `-1` counts as empty whatever its bitset holds. This module shows
that such a cell has no sequence in every cache that is only fed tokens with a position. It
looks at the records alone, so that no assertion of the cells has to hold.
-/

namespace Llama.Kv

open List Function

/-- A record with a sequence has a position. -/
def Cell.Tidy (e : Cell) : Prop := ∀ q ∈ e.seq, 0 ≤ e.pos

/-- Every record with a sequence has a position. -/
def Cells.Tidy (x : Cells) : Prop := ∀ i, (x.cell i).Tidy

/-- The same for all streams. -/
def Cache.Tidy (c : Cache) : Prop := ∀ t, (c.cells t).Tidy

theorem Cell.tidy_empty (e : CellExt) (s : Int) :
    Cell.Tidy { pos := -1, ext := e, shift := s } := by
  intro q hq
  cases hq

variable {e : Cell}

theorem Cell.tidy_of_nonneg (h : 0 ≤ e.pos) : e.Tidy := fun _ _ => h

theorem Cell.Tidy.seq_eq_empty (h : e.Tidy) (hp : e.pos = -1) : e.seq = ∅ := by
  refine Finset.eq_empty_of_forall_notMem fun q hq => ?_
  have := h q hq
  omega

namespace Cells

variable {x y : Cells} {i : Nat} {q : SeqId}

theorem Tidy.update (h : x.Tidy) (hy : y.cell = update x.cell i e) (he : e.Tidy) : y.Tidy := by
  intro j
  rw [hy]
  by_cases hj : j = i
  · subst hj
    rwa [update_self]
  · rw [update_of_ne hj]
    exact h j

theorem Tidy.of_cell (h : x.Tidy) (hy : y.cell = x.cell) : y.Tidy := by
  intro j
  rw [hy]
  exact h j

theorem resize_tidy (n : Nat) : (resize n).Tidy := fun _ => Cell.tidy_empty _ _

theorem reset_tidy (x : Cells) : x.reset.Tidy := fun _ => Cell.tidy_empty _ _

theorem Tidy.assert (h : x.Tidy) (p : Bool) : (x.assert p).Tidy := h

theorem Tidy.rm (h : x.Tidy) (i : Nat) : (x.rm i).Tidy := h.update rfl (Cell.tidy_empty _ _)

theorem Tidy.seqRm (h : x.Tidy) (i : Nat) (q : SeqId) : (x.seqRm i q).1.Tidy := by
  have herase : Cell.Tidy { x.cell i with seq := (x.cell i).seq.erase q } :=
    fun r hr => h i r (Finset.mem_of_mem_erase hr)
  simp only [Cells.seqRm]
  split
  · exact Tidy.update (h.update rfl herase) rfl (Cell.tidy_empty _ _)
  · exact h.update rfl herase

theorem Tidy.seqKeep (h : x.Tidy) (i : Nat) (q : SeqId) : (x.seqKeep i q).1.Tidy := by
  simp only [Cells.seqKeep]
  split
  · rename_i hq
    exact h.update rfl (Cell.tidy_of_nonneg (h i q hq))
  · split
    · exact h.update rfl (Cell.tidy_empty _ _)
    · exact h.of_cell rfl

theorem Tidy.seqAdd (h : x.Tidy) (hp : 0 ≤ (x.cell i).pos) (q : SeqId) : (x.seqAdd i q).Tidy :=
  h.update rfl (Cell.tidy_of_nonneg hp)

theorem Tidy.posAdd (h : x.Tidy) (i : Nat) (d : Int) : (x.posAdd i d).1.Tidy := by
  simp only [Cells.posAdd]
  split
  · exact h.update rfl (Cell.tidy_empty _ _)
  · rename_i hlt
    exact h.update rfl (Cell.tidy_of_nonneg (Int.not_lt.mp hlt))

theorem Tidy.posDiv (h : x.Tidy) {d : Int} (hd : 1 ≤ d) (i : Nat) : (x.posDiv i d).Tidy := by
  refine h.update rfl fun q hq => ?_
  exact Int.tdiv_nonneg (h i q hq) (by omega)

theorem Tidy.foldl {α : Type} {g : Cells → α → Cells} {l : List α}
    (hg : ∀ x, ∀ a ∈ l, x.Tidy → (g x a).Tidy) (h : x.Tidy) : (l.foldl g x).Tidy := by
  induction l generalizing x with
  | nil => exact h
  | cons a l ih =>
    exact ih (fun x b hb => hg x b (mem_cons_of_mem a hb)) (hg x a mem_cons_self h)

end Cells

namespace Cache

variable {c : Cache}

theorem init_tidy (f : Config) : (Cache.init f).Tidy := fun _ => Cells.resize_tidy _

theorem Tidy.assert (h : c.Tidy) (p : Bool) : (c.assert p).Tidy := h

theorem Tidy.setHead (h : c.Tidy) (t n : Nat) : (c.setHead t n).Tidy := h

theorem Tidy.setCells (h : c.Tidy) {t : Nat} {y : Cells} (hy : y.Tidy) : (c.setCells t y).Tidy := by
  intro t'
  by_cases he : t' = t
  · subst he
    simpa [Cache.setCells] using hy
  · simpa [Cache.setCells, update_of_ne he] using h t'

theorem Tidy.foldl {α : Type} {g : Cache → α → Cache} {l : List α}
    (hg : ∀ c, ∀ a ∈ l, c.Tidy → (g c a).Tidy) (h : c.Tidy) : (l.foldl g c).Tidy := by
  induction l generalizing c with
  | nil => exact h
  | cons a l ih =>
    exact ih (fun c b hb => hg c b (mem_cons_of_mem a hb)) (hg c a mem_cons_self h)

theorem Tidy.clear (h : c.Tidy) : c.clear.Tidy := by
  intro t
  simp only [Cache.clear]
  split
  · exact Cells.reset_tidy _
  · exact h t

theorem Tidy.sweep (h : c.Tidy) (t : Nat) {body : Cells × Nat → Nat → Cells × Nat}
    (hb : ∀ st i, st.1.Tidy → (body st i).1.Tidy) : (c.sweep t body).Tidy := by
  have hloop : ∀ (l : List Nat) (st : Cells × Nat), st.1.Tidy → (l.foldl body st).1.Tidy := by
    intro l
    induction l with
    | nil => exact fun st hst => hst
    | cons i l ih => exact fun st hst => ih _ (hb st i hst)
  have hset := h.setCells (t := t)
    (hloop (range (c.cells t).size) (c.cells t, (c.cells t).size) (h t))
  simp only [Cache.sweep, Cache.lowerHead]
  split
  · exact hset.setHead _ _
  · exact hset

theorem Tidy.seqRm (h : c.Tidy) (q : Option SeqId) (p0 p1 : Int) : (c.seqRm q p0 p1).Tidy := by
  cases q with
  | some q =>
    refine (h.assert _).sweep _ fun st i hst => ?_
    simp only [seqRmBody]
    split
    · exact hst.assert _
    · split
      · exact (hst.assert _).seqRm i q
      · exact hst.assert _
  | none =>
    refine Tidy.foldl (fun c t _ hc => hc.sweep t fun st i hst => ?_) h
    simp only [rmBody]
    split
    · exact hst.assert _
    · exact (hst.assert _).rm i

theorem crossCpBody_tidy {x : Cells} (h : c.Tidy) (hx : x.Tidy) (src dst : SeqId) (s0 s1 i : Nat) :
    (crossCpBody x src dst c s0 s1 i).Tidy := by
  unfold crossCpBody
  split
  · rename_i hs
    have hpos : 0 ≤ (x.cell i).pos := hx i src (of_decide_eq_true hs)
    have h1 :=
      h.setCells (t := s0) (y := (c.cells s0).assert (x.nonEmptyPre i)) ((h s0).of_cell rfl)
    refine (h1.assert _).setCells ?_
    -- only the final position of the copied cell matters
    have hy := (h1.assert ((x.cell i).shift == 0 ||
      decide (0 ≤ (x.cell i).pos - (x.cell i).shift))) s1
    generalize
      ((c.setCells s0 ((c.cells s0).assert (x.nonEmptyPre i))).assert ((x.cell i).shift == 0 ||
      decide (0 ≤ (x.cell i).pos - (x.cell i).shift))).cells s1 = y at hy ⊢
    intro j
    by_cases hj : j = i
    · subst hj
      refine Cell.tidy_of_nonneg ?_
      by_cases hz : (x.cell j).shift = 0
      · simpa [hz, Cells.extSet, Cells.put, Cells.seqAdd, Cells.posSet, Cells.seqPosInc,
          Cells.assert,
          Cells.usedInsert] using hpos
      · have hlt : ¬ (x.cell j).pos < 0 := by omega
        simp [hz, Cells.extSet, Cells.put, Cells.seqAdd, Cells.posSet, Cells.seqPosInc,
          Cells.assert,
          Cells.usedInsert, Cells.posAdd, Cells.seqPosRm, Cells.seqPosAdd, hlt, hpos]
    · have hsame : ∀ p, (((if (x.cell i).shift ≠ 0 then
          (((y.posSet i p).seqAdd i dst).posAdd i (x.cell i).shift).1
          else (y.posSet i p).seqAdd i dst).extSet i (x.cell i).ext).cell j) = y.cell j := by
        intro p
        simp only [Cells.posAdd]
        split
        · split <;> simp [hj, Cells.extSet, Cells.put, Cells.seqAdd, Cells.posSet, Cells.seqPosInc,
            Cells.assert, Cells.usedInsert, Cells.seqPosRm, Cells.seqPosAdd, Cells.usedErase]
        · simp [hj, Cells.extSet, Cells.put, Cells.seqAdd, Cells.posSet, Cells.seqPosInc,
            Cells.assert,
            Cells.usedInsert]
      rw [hsame]
      exact hy j
  · exact h

theorem Tidy.seqCp (h : c.Tidy) (src dst : SeqId) (p0 p1 : Int) : (c.seqCp src dst p0 p1).Tidy := by
  have ha := h.assert (decide (c.cfg.ValidSeq src) && decide (c.cfg.ValidSeq dst))
  simp only [Cache.seqCp]
  split
  · split
    · exact ha
    · refine ha.setCells (Cells.Tidy.foldl (fun x i _ hx => ?_) (ha _))
      simp only [seqCpBody]
      split
      · exact hx.assert _
      · split
        · rename_i hin _
          refine (hx.assert _).seqAdd ?_ dst
          have := lower_nonneg p0
          simp only [Cells.posIn, Bool.not_eq_true', Bool.and_eq_false_iff, not_or,
            Bool.not_eq_false, decide_eq_true_eq] at hin
          exact this.trans hin.1
        · exact hx.assert _
  · refine Tidy.setHead ?_ _ _
    refine Tidy.foldl (fun e i _ he => crossCpBody_tidy he (ha _) src dst _ _ i) ?_
    exact Tidy.setCells (c := { c.assert _ with scInfo := _ }) ha (Cells.reset_tidy _)

theorem Tidy.seqKeep (h : c.Tidy) (q : SeqId) : (c.seqKeep q).Tidy :=
  (h.assert _).sweep _ fun _ i hst => hst.seqKeep i q

theorem Tidy.seqAdd (h : c.Tidy) (q : SeqId) (p0 p1 d : Int) : (c.seqAdd q p0 p1 d).Tidy := by
  have ha := h.assert (decide (c.cfg.ValidSeq q) && c.cfg.nPosPerEmbd == 1)
  simp only [Cache.seqAdd]
  split
  · exact ha
  · split
    · exact ha
    · have hloop : ∀ (l : List Nat) (st : Cells × Nat), st.1.Tidy →
          (l.foldl (seqAddBody q (lower p0) (upper p1) d) st).1.Tidy := by
        intro l
        induction l with
        | nil => exact fun st hst => hst
        | cons i l ih =>
          refine fun st hst => ih _ ?_
          simp only [seqAddBody]
          split
          · exact hst.assert _
          · split
            · exact (hst.assert _).posAdd i d
            · exact hst.assert _
      exact (ha.setCells (hloop _ (_, _) (h _))).setHead _ _

theorem Tidy.seqDiv (h : c.Tidy) (q : SeqId) (p0 p1 : Int) {d : Int} (hd : 1 ≤ d) :
    (c.seqDiv q p0 p1 d).Tidy := by
  have ha := h.assert (decide (c.cfg.ValidSeq q) && c.cfg.nPosPerEmbd == 1)
  simp only [Cache.seqDiv]
  split
  · exact ha
  · split
    · exact ha
    · refine ha.setCells (Cells.Tidy.foldl (fun x i _ hx => ?_) (ha _))
      simp only [seqDivBody]
      split
      · exact hx.assert _
      · split
        · exact (hx.assert _).posDiv hd i
        · exact hx.assert _

theorem Tidy.resetShift (h : c.Tidy) : c.resetShift.Tidy := by
  intro t i
  simp only [Cache.resetShift]
  split
  · exact h t i
  · exact h t i

end Cache

end Llama.Kv
