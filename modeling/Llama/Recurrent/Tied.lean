import Llama.Recurrent.Same
import Llama.Recurrent.Run

/-!
# The operations on sequences keep the states

None of the operations between two steps touches a row. Each of them takes sequences from their
cells, or lets one sequence join the cell of another, and a cell that loses its last sequence
loses its source. The links between tails and sets do not depend on positions.
-/

namespace Llama.Recurrent

open Option Function Finset

variable {S : Type} {m m' : Memory} {zero : S} {R last : Nat → S}

/-- Tails and sets describe the same map. -/
structure Tied (m : Memory) : Prop where
  mem_iff : ∀ s c, c < m.size → (s ∈ (m.cells c).seqId ↔ s < m.size ∧ (m.cells s).tail = some c)
  tail_lt : ∀ s < m.size, ∀ c, (m.cells s).tail = some c → c < m.size
  head : m.head ≤ m.size
  src : ∀ c < m.size, (m.cells c).src = none ∨ (m.cells c).src = some c

/-- The state of a sequence, if the last one it was given is `last`. -/
def Memory.expected (zero : S) (last : Nat → S) (m : Memory) (s : Nat) : S :=
  if (m.cells s).tail = none then zero else last s

/-- Every sequence has the state that was last given to it. -/
structure Kept (zero : S) (R last : Nat → S) (m : Memory) : Prop where
  tied : Tied m
  track : Track zero R (m.expected zero last) m

variable {c s : Nat}

theorem Tied.empty_iff (h : Tied m) (hc : c < m.size) : (m.cells c).seqId = ∅ ↔ m.Free c := by
  constructor
  · intro he s hs ht
    have := (h.mem_iff s c hc).mpr ⟨hs, ht⟩
    rw [he] at this
    exact notMem_empty s this
  · intro hf
    refine eq_empty_of_forall_notMem fun s hs => ?_
    obtain ⟨hlt, ht⟩ := (h.mem_iff s c hc).mp hs
    exact hf s hlt ht

theorem Tied.stands (h : Tied m) : m.Stands := fun c hc s hs => ((h.mem_iff s c hc).mp hs).2

theorem Tied.lost {P : Nat → Prop} (h : Tied m) (hl : Lost P m m') : Tied m' where
  mem_iff s c hc := by
    simpa using hl.mem_iff (Q := fun _ => True)
      (fun s c hc => by simpa using h.mem_iff s c hc) s c hc
  tail_lt := hl.tail_lt h.tail_lt
  head := by
    rw [hl.size]
    exact hl.head h.head
  src := hl.src_self h.src

theorem load_of_none (h : (m.cells c).src = none) : m.load zero R c = zero := by
  rw [Memory.load, h]

theorem Kept.lost {P : Nat → Prop} (h : Kept zero R last m) (hl : Lost P m m') :
    Kept zero R last m' := by
  have ht' := h.tied.lost hl
  refine ⟨ht', ?_, ?_, ?_⟩
  · intro s hs c hc
    have hmem := (ht'.mem_iff s c (ht'.tail_lt s hs c hc)).mpr ⟨hs, hc⟩
    have hclt := ht'.tail_lt s hs c hc
    rw [hl.size] at hs hclt
    obtain ⟨hold, hP⟩ := (hl.seqId c hclt s).mp hmem
    have hsrc : (m'.cells c).src = (m.cells c).src := by
      rcases hl.src c hclt with he | he
      · exact he
      · rw [he.2] at hmem
        exact absurd hmem (notMem_empty s)
    have htail := hl.kept s hs hP
    rw [load_congr hsrc, h.track.tail s hs c (htail.symm.trans hc), Memory.expected,
      Memory.expected, htail]
  · intro s _ hn
    exact if_pos hn
  · intro c hc hf
    have he := (ht'.empty_iff hc).mpr hf
    rw [hl.size] at hc
    by_cases hold : (m.cells c).seqId = ∅
    · rcases hl.src c hc with hs | hs
      · rw [load_congr hs]
        exact h.track.free c hc ((h.tied.empty_iff hc).mp hold)
      · exact load_of_none hs.1
    · exact load_of_none (hl.emptied c hc he hold)

theorem Kept.release (h : Kept zero R last m) (s : Nat) : Kept zero R last (m.release s) :=
  h.lost (release_lost h.tied.stands)

theorem Kept.seqRm {id p0 p1 : Int} (h : Kept zero R last m) (hs : ¬ m.Strands id p0 p1) :
    Kept zero R last (m.seqRm id p0 p1).2 := by
  obtain he | ⟨m₁, P, he, -, hl⟩ := seqRm_lost h.tied.stands hs
  · rw [he]
    exact h
  · rw [he]
    exact h.lost hl

theorem Kept.seqKeep (h : Kept zero R last m) (id : Int) : Kept zero R last (m.seqKeep id) :=
  h.lost (seqKeep_lost m id)

theorem movePos_lost (m : Memory) (id p0 p1 : Int) (f : Int → Int) :
    Lost (fun _ => False) m (m.movePos id p0 p1 f) := by
  have hsame : (m.movePos id p0 p1 f).size = m.size ∧ (m.movePos id p0 p1 f).head = m.head ∧
      ∀ c, ((m.movePos id p0 p1 f).cells c).tail = (m.cells c).tail ∧
        ((m.movePos id p0 p1 f).cells c).seqId = (m.cells c).seqId ∧
        ((m.movePos id p0 p1 f).cells c).src = (m.cells c).src := by
    unfold Memory.movePos
    dsimp only
    split
    · exact ⟨rfl, rfl, fun _ => ⟨rfl, rfl, rfl⟩⟩
    · split
      · split
        · exact ⟨rfl, rfl, fun _ => ⟨rfl, rfl, rfl⟩⟩
        · next t ht =>
          split
          · refine ⟨rfl, rfl, fun c => ?_⟩
            rw [Memory.modify_cells]
            split
            · next hc =>
              subst hc
              exact ⟨rfl, rfl, rfl⟩
            · exact ⟨rfl, rfl, rfl⟩
          · exact ⟨rfl, rfl, fun _ => ⟨rfl, rfl, rfl⟩⟩
      · exact ⟨rfl, rfl, fun _ => ⟨rfl, rfl, rfl⟩⟩
  obtain ⟨hsize, hhead, hcell⟩ := hsame
  refine ⟨hsize, fun hh => hhead ▸ hh, fun _ _ hf => hf.elim, fun s _ _ => (hcell s).1,
    fun c _ s => ?_, fun c _ => .inl (hcell c).2.2, fun c _ he hne => ?_⟩
  · rw [(hcell c).2.1, not_false_eq_true, and_true]
  · rw [(hcell c).2.1] at he
    exact absurd he hne

theorem Kept.seqAdd (h : Kept zero R last m) (id p0 p1 shift : Int) :
    Kept zero R last (m.seqAdd id p0 p1 shift) := by
  unfold Memory.seqAdd
  split
  · exact h
  · exact h.lost (movePos_lost m _ _ _ _)

theorem Kept.seqDiv (h : Kept zero R last m) (id p0 p1 d : Int) :
    Kept zero R last (m.seqDiv id p0 p1 d) := by
  unfold Memory.seqDiv
  split
  · exact h
  · exact h.lost (movePos_lost m _ _ _ _)

/-- The state that a copy gives to its destination. -/
def inherit (n : Nat) (last : Nat → S) (src dst : Int) : Nat → S :=
  if src ≠ dst ∧ (0 ≤ dst ∧ dst < n) ∧ 0 ≤ src ∧ src < n then
    update last dst.toNat (last src.toNat)
  else last

/-- A sequence without a cell may be given any state. -/
theorem Kept.forget (h : Kept zero R last m) (hs : (m.cells s).tail = none) (x : S) :
    Kept zero R (update last s x) m := by
  have he : m.expected zero (update last s x) = m.expected zero last := by
    funext r
    unfold Memory.expected
    by_cases hr : r = s
    · rw [hr, if_pos hs, if_pos hs]
    · rw [update_of_ne hr]
  exact ⟨h.tied, he ▸ h.track⟩

/-- A sequence joins the cell of another. -/
theorem Kept.join {r t : Nat} (h : Kept zero R last m) (hs : s < m.size) (hr : r < m.size)
    (hfree : (m.cells s).tail = none) (hrt : (m.cells r).tail = some t) :
    Kept zero R (update last s (last r))
      ((m.modify t fun x => { x with seqId := insert s x.seqId }).modify s fun x =>
        { x with tail := some t }) := by
  have hcell := joined_cells m s t
  have htl := h.tied.tail_lt r hr t hrt
  refine ⟨⟨fun q c hc => ?_, joined_tail_lt h.tied.tail_lt htl, h.tied.head, fun c hc => ?_⟩,
    ⟨fun q hq c hqc => ?_, fun q _ hq => if_pos hq, fun c hc hf => ?_⟩⟩
  · simpa using joined_mem_iff (Q := fun _ => True) (fun q c hc => by
      simpa using h.tied.mem_iff q c hc) hs trivial hfree q c hc
  · rw [(hcell c).2.2.1]
    exact h.tied.src c hc
  · change q < m.size at hq
    rw [load_congr (hcell c).2.2.1, Memory.expected, if_neg (by rw [hqc]; exact some_ne_none c)]
    rw [(hcell q).2.1] at hqc
    split at hqc
    · next hqs =>
      cases hqc
      rw [hqs, update_self, h.track.tail r hr t hrt, Memory.expected,
        if_neg (by rw [hrt]; exact some_ne_none t)]
    · next hqs =>
      rw [update_of_ne hqs, h.track.tail q hq c hqc, Memory.expected,
        if_neg (by rw [hqc]; exact some_ne_none c)]
  · change c < m.size at hc
    rw [load_congr (hcell c).2.2.1]
    apply h.track.free c hc
    intro q hq hqc
    have hqs : q ≠ s := by
      rintro rfl
      rw [hfree] at hqc
      cases hqc
    apply hf q hq
    rw [(hcell q).2.1, if_neg hqs, hqc]

theorem Kept.seqCp (h : Kept zero R last m) (src dst : Int) :
    Kept zero R (inherit m.size last src dst) (m.seqCp src dst) := by
  unfold Memory.seqCp inherit
  by_cases he : src = dst
  · rw [if_pos he, if_neg fun hn => hn.1 he]
    exact h
  · rw [if_neg he]
    by_cases hin : (0 ≤ dst ∧ dst < m.size) ∧ 0 ≤ src ∧ src < m.size
    · rw [if_pos hin, if_pos ⟨he, hin⟩]
      have hrel := h.release dst.toNat
      have hgone : ((m.release dst.toNat).cells dst.toNat).tail = none := by
        rw [release_tail, if_pos rfl]
      dsimp only
      split
      · exact hrel.forget hgone _
      · next t ht =>
        apply hrel.join _ _ hgone ht
        · rw [release_size]
          omega
        · rw [release_size]
          omega
    · rw [if_neg hin, if_neg fun hn => hin hn.2]
      exact h

end Llama.Recurrent
