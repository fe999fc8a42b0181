import Llama.Alloc.Lifetime

/-!
# The passes before the walk

The leafs are allocated first, then the inputs while children and views are counted. No tensor is
used in place there: leafs have no operation, and in a regular graph the counts that are there when
an input is allocated do not allow it. -/

namespace Llama.Alloc

open List Option

variable {B : Buffers} {g : Graph} {s s' : Galloc} {n id : Nat}

/-- Invariant rule for a pass: the motive speaks about the tensors that are done. -/
theorem pass_induction {f : Galloc → Nat → Nat → Option Galloc} {ids : Nat → Nat}
    {motive : List Nat → Galloc → Prop} {l : List Nat}
    (hs : ∀ done t rest, l = done ++ t :: rest → ∀ i s s', motive done s → f s t i = some s' →
      motive (done ++ [t]) s') {i : Nat} (h0 : motive [] s)
      (h : Galloc.pass f ids i l s = some s') : motive l s' := by
  have key : ∀ (rest done : List Nat) (i : Nat) (s : Galloc), l = done ++ rest → motive done s →
      Galloc.pass f ids i rest s = some s' → motive l s' := by
    intro rest
    induction rest with
    | nil =>
      intro done i s hl hm h
      cases h
      rw [hl, append_nil]
      exact hm
    | cons t rest ih =>
      intro done i s hl hm h
      obtain ⟨s₁, hs₁, h⟩ := bind_eq_some_iff.mp h
      refine ih (done ++ [t]) (i + 1) s₁ ?_ (hs done t rest hl _ s s₁ hm hs₁) h
      rw [hl, append_assoc]
      rfl
  exact key l [] i s rfl h0 h

/-- A tensor that uses no other one in place gets a range of its own. -/
theorem allocateNode_plain (hm : Mem B g s.tallocs s.place) (hx : B.Exact g)
    (hself : (g.tensor n).op.canInplace = true → n ∉ g.sources n)
    (hop : g.Ownable n → ∀ p, ¬ Galloc.Reuses g s n p) (h : s.allocateNode B g n id = some s') :
    Mem B g s'.tallocs s'.place ∧
      (∀ t, (s'.hash t).children = (s.hash t).children ∧ (s'.hash t).views = (s.hash t).views) ∧
      ∀ t, s'.isOwn t = true ↔ s.isOwn t = true ∨ (t = n ∧ g.Ownable n) := by
  by_cases hable : g.Ownable n
  · rcases Galloc.allocateNode_spec hm hx hself h with ⟨rfl, hown⟩ | ⟨-, -, taken, hob⟩
    · refine ⟨hm, fun _ => ⟨rfl, rfl⟩, fun t => ⟨.inl, ?_⟩⟩
      rintro (ht | ⟨rfl, -⟩)
      · exact ht
      · exact hown hable
    · have htaken : taken = none := eq_none_iff_forall_ne_some.mpr fun p hp =>
        hop hable p (hob.parent p hp)
      refine ⟨hob.mem, hob.counts, fun t => ?_⟩
      by_cases ht : t = n
      · subst ht
        exact iff_of_true hob.own (.inr ⟨rfl, hable⟩)
      · rw [hob.other t ht, htaken]
        simp [ht]
  · obtain rfl : s = s' := some.inj ((allocateNode_eq_self fun h => (hable h).elim).symm.trans h)
    exact ⟨hm, fun _ => ⟨rfl, rfl⟩, fun t => by simp [hable]⟩

/-- State of the allocator when the leafs `ls` are allocated, the views among `vs` and the operands
`rs` are counted, and the inputs among `ns` are allocated. -/
structure Counted (B : Buffers) (g : Graph) (ls vs ns rs : List Nat) (s : Galloc) : Prop where
  mem : Mem B g s.tallocs s.place
  children : ∀ t, (s.hash t).children = rs.count t
  views : ∀ t, (s.hash t).views = (g.viewsIn vs t).length
  owns : ∀ t, s.isOwn t = true ↔ g.Ownable t ∧ (t ∈ ls ∨ ((g.tensor t).input = true ∧ t ∈ ns))

variable {ls vs ns rs : List Nat}

theorem counted_start (B : Buffers) (g : Graph) : Counted B g [] [] [] [] (Galloc.start B) where
  mem :=
    { sound := fun _ => (new_neat _ _).sound
      alignment := fun _ => rfl
      ownable := nofun
      chunk := nofun
      used := nofun
      apart := nofun }
  children _ := rfl
  views _ := rfl
  owns t := by simp [Galloc.start, Galloc.isOwn]

variable {t : Nat}

theorem Counted.leaf (h : Counted B g ls [] [] [] s) (hx : B.Exact g)
    (hop : (g.tensor t).op = .none) (ha : s.allocateNode B g t id = some s') :
    Counted B g (ls ++ [t]) [] [] [] s' := by
  obtain ⟨hmem, hcounts, hown⟩ := allocateNode_plain h.mem hx (fun h => by rw [hop] at h; cases h)
    (fun _ p hre => by have h := hre.1; rw [hop] at h; cases h) ha
  refine ⟨hmem, fun u => ?_, fun u => ?_, fun u => ?_⟩
  · rw [(hcounts u).1]
    exact h.children u
  · rw [(hcounts u).2]
    exact h.views u
  · rw [hown, h.owns]
    by_cases hu : u = t
    · subst hu
      simp
      tauto
    · simp [hu]

theorem Counted.recount (h : Counted B g ls vs ns rs s) {vs' rs' : List Nat}
    (hta : s'.tallocs = s.tallocs) (hpl : s'.place = s.place)
    (hc : ∀ t, (s'.hash t).children = rs'.count t)
    (hv : ∀ t, (s'.hash t).views = (g.viewsIn vs' t).length) : Counted B g ls vs' ns rs' s' := by
  refine ⟨by rw [hta, hpl]; exact h.mem, hc, hv, fun t => ?_⟩
  rw [Galloc.isOwn_congr hpl]
  exact h.owns t

theorem Graph.viewsIn_concat (g : Graph) (vs : List Nat) (n t : Nat) :
    (g.viewsIn (vs ++ [n]) t).length = (g.viewsIn vs t).length +
      if (g.tensor n).viewSrc = some t ∧ (g.tensor n).op ≠ .none then 1 else 0 := by
  rw [viewsIn, viewsIn, filter_append, length_append, filter_cons, filter_nil]
  simp only [decide_eq_true_eq]
  split <;> rfl

theorem Counted.countView (h : Counted B g ls vs ns rs s) (n : Nat) :
    Counted B g ls (vs ++ [n]) ns rs (s.countView g n) := by
  have hskip : (∀ t, ¬ ((g.tensor n).viewSrc = some t ∧ (g.tensor n).op ≠ .none)) →
      Counted B g ls (vs ++ [n]) ns rs s := fun hno =>
    h.recount rfl rfl h.children (fun t => by
      rw [g.viewsIn_concat, if_neg (hno t), h.views]
      rfl)
  rw [Galloc.countView]
  cases hv : (g.tensor n).viewSrc with
  | none => exact hskip fun t ht => by simp [hv] at ht
  | some v =>
    dsimp only
    split
    · rename_i hop
      have hkeep := s.upd_place_of_keep v (f := fun h => { h with views := h.views + 1 })
        fun _ => ⟨rfl, rfl, rfl⟩
      refine h.recount rfl hkeep.1 (fun t => ?_) fun t => ?_
      · rw [← h.children t]
        by_cases ht : t = v
        · subst ht
          rw [Galloc.upd_hash_self]
        · rw [Galloc.upd_hash_of_ne _ _ ht]
      · rw [g.viewsIn_concat, hv]
        by_cases ht : t = v
        · subst ht
          rw [Galloc.upd_hash_self, if_pos ⟨rfl, hop⟩, Int.natCast_add, ← h.views t]
          rfl
        · rw [Galloc.upd_hash_of_ne _ _ ht, if_neg (fun he => ht (some.inj he.1).symm), h.views t]
          rfl
    · rename_i hop
      exact hskip fun t ht => hop ht.2

/-- In a regular graph an input does not use an operand in place. -/
theorem Counted.not_reuses (hr : g.Regular) {done rest : List Nat}
    (hnodes : g.nodes = done ++ n :: rest)
    (h : Counted B g g.leafs (done ++ [n]) done (done.flatMap g.sources) s)
    (hable : g.Ownable n) (hin : (g.tensor n).input = true) (p : Nat) :
    ¬ Galloc.Reuses g s n p := by
  intro hre
  have hus := hre.usable
  obtain ⟨hpable, hmem⟩ := (h.owns p).mp hus.own
  have h1 := h.children p
  have h2 := h.views p
  rw [hus.children] at h1
  rw [hus.views, g.viewsIn_concat, if_neg (by simp [hable.2.2])] at h2
  refine hr.inputs done n rest hnodes hable hin hre.1 p hre.source hpable (hmem.imp_right And.left)
    hus.output hus.layout (by omega) (length_eq_zero_iff.mp (by omega))

theorem Counted.node (hg : g.Ordered) (hr : g.Regular) (hx : B.Exact g) {done rest : List Nat}
    (hnodes : g.nodes = done ++ n :: rest)
    (h : Counted B g g.leafs (done ++ [n]) done (done.flatMap g.sources) s)
    (ha : (if (g.tensor n).input then s.allocateNode B g n id else some s) = some s') :
    Counted B g g.leafs (done ++ [n]) (done ++ [n]) (done.flatMap g.sources) s' := by
  have howns : ∀ t, g.Ownable t ∧
      (t ∈ g.leafs ∨ ((g.tensor t).input = true ∧ t ∈ done ++ [n])) ↔
      s.isOwn t = true ∨ (t = n ∧ g.Ownable n ∧ (g.tensor n).input = true) := by
    intro t
    rw [h.owns, mem_append, mem_singleton]
    by_cases ht : t = n
    · subst ht
      tauto
    · simp [ht]
  by_cases hin : (g.tensor n).input = true
  · rw [if_pos hin] at ha
    obtain ⟨hmem, hcounts, hown⟩ := allocateNode_plain h.mem hx (fun _ => hg.notMem_sources hnodes)
      (fun hable => h.not_reuses hr hnodes hable hin) ha
    refine ⟨hmem, fun u => ?_, fun u => ?_, fun u => ?_⟩
    · rw [(hcounts u).1]
      exact h.children u
    · rw [(hcounts u).2]
      exact h.views u
    · rw [hown, howns, and_iff_left hin]
  · rw [if_neg hin] at ha
    cases ha
    exact ⟨h.mem, h.children, h.views, fun u => by rw [howns]; simp [hin]⟩

/-- An operand that is an input was allocated before. -/
theorem Counted.source (h : Counted B g ls vs ns rs s) {p : Nat} (hp : p ∈ ls ∨ p ∈ ns)
    (ha : s.countSource B g id p = some s') : Counted B g ls vs ns (rs ++ [p]) s' := by
  rw [Galloc.countSource] at ha
  generalize hs₁ : (s.upd p fun h => { h with children := h.children + 1 }) = s₁ at ha
  have hkeep := s.upd_place_of_keep p (f := fun h => { h with children := h.children + 1 })
    fun _ => ⟨rfl, rfl, rfl⟩
  rw [hs₁] at hkeep
  obtain rfl : s₁ = s' := by
    split at ha
    · rename_i hin
      rw [allocateNode_eq_self fun hable => ?_] at ha
      · exact some.inj ha
      · rw [Galloc.isOwn_congr hkeep.1, h.owns]
        exact ⟨hable, hp.imp_right fun hn => ⟨hin, hn⟩⟩
    · exact some.inj ha
  refine h.recount (by rw [← hs₁]; rfl) hkeep.1 (fun t => ?_) fun t => ?_
  · rw [← hs₁, count_append, count_singleton]
    by_cases ht : t = p
    · subst ht
      rw [Galloc.upd_hash_self]
      simp [h.children t]
    · rw [Galloc.upd_hash_of_ne _ _ ht, h.children t]
      simp [Ne.symm ht]
  · rw [← h.views t, ← hs₁]
    by_cases ht : t = p
    · subst ht
      rw [Galloc.upd_hash_self]
    · rw [Galloc.upd_hash_of_ne _ _ ht]

theorem Counted.sources : ∀ {l rs : List Nat} {s : Galloc}, (∀ p ∈ l, p ∈ ls ∨ p ∈ ns) →
    Counted B g ls vs ns rs s → l.foldlM (Galloc.countSource B g id) s = some s' →
    Counted B g ls vs ns (rs ++ l) s' := by
  intro l
  induction l with
  | nil =>
    intro rs s _ h ha
    cases ha
    rwa [append_nil]
  | cons p l ih =>
    intro rs s hl h ha
    obtain ⟨s₁, hs₁, ha⟩ := bind_eq_some_iff.mp ha
    rw [append_cons]
    exact ih (fun q hq => hl q (mem_cons_of_mem p hq)) (h.source (hl p mem_cons_self) hs₁) ha

theorem Counted.countNode (hg : g.Ordered) (hr : g.Regular) (hx : B.Exact g) {done rest : List Nat}
    (hnodes : g.nodes = done ++ n :: rest)
    (h : Counted B g g.leafs done done (done.flatMap g.sources) s)
    (ha : s.countNode B g n id = some s') :
    Counted B g g.leafs (done ++ [n]) (done ++ [n]) ((done ++ [n]).flatMap g.sources) s' := by
  have hcount : s.countNode B g n id = (if (g.tensor n).input
      then (s.countView g n).allocateNode B g n id else some (s.countView g n)).bind
        fun s => (g.sources n).foldlM (Galloc.countSource B g id) s := by
    rw [Galloc.countNode]
    split <;> rfl
  rw [hcount] at ha
  obtain ⟨s₁, hs₁, ha⟩ := bind_eq_some_iff.mp ha
  rw [flatMap_append, flatMap_singleton]
  refine Counted.sources (fun p hp => ?_) ((h.countView n).node hg hr hx hnodes hs₁) ha
  exact (hg.sources done n rest hnodes p hp).imp_right fun hmem => mem_append_left _ hmem

/-- The invariant of the walk holds when it starts. -/
theorem Counted.inv (hg : g.Ordered) (h : Counted B g g.leafs g.nodes g.nodes g.reads s) :
    Inv B g g.nodes g.reads s where
  mem := h.mem
  children := h.children
  views t := by
    rw [h.views, g.viewsLeft_reads]
    rfl
  done t ht hnot := .inl ((h.owns t).mpr ⟨ht.1, .inl (ht.2.resolve_right hnot)⟩)
  todo t ht hable := by
    have hleaf : t ∉ g.leafs := fun hl => (hg.leafs t hl).2 ht
    rw [Bool.eq_iff_iff, h.owns]
    simp [hable, hleaf, ht]

/-- The passes over the leafs and the nodes lead to the walk. -/
theorem inv_of_passes (hg : g.Ordered) (hr : g.Regular) (hx : B.Exact g)
    {leafIds nodeIds : Nat → Nat} {s₁ s₂ : Galloc}
    (h₁ : Galloc.pass (Galloc.allocateNode B g) leafIds 0 g.leafs (Galloc.start B) = some s₁)
    (h₂ : Galloc.pass (Galloc.countNode B g) nodeIds 0 g.nodes s₁ = some s₂) :
    Inv B g g.nodes g.reads s₂ := by
  have hleafs : Counted B g g.leafs [] [] [] s₁ :=
    pass_induction (motive := fun done s => Counted B g done [] [] [] s)
      (fun done t rest hl i s s' h ha => h.leaf hx (hg.leafs t (by rw [hl]; simp)).1 ha)
      (counted_start B g) h₁
  have hnodes : Counted B g g.leafs g.nodes g.nodes (g.nodes.flatMap g.sources) s₂ :=
    pass_induction
      (motive := fun done s => Counted B g g.leafs done done (done.flatMap g.sources) s)
      (fun done t rest hl i s s' h ha => h.countNode hg hr hx hl ha) hleafs h₂
  exact hnodes.inv hg

end Llama.Alloc
