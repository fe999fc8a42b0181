import Llama.Alloc.GraphStart

/-!
# Safety of allocated graphs

The places that a walk over a graph assigns: when a node is written, its range meets no other
tensor that holds data and is still needed, but for a parent that the node works on in place.
-/

namespace Llama.Alloc

open List Option

variable {B : Buffers} {g : Graph} {s s' : Galloc} {pre post : List Nat} {n id : Nat}

/-- The tensor holds data behind the nodes `pre`: it is a leaf, an input or one of the nodes. -/
def Graph.Holds (g : Graph) (pre : List Nat) (t : Nat) : Prop :=
  t ∈ g.leafs ∨ (t ∈ g.nodes ∧ (g.tensor t).input = true) ∨ t ∈ pre

/-- The bytes of a tensor at a place. -/
def Buffers.range (B : Buffers) (g : Graph) (t : Nat) (p : Place) : Span where
  offset := p.2.offset
  size := B.allocSize (B.buft p.1) (g.tensor t)

/-- The bytes of two tensors do not meet. -/
def Apart (B : Buffers) (g : Graph) (pos : Nat → Place) (t u : Nat) : Prop :=
  B.SameChunk (pos t) (pos u) → Disjoint (B.range g t (pos t)).bytes (B.range g u (pos u)).bytes

/-- A node works in place on an operand whose last reader it is. -/
structure Graph.Reused (g : Graph) (pre : List Nat) (n : Nat) (post : List Nat) (p : Nat) :
    Prop where
  /-- An operand. -/
  source : p ∈ g.sources n
  /-- The operation can work in place. -/
  inplace : (g.tensor n).op.canInplace = true
  /-- No later node reads it. -/
  last : ¬ g.ReadBy post p
  /-- The application does not read it. -/
  kept : ¬ g.Kept pre p

/-- Writing node `n`, which follows `pre` and is followed by `post`, meets no tensor that holds
data and is still needed, but for one operand that is used in place. -/
def WriteSafe (B : Buffers) (g : Graph) (pos : Nat → Place) (pre : List Nat) (n : Nat)
    (post : List Nat) : Prop :=
  ∃ taken : Option Nat, (∀ p, taken = some p → g.Reused pre n post p) ∧
    ∀ t, g.Owned t → g.Holds pre t → g.ReadBy (n :: post) t ∨ g.Kept pre t → t ≠ g.root n →
      taken ≠ some t → Apart B g pos (g.root n) t

/-- Every node that the allocator gives memory to can be written. -/
def GraphSafe (B : Buffers) (g : Graph) (pos : Nat → Place) : Prop :=
  ∀ pre n post, g.nodes = pre ++ n :: post → (g.tensor n).op ≠ .none → g.Owned (g.root n) →
    WriteSafe B g pos pre n post

variable {pos : Nat → Place} {t v : Nat}

/-- A byte of a tensor that is needed is written. -/
theorem not_graphSafe (pre : List Nat) (n : Nat) (post : List Nat) (t x : Nat)
    (hnodes : g.nodes = pre ++ n :: post) (hop : (g.tensor n).op ≠ .none) (ho : g.Owned (g.root n))
    (ht : g.Owned t) (hold : g.Holds pre t) (hneed : g.ReadBy (n :: post) t ∨ g.Kept pre t)
    (hne : t ≠ g.root n) (hnot : ¬ g.Reused pre n post t)
    (hsame : B.SameChunk (pos (g.root n)) (pos t))
    (hn : x ∈ (B.range g (g.root n) (pos (g.root n))).bytes)
    (hx : x ∈ (B.range g t (pos t)).bytes) : ¬ GraphSafe B g pos := by
  intro hsafe
  obtain ⟨taken, hreused, hapart⟩ := hsafe pre n post hnodes hop ho
  have hmeet := hapart t ht hold hneed hne (fun he => hnot (hreused t he)) hsame
  exact Set.disjoint_left.mp hmeet hn hx

theorem range_subset_span (t : Nat) (p : Place) : (B.range g t p).bytes ⊆ (B.span g t p).bytes :=
  @Span.bytes_prefix_subset (B.span g t p) _ (le_alignedOffset _ _)

theorem Graph.ReadBy.mono {ns ns' : List Nat} (h : g.ReadBy ns t) (hsub : ns ⊆ ns') :
    g.ReadBy ns' t := by
  obtain ⟨m, hm, hx⟩ := h
  exact ⟨m, hsub hm, hx⟩

theorem Graph.Kept.mono {ns ns' : List Nat} (h : g.Kept ns t) (hsub : ns ⊆ ns') : g.Kept ns' t :=
  h.imp_right fun ⟨v, hmem, hv⟩ => ⟨v, hmem.imp_right fun hm => hsub hm, hv⟩

theorem Graph.Needed.mono {ns ns' : List Nat} (h : g.Needed ns t) (hsub : ns ⊆ ns') :
    g.Needed ns' t :=
  h.imp (fun hread => hread.mono hsub) fun h => h.imp_left fun ⟨v, hv, hview⟩ => ⟨v, hsub hv, hview⟩

/-- What a node needs when it is written is needed from there on. -/
theorem Graph.needed_of_write {since : List Nat} (hnodes : g.nodes = pre ++ n :: post)
    (hsince : n :: post <:+ since) (h : g.ReadBy (n :: post) t ∨ g.Kept pre t) :
    g.Needed since t := by
  refine h.imp (fun hread => hread.mono hsince.subset) fun hkept => .inr (hkept.mono ?_)
  rw [hnodes]
  exact subset_append_left _ _

section

variable (hg : g.Ordered)
include hg

/-- Tensors that hold data are not nodes that follow, but for the inputs. -/
theorem Graph.Holds.notMem (hnodes : g.nodes = pre ++ n :: post) (h : g.Holds pre t) :
    t ∉ n :: post ∨ (g.tensor t).input = true := by
  rcases h with hl | ⟨-, hi⟩ | hp
  · left
    intro hmem
    exact (hg.leafs t hl).2 (by rw [hnodes]; exact mem_append_right _ hmem)
  · exact .inr hi
  · exact .inl fun hmem => hg.notMem_pre hnodes hmem hp

theorem Graph.Ordered.root_notMem (hnodes : g.nodes = pre ++ n :: post) : g.root n ∉ post := by
  intro hmem
  cases hv : (g.tensor n).viewSrc with
  | none =>
    rw [Graph.root_of_none hv] at hmem
    have hnd := hg.nodup
    rw [hnodes, nodup_append, nodup_cons] at hnd
    exact hnd.2.1.1 hmem
  | some v =>
    rw [Graph.root_of_view hv] at hmem
    exact hg.viewSrc_notMem hnodes (.inl rfl) hv (mem_cons_of_mem n hmem)

end

/-- Two tensors that are owned do not meet. -/
theorem Galloc.apart (hm : Mem B g s.tallocs s.place) {t u : Nat} (ht : s.isOwn t = true)
    (hu : s.isOwn u = true) (hne : t ≠ u) : Apart B g s.spot t u := fun hsame =>
  (hm.apart t u _ _ hne (place_eq_some ht) (place_eq_some hu) hsame).mono
    (range_subset_span t _) (range_subset_span u _)

/-- The state in which a node got memory last, seen from the nodes `todo`; `since` are the nodes
behind that one. What they need was owned in it, and is still where it was. -/
structure Snapshot (B : Buffers) (g : Graph) (todo : List Nat) (s : Galloc) (since : List Nat)
    (s₀ : Galloc) : Prop where
  mem : Mem B g s₀.tallocs s₀.place
  spot : s.spot = s₀.spot
  suffix : todo <:+ since
  skipped : ∀ t ∈ since, t ∉ todo → ¬ g.Gets t
  input : ∀ t ∈ since, g.Owned t → (g.tensor t).input = true → s₀.isOwn t = true
  needed : ∀ t, g.Owned t → t ∉ since → g.Needed since t → s₀.isOwn t = true

theorem Snapshot.own {todo since : List Nat} {s₀ : Galloc} (h : Snapshot B g todo s since s₀)
    (ho : g.Owned t) (hmem : t ∈ todo → (g.tensor t).input = true)
    (hneed : t ∉ since → g.Needed since t) : s₀.isOwn t = true := by
  by_cases hsince : t ∈ since
  · refine h.input t hsince ho ?_
    by_cases htodo : t ∈ todo
    · exact hmem htodo
    · exact Bool.eq_true_of_not_eq_false fun hin => h.skipped t hsince htodo ⟨ho.1, hin⟩
  · exact h.needed t ho hsince (hneed hsince)

section

variable (hg : g.Ordered) (hnodes : g.nodes = pre ++ n :: post)
include hg hnodes

/-- Writing a node that gets no memory is safe. -/
theorem Snapshot.writeSafe {since : List Nat} {s₀ : Galloc}
    (h : Snapshot B g (n :: post) s since s₀) (hgets : ¬ g.Gets n) (hop : (g.tensor n).op ≠ .none)
    (ho : g.Owned (g.root n)) : WriteSafe B g s.spot pre n post := by
  have hroot : s₀.isOwn (g.root n) = true := by
    cases hv : (g.tensor n).viewSrc with
    | none =>
      rw [Graph.root_of_none hv] at ho ⊢
      have hin := Bool.eq_true_of_not_eq_false fun hin => hgets ⟨ho.1, hin⟩
      exact h.input n (h.suffix.subset mem_cons_self) ho hin
    | some v =>
      rw [Graph.root_of_view hv] at ho ⊢
      refine h.own ho (fun hmem => absurd hmem (hg.viewSrc_notMem hnodes (.inl rfl) hv)) fun _ => ?_
      exact .inr (.inl ⟨n, h.suffix.subset mem_cons_self, hv, hop⟩)
  refine ⟨none, fun _ => nofun, fun t ht hold hneed hne _ => ?_⟩
  rw [h.spot]
  refine Galloc.apart h.mem hroot (h.own ht (fun hmem => ?_) fun _ => ?_) (Ne.symm hne)
  · exact (hold.notMem hg hnodes).resolve_left fun hn => hn hmem
  · exact Graph.needed_of_write hnodes h.suffix hneed

variable (hr : g.Regular) (h : Inv B g (n :: post) ((n :: post).flatMap g.sources) s)
include hr h

omit hg in
/-- What is needed when a node gets memory is owned then. -/
theorem Inv.own_of_needed (hgets : g.Gets n) (ho : g.Owned t)
    (hmem : t ∈ n :: post → (g.tensor t).input = true) (hneed : g.Needed (n :: post) t) :
    s.isOwn t = true := by
  by_cases ht : t ∈ n :: post
  · rw [h.todo t ht ho.1]
    exact hmem ht
  · refine (h.done t ho ht).resolve_right fun hup => ?_
    exact hr.kept n post ⟨pre, hnodes.symm⟩ hgets t ho hup hneed

variable {taken : Option Nat} (hgets : g.Gets n) (hob : Galloc.Obtained B g s s' n taken)
include hgets hob

theorem Inv.reused (hp : taken = some t) : g.Reused pre n post t := by
  have htakes := h.takes hg hnodes (hob.parent t hp)
  have hnot := hr.taken n post ⟨pre, hnodes.symm⟩ hgets t htakes
  refine ⟨htakes.source, htakes.1, fun hread => hnot (.inl hread), fun hkept => ?_⟩
  refine hnot (.inr (.inr (hkept.mono ?_)))
  rw [hnodes]
  exact subset_append_left _ _

/-- Writing a node that gets memory is safe at the places that are assigned then. -/
theorem Inv.writeSafe : WriteSafe B g s'.spot pre n post := by
  rw [WriteSafe, Graph.root_of_none hgets.1.2.2]
  refine ⟨taken, fun p hp => h.reused hg hnodes hr hgets hob hp,
    fun t ht hold hneed hne htaken => ?_⟩
  refine Galloc.apart hob.mem hob.own ?_ (Ne.symm hne)
  have hown := h.own_of_needed hnodes hr hgets ht
    (fun hmem => (hold.notMem hg hnodes).resolve_left fun hn => hn hmem)
    (Graph.needed_of_write hnodes (suffix_refl _) hneed)
  rw [hob.other t hne, hown]
  simp [htaken]

/-- The state after the allocation is the new one to look back to. -/
theorem Inv.snapshot (h' : Inv B g post (g.sources n ++ post.flatMap g.sources) s') :
    Snapshot B g post s' post s' := by
  refine ⟨hob.mem, rfl, suffix_refl _, fun t ht hn => absurd ht hn,
    fun t ht ho hin => (h'.todo t ht ho.1).trans hin, fun t ho hmem hneed => ?_⟩
  by_cases htn : t = n
  · rw [htn]
    exact hob.own
  · have hown := h.own_of_needed hnodes hr hgets ho (fun ht => absurd ht (by simp [htn, hmem]))
      (hneed.mono (subset_cons_self n post))
    have htaken : taken ≠ some t := fun hp =>
      hr.taken n post ⟨pre, hnodes.symm⟩ hgets t (h.takes hg hnodes (hob.parent t hp)) hneed
    rw [hob.other t htn, hown]
    simp [htaken]

end

theorem WriteSafe.congr {pos' : Nat → Place} (h : WriteSafe B g pos pre n post)
    (hn : pos' (g.root n) = pos (g.root n)) (ht : ∀ t, g.Owned t → g.Holds pre t → pos' t = pos t) :
    WriteSafe B g pos' pre n post := by
  obtain ⟨taken, hreused, hapart⟩ := h
  refine ⟨taken, hreused, fun t ho hold hneed hne htaken => ?_⟩
  rw [Apart, hn, ht t ho hold]
  exact hapart t ho hold hneed hne htaken

theorem walkNode_spec (hg : g.Ordered) (hr : g.Regular) (hx : B.Exact g)
    (hnodes : g.nodes = pre ++ n :: post)
    (h : Inv B g (n :: post) ((n :: post).flatMap g.sources) s) {since : List Nat} {s₀ : Galloc}
    (h₀ : Snapshot B g (n :: post) s since s₀) (hw : s.walkNode B g n id = some s') :
    Inv B g post (post.flatMap g.sources) s' ∧ (∃ since s₀, Snapshot B g post s' since s₀) ∧
      (∀ t, t ≠ n ∨ s.isOwn t = true → s'.spot t = s.spot t) ∧
      ((g.tensor n).op ≠ .none → g.Owned (g.root n) → WriteSafe B g s'.spot pre n post) := by
  obtain ⟨s₂, hs₂, hw⟩ := bind_eq_some_iff.mp hw
  rw [h.parents hg hnodes] at hs₂
  cases hs₂
  obtain ⟨s₁, ha, hu⟩ := bind_eq_some_iff.mp hw
  obtain ⟨taken, hgiven, h₁⟩ := h.allocate hg hx hnodes ha
  obtain ⟨h₂, hspot⟩ := h₁.update hg hnodes (suffix_refl _) hu
  have hspots : s'.spot = s₁.spot := funext hspot
  refine ⟨h₂, ?_⟩
  rw [hspots]
  rcases hgiven with ⟨rfl, -, hown⟩ | ⟨hable, hnot, hob⟩
  · -- a view, an input or a tensor with data of its own
    have hgets : ¬ g.Gets n := fun hgets => by
      have hin := (h.todo n mem_cons_self hgets.1).symm.trans (hown hgets.1)
      exact absurd (hin.symm.trans hgets.2) (by decide)
    refine ⟨⟨since, s₀, h₀.mem, hspots.trans h₀.spot, (suffix_cons n post).trans h₀.suffix,
      fun t ht hpost => ?_, h₀.input, h₀.needed⟩, fun _ _ => rfl, h₀.writeSafe hg hnodes hgets⟩
    by_cases htn : t = n
    · exact htn ▸ hgets
    · exact h₀.skipped t ht (by simp [htn, hpost])
  · have hgets : g.Gets n := ⟨hable, (h.todo n mem_cons_self hable).symm.trans hnot⟩
    have hsnap := h.snapshot hg hnodes hr hgets hob h₁
    refine ⟨⟨post, s₁, hsnap.mem, hspots, hsnap.suffix, hsnap.skipped, hsnap.input, hsnap.needed⟩,
      fun t ht => hob.spot t fun he => ?_, fun _ _ => h.writeSafe hg hnodes hr hgets hob⟩
    subst he
    have hown := ht.resolve_left fun hne => hne rfl
    rw [hnot] at hown
    cases hown

/-- Along the walk every node is safe at the places of its end: what has a place by then keeps
it. -/
theorem walk_safe (hg : g.Ordered) (hr : g.Regular) (hx : B.Exact g) {ids : Nat → Nat} :
    ∀ (todo pre : List Nat) (i : Nat) {s s' : Galloc}, g.nodes = pre ++ todo →
      Inv B g todo (todo.flatMap g.sources) s → (∃ since s₀, Snapshot B g todo s since s₀) →
      Galloc.pass (Galloc.walkNode B g) ids i todo s = some s' →
      (∀ t, t ∉ todo ∨ s.isOwn t = true → s'.spot t = s.spot t) ∧
      ∀ pre' n post, todo = pre' ++ n :: post → (g.tensor n).op ≠ .none → g.Owned (g.root n) →
        WriteSafe B g s'.spot (pre ++ pre') n post := by
  intro todo
  induction todo with
  | nil =>
    intro pre i s s' _ _ _ h
    cases h
    exact ⟨fun _ _ => rfl, fun pre' n post hl => by simp at hl⟩
  | cons n todo ih =>
    intro pre i s s' hnodes hinv hsnap h
    obtain ⟨s₁, hw, h⟩ := bind_eq_some_iff.mp h
    obtain ⟨since, s₀, hsnap⟩ := hsnap
    obtain ⟨hinv₁, hsnap₁, hspot, hsafe⟩ := walkNode_spec hg hr hx hnodes hinv hsnap hw
    obtain ⟨hspots, hrest⟩ := ih (pre ++ [n]) (i + 1) (by rw [hnodes, append_cons]) hinv₁ hsnap₁ h
    have hstay : ∀ t, t ∉ todo ∨ (g.Ownable t ∧ (g.tensor t).input = true) →
        s'.spot t = s₁.spot t := by
      intro t ht
      by_cases hmem : t ∈ todo
      · obtain ⟨hable, hin⟩ := ht.resolve_left (not_not_intro hmem)
        exact hspots t (.inr ((hinv₁.todo t hmem hable).trans hin))
      · exact hspots t (.inl hmem)
    refine ⟨fun t ht => ?_, fun pre' m post hl hop ho => ?_⟩
    · by_cases hmem : t ∈ todo
      · have hown := ht.resolve_left fun hn => hn (mem_cons_of_mem n hmem)
        have hable := hinv.mem.ownable t _ (Galloc.place_eq_some hown)
        have hin := (hinv.todo t (mem_cons_of_mem n hmem) hable).symm.trans hown
        rw [hstay t (.inr ⟨hable, hin⟩)]
        exact hspot t (.inr hown)
      · rw [hstay t (.inl hmem)]
        refine hspot t (ht.imp_left fun hn he => hn (he ▸ mem_cons_self))
    · cases pre' with
      | cons p pre' =>
        obtain ⟨rfl, rfl⟩ := List.cons.inj hl
        rw [append_cons]
        exact hrest pre' m post rfl hop ho
      | nil =>
        obtain ⟨rfl, rfl⟩ := List.cons.inj hl
        rw [append_nil]
        refine (hsafe hop ho).congr (hstay _ (.inl ?_)) fun t hto hold => hstay t ?_
        · exact hg.root_notMem hnodes
        · exact (hold.notMem hg hnodes).imp (fun hn hmem => hn (mem_cons_of_mem n hmem))
            fun hin => ⟨hto.1, hin⟩

/-- Before the walk nothing was given up. -/
theorem Inv.snapshot_start (h : Inv B g g.nodes g.reads s) : Snapshot B g g.nodes s g.nodes s := by
  refine ⟨h.mem, rfl, suffix_refl _, fun t ht hn => absurd ht hn,
    fun t ht ho hin => (h.todo t ht ho.1).trans hin, fun t ho hmem _ => ?_⟩
  refine (h.done t ho hmem).resolve_right ?_
  rintro (⟨-, p, rest, hp, hrest, -⟩ | ⟨n, post, hn, hpost, -⟩)
  · have h1 := hp.length_le
    have h2 := hrest.length_le
    rw [length_cons] at h1
    omega
  · have h1 := hn.length_le
    have h2 := hpost.length_le
    rw [length_cons] at h1
    omega

/-- The places of a graph that the allocator can follow are safe. -/
theorem alloc_graph_safe (hg : g.Ordered) (hr : g.Regular) (hx : B.Exact g)
    {nodeIds leafIds : Nat → Nat} (h : Galloc.allocGraphImpl B g nodeIds leafIds = some s) :
    GraphSafe B g s.spot := by
  obtain ⟨s₁, h₁, h⟩ := bind_eq_some_iff.mp h
  obtain ⟨s₂, h₂, h⟩ := bind_eq_some_iff.mp h
  have hinv := inv_of_passes hg hr hx h₁ h₂
  exact (walk_safe hg hr hx g.nodes [] 0 rfl hinv ⟨_, _, hinv.snapshot_start⟩ h).2

section

variable (hg : g.Ordered) (hviews : ∀ v ∈ g.reads, ∀ t, (g.tensor v).viewSrc = some t → g.Owned t →
  v ∈ g.nodes ∧ (g.tensor v).op ≠ .none)
include hg hviews

/-- When all views that are read are counted, the counter says which are left. -/
theorem Graph.Ordered.views_read (ho : g.Owned t) {left : List Nat} (h : g.viewsLeft left t = 0) :
    ∀ v ∈ g.views t, v ∈ g.reads ∧ v ∉ left := by
  have hsub : g.readViews left t ⊆ (g.views t).toFinset := by
    intro v hv
    obtain ⟨hread, hview, -⟩ := Finset.mem_filter.mp hv
    obtain ⟨hmem, hop⟩ := hviews v (mem_toFinset.mp hread) t hview ho
    exact mem_toFinset.mpr (Graph.mem_views.mpr ⟨hmem, hview, hop⟩)
  have hcard : (g.views t).toFinset.card = (g.views t).length :=
    toFinset_card_of_nodup (hg.nodup.filter _)
  have heq := Finset.eq_of_subset_of_card_le hsub (by rw [hcard]; rw [viewsLeft] at h; omega)
  intro v hv
  have hmem : v ∈ g.readViews left t := by rw [heq]; exact mem_toFinset.mpr hv
  obtain ⟨hread, -, hnot⟩ := Finset.mem_filter.mp hmem
  exact ⟨mem_toFinset.mp hread, hnot⟩

omit hviews in
/-- A node that is read and not yet computed is read later. -/
theorem Graph.Ordered.read_later {todo : List Nat} (htodo : todo <:+ g.nodes) (hv : v ∈ todo)
    (hread : v ∈ g.reads) : v ∈ todo.flatMap g.sources := by
  obtain ⟨pre, hpre⟩ := htodo
  rw [Graph.reads, ← hpre, flatMap_append] at hread
  refine (mem_append.mp hread).resolve_left fun hmem => ?_
  obtain ⟨q, hq, hvq⟩ := mem_flatMap.mp hmem
  obtain ⟨l₁, l₂, rfl⟩ := append_of_mem hq
  have hnodes : g.nodes = l₁ ++ q :: (l₂ ++ todo) := by
    rw [← hpre, append_assoc, cons_append]
  exact hg.source_notMem hnodes hvq (mem_cons_of_mem q (mem_append_right _ hv))

/-- Where views are counted and outputs are flagged at their sources, nothing is given up early. -/
theorem Graph.Ordered.not_needed (houtputs : ∀ v, v ∈ g.leafs ∨ v ∈ g.nodes →
      (g.tensor v).output = true → ∀ t, (g.tensor v).viewSrc = some t → g.Owned t →
      (g.tensor t).output = true ∨ (v ∈ g.views t ∧ v ∉ g.reads))
    (ho : g.Owned t) {todo left : List Nat} (htodo : todo <:+ g.nodes)
    (hleft : todo.flatMap g.sources <:+ left) (h : g.GivenUp todo left t) : ¬ g.Needed todo t := by
  have hnot := h.notMem hleft
  obtain ⟨hout, rest, hrest, hzero⟩ : (g.tensor t).output = false ∧
      ∃ rest, (∀ u ∈ todo.flatMap g.sources, u ∈ rest) ∧ g.viewsLeft rest t = 0 := by
    rcases h with ⟨hout, p, rest, -, hrest, hrun⟩ | ⟨n, post, -, hpost, -, htakes⟩
    · exact ⟨hout, rest, fun u hu => hrest.subset (hleft.subset hu), hrun.views⟩
    · refine ⟨htakes.fits.output, _, fun u hu => ?_, htakes.fits.views⟩
      rw [flatMap_cons]
      exact mem_append_right _ ((flatMap_suffix g.sources hpost).subset hu)
  have hread := hg.views_read hviews ho hzero
  rintro (⟨m, hm, x, hx, hroot⟩ | ⟨v, hv, hview, hop⟩ | hkept | ⟨v, hv, hview, hvout⟩)
  · have hmem : x ∈ todo.flatMap g.sources := mem_flatMap.mpr ⟨m, hm, hx⟩
    cases hvx : (g.tensor x).viewSrc with
    | none =>
      rw [Graph.root_of_none hvx] at hroot
      exact hnot (hroot ▸ hmem)
    | some u =>
      rw [Graph.root_of_view hvx] at hroot
      subst hroot
      obtain ⟨hxn, hop⟩ := hviews x ((flatMap_suffix g.sources htodo).subset hmem) u hvx ho
      exact (hread x (Graph.mem_views.mpr ⟨hxn, hvx, hop⟩)).2 (hrest x hmem)
  · obtain ⟨hvread, hvrest⟩ := hread v (Graph.mem_views.mpr ⟨htodo.subset hv, hview, hop⟩)
    exact hvrest (hrest v (hg.read_later htodo hv hvread))
  · rw [hout] at hkept
    cases hkept
  · rcases houtputs v hv hvout t hview ho with ht | ⟨hvt, hvread⟩
    · rw [hout] at ht
      cases ht
    · exact hvread (hread v hvt).1

/-- A graph is regular when the views that are read are nodes with an operation, outputs that are
views have a source that is an output or are nodes that nothing reads, and no input has an operation
that can work in place. -/
theorem Graph.Ordered.regular (houtputs : ∀ v, v ∈ g.leafs ∨ v ∈ g.nodes →
      (g.tensor v).output = true → ∀ t, (g.tensor v).viewSrc = some t → g.Owned t →
      (g.tensor t).output = true ∨ (v ∈ g.views t ∧ v ∉ g.reads))
    (hinputs : ∀ n ∈ g.nodes, g.Ownable n → (g.tensor n).input = true →
      (g.tensor n).op.canInplace = false) : g.Regular where
  kept n post hn _ t ho hup := hg.not_needed hviews houtputs ho hn (suffix_refl _) hup
  taken n post hn hgets t htakes :=
    hg.not_needed hviews houtputs htakes.fits.owned ((suffix_cons n post).trans hn) (suffix_refl _)
      (.inr ⟨n, post, hn, suffix_refl _, hgets, htakes⟩)
  inputs pre n post hnodes hable hin hop := by
    rw [hinputs n (by rw [hnodes]; simp) hable hin] at hop
    cases hop

end

/-- The order of the nodes, by position. -/
theorem Graph.Ordered.of_positions (hnodup : g.nodes.Nodup)
    (hleafs : ∀ t ∈ g.leafs, (g.tensor t).op = .none ∧ t ∉ g.nodes)
    (hsources : ∀ i < g.nodes.length, ∀ p ∈ g.sources (g.nodes.getD i 0),
      p ∈ g.leafs ∨ p ∈ g.nodes.take i)
    (hviews : ∀ i < g.nodes.length, ∀ v ∈ g.nodes.getD i 0 :: g.sources (g.nodes.getD i 0),
      ∀ t ∈ (g.tensor v).viewSrc, t ∈ g.nodes → t ∈ g.nodes.take i)
    (hroot : ∀ t v, (g.tensor t).viewSrc = some v → (g.tensor v).viewSrc = none) : g.Ordered := by
  have hsplit : ∀ pre n post, g.nodes = pre ++ n :: post → pre.length < g.nodes.length ∧
      g.nodes.getD pre.length 0 = n ∧ g.nodes.take pre.length = pre := by
    intro pre n post h
    rw [h]
    simp [getD_eq_getElem?_getD]
  refine ⟨hnodup, hleafs, fun pre n post h p hp => ?_, fun pre n post h v hv t ht hmem => ?_, hroot⟩
  · obtain ⟨hlt, hget, htake⟩ := hsplit pre n post h
    rw [← htake]
    exact hsources pre.length hlt p (by rwa [hget])
  · obtain ⟨hlt, hget, htake⟩ := hsplit pre n post h
    rw [← htake]
    exact hviews pre.length hlt v (by rw [hget]; exact mem_cons.mpr hv) t ht hmem

/-- A tensor of eight numbers. -/
def numbers (op : Op) (src : List Nat) : Tensor where
  op := op
  layout := ⟨0, [8], [4]⟩
  input := false
  output := false
  viewSrc := none
  src := src.map some
  data := none
  buffer := false

/-- One buffer in which each of these tensors takes 32 bytes. -/
def oneBuffer : Buffers := ⟨1, fun _ => 0, fun _ => 32, fun _ => 1024, fun _ _ => 32⟩

theorem oneBuffer_exact (g : Graph) : oneBuffer.Exact g := fun _ _ =>
  show alignedOffset 32 32 ≤ sizeMax / 2 by decide

/-- A node, one that is computed in its place, a view of that for the application, and a node that
comes later. -/
def viewedLast : Graph where
  tensor
    | 1 => numbers (.other 0) [0]
    | 2 => numbers .scale [1]
    | 3 => { numbers (.other 1) [2] with viewSrc := some 2, output := true }
    | 4 => numbers (.other 0) [0]
    | _ => numbers .none []
  nodes := [1, 2, 3, 4]
  leafs := [0]

theorem viewedLast_root (t v : Nat) (h : (viewedLast.tensor t).viewSrc = some v) :
    t = 3 ∧ v = 2 := by
  simp only [viewedLast] at h
  split at h <;> simp_all [numbers]

theorem viewedLast_ordered : viewedLast.Ordered := by
  refine Graph.Ordered.of_positions (by decide) (by decide) (by decide) (by decide) ?_
  intro t v h
  obtain ⟨rfl, rfl⟩ := viewedLast_root t v h
  rfl

theorem viewedLast_regular : viewedLast.Regular := by
  refine viewedLast_ordered.regular (fun v _ t ht _ => ?_) (fun v _ _ t ht _ => ?_) (by decide)
  · obtain ⟨rfl, rfl⟩ := viewedLast_root v t ht
    decide
  · obtain ⟨rfl, rfl⟩ := viewedLast_root v t ht
    exact .inr (by decide)

/-- A view for the application that another node reads. -/
def viewedOutput : Graph where
  tensor
    | 1 => numbers (.other 0) [0]
    | 2 => { numbers (.other 1) [1] with viewSrc := some 1, output := true }
    | 3 => numbers (.other 0) [2]
    | 4 => numbers (.other 0) [3]
    | _ => numbers .none []
  nodes := [1, 2, 3, 4]
  leafs := [0]

theorem viewedOutput_root (t v : Nat) (h : (viewedOutput.tensor t).viewSrc = some v) :
    t = 2 ∧ v = 1 := by
  simp only [viewedOutput] at h
  split at h <;> simp_all [numbers]

theorem viewedOutput_ordered : viewedOutput.Ordered := by
  refine Graph.Ordered.of_positions (by decide) (by decide) (by decide) (by decide) ?_
  intro t v h
  obtain ⟨rfl, rfl⟩ := viewedOutput_root t v h
  rfl

theorem alloc_graph_safe_viewedLast : ∃ s, Galloc.allocGraphImpl oneBuffer viewedLast (fun _ => 0)
    (fun _ => 0) = some s ∧ GraphSafe oneBuffer viewedLast s.spot := by
  obtain ⟨s, hs⟩ := isSome_iff_exists.mp (show (Galloc.allocGraphImpl oneBuffer viewedLast
    (fun _ => 0) (fun _ => 0)).isSome = true by decide)
  exact ⟨s, hs, alloc_graph_safe viewedLast_ordered viewedLast_regular (oneBuffer_exact _) hs⟩

/-- The source of the view is given up with the last read of the view, and the last node is written
over it. -/
theorem viewed_output_overwritten : viewedOutput.Ordered ∧ oneBuffer.Exact viewedOutput ∧
    ∃ s, Galloc.allocGraphImpl oneBuffer viewedOutput (fun _ => 0) (fun _ => 0) = some s ∧
      ¬ GraphSafe oneBuffer viewedOutput s.spot := by
  refine ⟨viewedOutput_ordered, oneBuffer_exact _, ?_⟩
  obtain ⟨s, hs, hspots⟩ := map_eq_some_iff.mp (show (Galloc.allocGraphImpl oneBuffer
    viewedOutput (fun _ => 0) (fun _ => 0)).map (fun s => (s.spot 1, s.spot 4)) =
      some ((0, ⟨0, 32⟩), (0, ⟨0, 32⟩)) by decide)
  obtain ⟨h1, h4⟩ := Prod.mk.inj hspots
  have hkept : viewedOutput.Kept [1, 2, 3] 1 := .inr ⟨2, by decide, rfl, rfl⟩
  have hroot : viewedOutput.root 4 = 4 := rfl
  refine ⟨s, hs, not_graphSafe [1, 2, 3] 4 [] 1 32 rfl (by decide)
    ⟨by decide, .inr (by decide)⟩ ⟨by decide, .inr (by decide)⟩
    (.inr (.inr (by decide))) (.inr hkept) (by decide)
    (fun hr => absurd hr.source (by decide)) ?_ ?_ ?_⟩
  · rw [hroot, h1, h4]
    exact ⟨rfl, rfl⟩
  · rw [hroot, h4]
    exact Span.mem_bytes.mpr (by decide)
  · rw [h1]
    exact Span.mem_bytes.mpr (by decide)

end Llama.Alloc
