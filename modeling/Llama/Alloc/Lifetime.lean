import Llama.Alloc.GraphMem
import Mathlib.Data.Finset.Card

/-!
# Lifetimes in a graph

The counters of the graph allocator follow the reads that are left and the views that are not yet
read to the end, and a tensor is given up when they run out. The allocator counts the views among
the nodes, but takes the count back for every view that is read, and it does not look at the flags
of views: a tensor that is given up may still be needed. -/

namespace Llama.Alloc

open List

variable {B : Buffers} {g : Graph}

/-- The tensor that holds the data. -/
def Graph.root (g : Graph) (t : Nat) : Nat := ((g.tensor t).viewSrc).getD t

/-- All reads in the order of the nodes. -/
def Graph.reads (g : Graph) : List Nat := g.nodes.flatMap g.sources

/-- The views of a tensor among some nodes. -/
def Graph.viewsIn (g : Graph) (ns : List Nat) (t : Nat) : List Nat :=
  ns.filter fun v => decide ((g.tensor v).viewSrc = some t ∧ (g.tensor v).op ≠ .none)

/-- The views of a tensor that the allocator counts. -/
def Graph.views (g : Graph) (t : Nat) : List Nat := g.viewsIn g.nodes t

/-- The tensors that the allocator gives memory to. -/
def Graph.Owned (g : Graph) (t : Nat) : Prop := g.Ownable t ∧ (t ∈ g.leafs ∨ t ∈ g.nodes)

/-- Nodes in topological order: operands come first, and so do the sources of views. -/
structure Graph.Ordered (g : Graph) : Prop where
  nodup : g.nodes.Nodup
  leafs : ∀ t ∈ g.leafs, (g.tensor t).op = .none ∧ t ∉ g.nodes
  sources : ∀ pre n post, g.nodes = pre ++ n :: post → ∀ p ∈ g.sources n, p ∈ g.leafs ∨ p ∈ pre
  viewSrc : ∀ pre n post, g.nodes = pre ++ n :: post → ∀ v, v = n ∨ v ∈ g.sources n →
    ∀ t, (g.tensor v).viewSrc = some t → t ∈ g.nodes → t ∈ pre
  root : ∀ t v, (g.tensor t).viewSrc = some v → (g.tensor v).viewSrc = none

/-- Views of a tensor that are read to the end when `left` is still to be read. -/
def Graph.readViews (g : Graph) (left : List Nat) (t : Nat) : Finset Nat :=
  g.reads.toFinset.filter fun v => (g.tensor v).viewSrc = some t ∧ v ∉ left

/-- `n_views` of a tensor when `left` is still to be read: one is taken off for every view that is
read to the end, whether it was counted or not. -/
def Graph.viewsLeft (g : Graph) (left : List Nat) (t : Nat) : Int :=
  (g.views t).length - (g.readViews left t).card

/-- With the read of `p`, in front of the reads `left`, nothing of the tensor is counted any
more. -/
structure Graph.RunsOut (g : Graph) (t p : Nat) (left : List Nat) : Prop where
  root : g.root p = t
  last : p ∉ left
  children : t ∉ left
  views : g.viewsLeft left t = 0

/-- The operand has memory that the node can use, when `left` starts with the reads of the node. -/
structure Graph.Fits (g : Graph) (n : Nat) (left : List Nat) (p : Nat) : Prop where
  owned : g.Owned p
  output : (g.tensor p).output = false
  layout : (g.tensor n).layout = (g.tensor p).layout
  children : left.count p = 1
  views : g.viewsLeft left p = 0

/-- The node works in place on the first operand that fits. -/
def Graph.Takes (g : Graph) (n : Nat) (post : List Nat) (p : Nat) : Prop :=
  (g.tensor n).op.canInplace = true ∧ ∃ l₁ l₂, g.sources n = l₁ ++ p :: l₂ ∧
    g.Fits n ((n :: post).flatMap g.sources) p ∧
    ∀ q ∈ l₁, ¬ g.Fits n ((n :: post).flatMap g.sources) q

/-- The node gets memory when its turn comes. -/
def Graph.Gets (g : Graph) (n : Nat) : Prop := g.Ownable n ∧ (g.tensor n).input = false

/-- Before the nodes `todo` are allocated and `left` is read, the tensor was given up: its counters
ran out, or a node took its memory. -/
def Graph.GivenUp (g : Graph) (todo left : List Nat) (t : Nat) : Prop :=
  ((g.tensor t).output = false ∧
    ∃ p rest, p :: rest <:+ g.reads ∧ left <:+ rest ∧ g.RunsOut t p rest) ∨
  ∃ n post, n :: post <:+ g.nodes ∧ todo <:+ post ∧ g.Gets n ∧ g.Takes n post t

/-- One of the nodes reads the tensor, itself or through a view. -/
def Graph.ReadBy (g : Graph) (ns : List Nat) (t : Nat) : Prop :=
  ∃ n ∈ ns, ∃ x ∈ g.sources n, g.root x = t

/-- The tensor is an output or the source of one. -/
def Graph.Kept (g : Graph) (pre : List Nat) (t : Nat) : Prop :=
  (g.tensor t).output = true ∨
    ∃ v, (v ∈ g.leafs ∨ v ∈ pre) ∧ (g.tensor v).viewSrc = some t ∧ (g.tensor v).output = true

/-- The tensor is read or, through a view, written by one of the nodes, or it is kept. -/
def Graph.Needed (g : Graph) (ns : List Nat) (t : Nat) : Prop :=
  g.ReadBy ns t ∨ (∃ v ∈ ns, (g.tensor v).viewSrc = some t ∧ (g.tensor v).op ≠ .none) ∨
    g.Kept g.nodes t

/-- Graphs whose lifetimes the counters follow. -/
structure Graph.Regular (g : Graph) : Prop where
  /-- When a node gets memory, no tensor that was given up is needed. -/
  kept : ∀ n post, n :: post <:+ g.nodes → g.Gets n → ∀ t, g.Owned t →
    g.GivenUp (n :: post) ((n :: post).flatMap g.sources) t → ¬ g.Needed (n :: post) t
  /-- An operand that is used in place is not needed any more. -/
  taken : ∀ n post, n :: post <:+ g.nodes → g.Gets n → ∀ t, g.Takes n post t → ¬ g.Needed post t
  /-- When an input is allocated, no operand looks as if it had this one reader. -/
  inputs : ∀ pre n post, g.nodes = pre ++ n :: post → g.Ownable n → (g.tensor n).input = true →
    (g.tensor n).op.canInplace = true → ∀ t ∈ g.sources n, g.Ownable t →
      t ∈ g.leafs ∨ (g.tensor t).input = true → (g.tensor t).output = false →
      (g.tensor n).layout = (g.tensor t).layout → (pre.flatMap g.sources).count t = 1 →
      g.viewsIn pre t ≠ []

variable {t v n p : Nat} {post pre reads left : List Nat}

theorem Graph.mem_views : v ∈ g.views t ↔
    v ∈ g.nodes ∧ (g.tensor v).viewSrc = some t ∧ (g.tensor v).op ≠ .none := by
  simp [Graph.views, Graph.viewsIn]

theorem Graph.root_of_view (h : (g.tensor t).viewSrc = some v) : g.root t = v := by
  rw [Graph.root, h]
  rfl

theorem Graph.root_of_none (h : (g.tensor t).viewSrc = none) : g.root t = t := by
  rw [Graph.root, h]
  rfl

theorem Graph.Takes.source (h : g.Takes n post p) : p ∈ g.sources n := by
  obtain ⟨-, l₁, l₂, hsrc, -⟩ := h
  rw [hsrc]
  simp

theorem Graph.Takes.fits (h : g.Takes n post p) : g.Fits n ((n :: post).flatMap g.sources) p := by
  obtain ⟨-, -, -, -, hfits, -⟩ := h
  exact hfits

/-- The node is the only reader that is left. -/
theorem Graph.Takes.notMem (h : g.Takes n post p) : p ∉ post.flatMap g.sources := by
  intro hmem
  have hone := h.fits.children
  rw [flatMap_cons, count_append] at hone
  have h1 := count_pos_iff.mpr h.source
  have h2 := count_pos_iff.mpr hmem
  omega

theorem flatMap_suffix {l₁ l₂ : List Nat} (f : Nat → List Nat) (h : l₁ <:+ l₂) :
    l₁.flatMap f <:+ l₂.flatMap f := by
  obtain ⟨l, rfl⟩ := h
  rw [flatMap_append]
  exact suffix_append _ _

theorem Graph.GivenUp.mono {todo todo' left' : List Nat} (h : g.GivenUp todo left t)
    (htodo : todo' <:+ todo) (hleft : left' <:+ left) : g.GivenUp todo' left' t := by
  rcases h with ⟨hout, p, rest, hp, hrest, hrun⟩ | ⟨n, post, hn, hpost, htakes⟩
  · exact .inl ⟨hout, p, rest, hp, hleft.trans hrest, hrun⟩
  · exact .inr ⟨n, post, hn, htodo.trans hpost, htakes⟩

/-- What was given up is no operand of a node that follows. -/
theorem Graph.GivenUp.notMem {todo : List Nat} (h : g.GivenUp todo left t)
    (hsub : todo.flatMap g.sources <:+ left) : t ∉ todo.flatMap g.sources := by
  intro hmem
  rcases h with ⟨-, p, rest, -, hrest, hrun⟩ | ⟨n, post, -, hpost, -, htakes⟩
  · exact hrun.children (hrest.subset (hsub.subset hmem))
  · exact htakes.notMem ((flatMap_suffix g.sources hpost).subset hmem)

theorem Graph.viewsLeft_cons (h : p ∈ left ∨ (g.tensor p).viewSrc ≠ some t) :
    g.viewsLeft (p :: left) t = g.viewsLeft left t := by
  have hsame : g.readViews (p :: left) t = g.readViews left t := by
    refine Finset.filter_congr fun v _ => and_congr_right fun hv => not_congr ?_
    rw [mem_cons, or_iff_right_of_imp]
    rintro rfl
    exact h.resolve_right (not_not_intro hv)
  rw [viewsLeft, viewsLeft, hsame]

/-- The last read of a view takes it off the counter. -/
theorem Graph.viewsLeft_last (hread : p ∈ g.reads) (hlast : p ∉ left)
    (hv : (g.tensor p).viewSrc = some t) : g.viewsLeft left t = g.viewsLeft (p :: left) t - 1 := by
  have hnot : p ∉ g.readViews (p :: left) t := by simp [readViews]
  have hinsert : g.readViews left t = insert p (g.readViews (p :: left) t) := by
    ext v
    rw [Finset.mem_insert, readViews, readViews, Finset.mem_filter, Finset.mem_filter, mem_toFinset,
      mem_cons, not_or]
    constructor
    · rintro ⟨h1, h2, h3⟩
      exact or_iff_not_imp_left.mpr fun hne => ⟨h1, h2, hne, h3⟩
    · rintro (rfl | ⟨h1, h2, -, h3⟩)
      · exact ⟨hread, hv, hlast⟩
      · exact ⟨h1, h2, h3⟩
  rw [viewsLeft, viewsLeft, hinsert, Finset.card_insert_of_notMem hnot]
  omega

theorem Graph.viewsLeft_reads (g : Graph) (t : Nat) :
    g.viewsLeft g.reads t = (g.views t).length := by
  have hnone : g.readViews g.reads t = ∅ :=
    Finset.filter_eq_empty_iff.mpr fun v hv h => h.2 (mem_toFinset.mp hv)
  rw [viewsLeft, hnone, Finset.card_empty]
  omega

/-- A view has no views of its own. -/
theorem Graph.Ordered.viewsLeft_of_view (hg : g.Ordered) (hv : (g.tensor p).viewSrc = some v)
    (left : List Nat) : g.viewsLeft left p = 0 := by
  have hno : ∀ u, (g.tensor u).viewSrc ≠ some p := fun u hu => by
    have hroot := hg.root u p hu
    rw [hv] at hroot
    cases hroot
  have h1 : g.views p = [] := filter_eq_nil_iff.mpr fun u _ => by simp [hno u]
  have h2 : g.readViews left p = ∅ := Finset.filter_eq_empty_iff.mpr fun u _ h => hno u h.1
  rw [viewsLeft, h1, h2]
  rfl

section

variable (hg : g.Ordered) (h : g.nodes = pre ++ n :: post)
include hg h

theorem Graph.Ordered.notMem_pre (ht : t ∈ n :: post) : t ∉ pre := by
  intro hpre
  have hnd := hg.nodup
  rw [h, nodup_append] at hnd
  exact hnd.2.2 t hpre t ht rfl

theorem Graph.Ordered.notMem_sources : n ∉ g.sources n := by
  intro hn
  rcases hg.sources pre n post h n hn with hl | hp
  · exact (hg.leafs n hl).2 (by rw [h]; simp)
  · exact hg.notMem_pre h mem_cons_self hp

/-- Operands are not among the nodes that follow. -/
theorem Graph.Ordered.source_notMem (hp : p ∈ g.sources n) : p ∉ n :: post := by
  intro hmem
  rcases hg.sources pre n post h p hp with hl | hpre
  · exact (hg.leafs p hl).2 (by rw [h]; exact mem_append_right _ hmem)
  · exact hg.notMem_pre h hmem hpre

/-- Neither is the source of a view that is computed or read. -/
theorem Graph.Ordered.viewSrc_notMem (hp : p = n ∨ p ∈ g.sources n)
    (hv : (g.tensor p).viewSrc = some v) : v ∉ n :: post := by
  intro hmem
  have hvn : v ∈ g.nodes := by
    rw [h]
    exact mem_append_right _ hmem
  exact hg.notMem_pre h hmem (hg.viewSrc pre n post h p hp v hv hvn)

end

/-- State of the allocator before the nodes `todo` are allocated, with `reads` left to be taken
off the counters. -/
structure Inv (B : Buffers) (g : Graph) (todo reads : List Nat) (s : Galloc) : Prop where
  mem : Mem B g s.tallocs s.place
  children : ∀ t, (s.hash t).children = reads.count t
  views : ∀ t, (s.hash t).views = g.viewsLeft reads t
  done : ∀ t, g.Owned t → t ∉ todo → s.isOwn t = true ∨ g.GivenUp todo reads t
  todo : ∀ t ∈ todo, g.Ownable t → s.isOwn t = (g.tensor t).input

variable {s s' : Galloc} {todo reads : List Nat}

theorem Inv.recount (h : Inv B g todo reads s) {reads' : List Nat} (hreads : reads' <:+ reads)
    (hta : s'.tallocs = s.tallocs) (hpl : s'.place = s.place)
    (hc : ∀ t, (s'.hash t).children = reads'.count t)
    (hv : ∀ t, (s'.hash t).views = g.viewsLeft reads' t) : Inv B g todo reads' s' := by
  have hown := Galloc.isOwn_congr hpl
  refine ⟨by rw [hta, hpl]; exact h.mem, hc, hv, fun t ht hnt => ?_, fun t ht ho => ?_⟩
  · rw [hown]
    exact (h.done t ht hnt).imp_right fun hup => hup.mono (suffix_refl _) hreads
  · rw [hown]
    exact h.todo t ht ho

/-- A tensor whose counters ran out is freed, unless it is an output. -/
theorem Inv.free (h : Inv B g todo reads s) (hown : s.isOwn n = true) (hn : n ∉ todo)
    (hup : (g.tensor n).output = false → g.GivenUp todo reads n)
    (hf : s.freeNode B g n = some s') : Inv B g todo reads s' ∧ ∀ t, s'.spot t = s.spot t := by
  obtain ⟨hmem, hspot, hcounts, ho⟩ := Galloc.freeNode_spec h.mem hown hf
  refine ⟨⟨hmem, fun t => ?_, fun t => ?_, fun t ht hnt => ?_, fun t ht hable => ?_⟩, hspot⟩
  · rw [(hcounts t).1]
    exact h.children t
  · rw [(hcounts t).2]
    exact h.views t
  · rw [ho]
    refine (h.done t ht hnt).elim (fun h' => ?_) .inr
    by_cases htn : t = n
    · subst htn
      cases hout : (g.tensor t).output with
      | true => exact .inl (by simp [h'])
      | false => exact .inr (hup hout)
    · exact .inl (by simp [h', htn])
  · have htn : t ≠ n := fun he => hn (he ▸ ht)
    rw [ho, h.todo t ht hable]
    simp [htn]

theorem count_pred (hc : ∀ t, (s.hash t).children = (p :: reads).count t) (t : Nat) :
    ((s.upd p fun h => { h with children := h.children - 1 }).hash t).children =
      reads.count t := by
  by_cases ht : t = p
  · subst ht
    rw [Galloc.upd_hash_self]
    simp only [hc, count_cons_self]
    omega
  · rw [Galloc.upd_hash_of_ne _ _ ht, hc, count_cons_of_ne (Ne.symm ht)]

theorem views_pred (s : Galloc) (p t : Nat) :
    ((s.upd p fun h => { h with children := h.children - 1 }).hash t).views = (s.hash t).views := by
  by_cases ht : t = p
  · subst ht
    rw [Galloc.upd_hash_self]
  · rw [Galloc.upd_hash_of_ne _ _ ht]

/-- A read that leaves the views alone. -/
theorem Inv.pred (h : Inv B g todo (p :: reads) s)
    (hkeep : ∀ t, g.viewsLeft (p :: reads) t = g.viewsLeft reads t) :
    Inv B g todo reads (s.upd p fun h => { h with children := h.children - 1 }) := by
  have hupd := s.upd_place_of_keep p (f := fun h => { h with children := h.children - 1 })
    fun _ => ⟨rfl, rfl, rfl⟩
  refine h.recount (suffix_cons p reads) rfl hupd.1 (count_pred h.children) fun t => ?_
  rw [views_pred, h.views, hkeep]

/-- The last read of a view takes it off the counter of its source. -/
theorem Inv.predView (h : Inv B g todo (p :: reads) s) (hread : p ∈ g.reads) (hlast : p ∉ reads)
    (hv : (g.tensor p).viewSrc = some v) :
    Inv B g todo reads ((s.upd p fun h => { h with children := h.children - 1 }).upd v
      fun h => { h with views := h.views - 1 }) := by
  generalize hs₁ : (s.upd p fun h => { h with children := h.children - 1 }) = s₁
  have hupd₁ := s.upd_place_of_keep p (f := fun h => { h with children := h.children - 1 })
    fun _ => ⟨rfl, rfl, rfl⟩
  have hupd₂ := s₁.upd_place_of_keep v (f := fun h => { h with views := h.views - 1 })
    fun _ => ⟨rfl, rfl, rfl⟩
  rw [hs₁] at hupd₁
  have hviews : ∀ t, (s₁.hash t).views = g.viewsLeft (p :: reads) t := fun t => by
    rw [← hs₁, views_pred, h.views]
  refine h.recount (suffix_cons p reads) (by rw [← hs₁]; rfl) (hupd₂.1.trans hupd₁.1) (fun t => ?_)
    fun t => ?_
  · rw [← count_pred h.children t, hs₁]
    by_cases ht : t = v
    · subst ht
      rw [Galloc.upd_hash_self]
    · rw [Galloc.upd_hash_of_ne _ _ ht]
  · by_cases ht : t = v
    · subst ht
      rw [Galloc.upd_hash_self, Graph.viewsLeft_last hread hlast hv, ← hviews]
    · rw [Galloc.upd_hash_of_ne _ _ ht, hviews,
        Graph.viewsLeft_cons (.inr fun he => ht (Option.some.inj (hv.symm.trans he)).symm)]

/-- One read of a node: the counters follow, and what is freed was given up. -/
theorem updateParent_inv (hg : g.Ordered) (h : Inv B g todo (p :: reads) s)
    (hreads : p :: reads <:+ g.reads) (hp : p ∉ todo)
    (hview : ∀ v, (g.tensor p).viewSrc = some v → v ∉ todo) (hu : s.updateParent B g p = some s') :
    Inv B g todo reads s' ∧ ∀ t, s'.spot t = s.spot t := by
  have hup : ∀ t, (g.tensor t).output = false → g.RunsOut t p reads → g.GivenUp todo reads t :=
    fun t hout hrun => .inl ⟨hout, p, reads, hreads, suffix_refl _, hrun⟩
  have hspot₁ := (s.upd_place_of_keep p (f := fun h => { h with children := h.children - 1 })
    fun _ => ⟨rfl, rfl, rfl⟩).2
  have hchildren := count_pred h.children p
  have hviews := views_pred s p p
  rw [h.views] at hviews
  simp only [Galloc.updateParent] at hu
  split at hu
  · rename_i hzero
    have hlast : p ∉ reads := count_eq_zero.mp (by omega)
    split at hu
    · rename_i v hv
      have hinv := h.predView (hreads.subset mem_cons_self) hlast hv
      have hspot₂ := (Galloc.upd_place_of_keep
        (s.upd p fun h => { h with children := h.children - 1 }) v
        (f := fun h => { h with views := h.views - 1 }) fun _ => ⟨rfl, rfl, rfl⟩).2
      split at hu
      · rename_i hz
        have hnone : v ∉ reads := count_eq_zero.mp (by have := hinv.children v; omega)
        have hrun : g.RunsOut v p reads :=
          ⟨Graph.root_of_view hv, hlast, hnone, (hinv.views v).symm.trans hz.1⟩
        obtain ⟨hfree, hspot⟩ := hinv.free hz.2.2 (hview v hv) (fun hout => hup v hout hrun) hu
        exact ⟨hfree, fun t => by rw [hspot, hspot₂, hspot₁]⟩
      · cases hu
        exact ⟨hinv, fun t => by rw [hspot₂, hspot₁]⟩
    · rename_i hv
      have hinv := h.pred fun t => Graph.viewsLeft_cons (.inr (by rw [hv]; exact nofun))
      split at hu
      · rename_i hown
        have hrun : g.RunsOut p p reads :=
          ⟨Graph.root_of_none hv, hlast, hlast, (hinv.views p).symm.trans hzero.2⟩
        obtain ⟨hfree, hspot⟩ := hinv.free hown hp (fun hout => hup p hout hrun) hu
        exact ⟨hfree, fun t => by rw [hspot, hspot₁]⟩
      · cases hu
        exact ⟨hinv, fun t => by rw [hspot₁]⟩
  · rename_i hzero
    cases hu
    refine ⟨h.pred fun t => Graph.viewsLeft_cons ?_, fun t => by rw [hspot₁]⟩
    by_contra hno
    obtain ⟨hlast, hv⟩ := not_or.mp hno
    have h1 := count_eq_zero.mpr hlast
    have h2 := hg.viewsLeft_of_view (not_not.mp hv) (p :: reads)
    exact hzero ⟨by omega, by omega⟩

theorem allocateNode_eq_self {id : Nat} (h : g.Ownable n → s.isOwn n = true) :
    s.allocateNode B g n id = some s := by
  rw [Galloc.allocateNode, if_pos]
  by_contra hskip
  obtain ⟨hn, hown⟩ := Galloc.not_isAllocated hskip
  rw [h hn] at hown
  cases hown

variable {pre post : List Nat} {n id : Nat}

section

variable (hg : g.Ordered) (hnodes : g.nodes = pre ++ n :: post)
include hg hnodes

theorem Graph.Ordered.source_owned (hp : p ∈ g.sources n) (hable : g.Ownable p) : g.Owned p := by
  refine ⟨hable, (hg.sources pre n post hnodes p hp).imp_right fun hpre => ?_⟩
  rw [hnodes]
  exact mem_append_left _ hpre

variable (h : Inv B g (n :: post) ((n :: post).flatMap g.sources) s)
include h

/-- The operands of a node were not given up. -/
theorem Inv.own_source (hp : p ∈ g.sources n) (ho : g.Owned p) : s.isOwn p = true := by
  refine (h.done p ho (hg.source_notMem hnodes hp)).resolve_right fun hup => ?_
  refine hup.notMem (suffix_refl _) ?_
  rw [flatMap_cons]
  exact mem_append_left _ hp

/-- The operands of a node were allocated before. -/
theorem Inv.parents : (g.sources n).foldlM (fun s p => s.allocateNode B g p id) s = some s := by
  have hparent : ∀ p ∈ g.sources n, s.allocateNode B g p id = some s := fun p hp =>
    allocateNode_eq_self fun hable => h.own_source hg hnodes hp (hg.source_owned hnodes hp hable)
  generalize g.sources n = l at hparent
  induction l with
  | nil => rfl
  | cons p l ih =>
    rw [foldlM_cons, hparent p mem_cons_self]
    exact ih fun q hq => hparent q (mem_cons_of_mem p hq)

theorem Inv.usable_iff (hp : p ∈ g.sources n) :
    Galloc.Usable g s n p ↔ g.Fits n ((n :: post).flatMap g.sources) p := by
  have hc := h.children p
  have hv := h.views p
  constructor
  · intro hus
    have hable := h.mem.ownable p _ (Galloc.place_eq_some hus.own)
    have h1 := hus.children
    have h2 := hus.views
    exact ⟨hg.source_owned hnodes hp hable, hus.output, hus.layout, by omega, by omega⟩
  · intro hfits
    have h1 := hfits.children
    have h2 := hfits.views
    exact ⟨h.own_source hg hnodes hp hfits.owned, hfits.output, hfits.layout, by omega, by omega⟩

/-- What a node works in place on can be read off the graph. -/
theorem Inv.takes (hre : Galloc.Reuses g s n p) : g.Takes n post p := by
  obtain ⟨hop, l₁, l₂, hsrc, hus, hfirst⟩ := hre
  have hmem : ∀ q, q ∈ l₁ ∨ q = p → q ∈ g.sources n := by
    rw [hsrc]
    rintro q (hq | rfl)
    · exact mem_append_left _ hq
    · simp
  refine ⟨hop, l₁, l₂, hsrc, (h.usable_iff hg hnodes (hmem p (.inr rfl))).mp hus,
    fun q hq hfits => ?_⟩
  exact hfirst q hq ((h.usable_iff hg hnodes (hmem q (.inl hq))).mpr hfits)

end

/-- What the allocation of a node does: nothing for views and for tensors that have a place. -/
def Given (B : Buffers) (g : Graph) (s s' : Galloc) (n : Nat) (taken : Option Nat) : Prop :=
  (s' = s ∧ taken = none ∧ (g.Ownable n → s.isOwn n = true)) ∨
    (g.Ownable n ∧ s.isOwn n = false ∧ Galloc.Obtained B g s s' n taken)

/-- The node is allocated; its operands are not yet taken off the counters. -/
theorem Inv.allocate (hg : g.Ordered) (hx : B.Exact g) (hnodes : g.nodes = pre ++ n :: post)
    (h : Inv B g (n :: post) ((n :: post).flatMap g.sources) s)
    (ha : s.allocateNode B g n id = some s') :
    ∃ taken, Given B g s s' n taken ∧ Inv B g post (g.sources n ++ post.flatMap g.sources) s' := by
  have hnd := hg.nodup
  rw [hnodes, nodup_append, nodup_cons] at hnd
  have hcons : (n :: post).flatMap g.sources = g.sources n ++ post.flatMap g.sources := flatMap_cons
  have htail : ∀ t, g.GivenUp (n :: post) ((n :: post).flatMap g.sources) t →
      g.GivenUp post (g.sources n ++ post.flatMap g.sources) t := fun t hup =>
    hup.mono (suffix_cons n post) (by rw [hcons])
  rcases Galloc.allocateNode_spec h.mem hx (fun _ => hg.notMem_sources hnodes) ha with
    ⟨rfl, hown⟩ | ⟨hable, hnot, taken, hob⟩
  · refine ⟨none, .inl ⟨rfl, rfl, hown⟩, h.mem, by rw [← hcons]; exact h.children,
      by rw [← hcons]; exact h.views, fun t ht hpost => ?_, fun t ht =>
        h.todo t (mem_cons_of_mem n ht)⟩
    by_cases htn : t = n
    · exact .inl (htn ▸ hown (htn ▸ ht.1))
    · exact (h.done t ht (by simp [htn, hpost])).imp_right (htail t)
  · have hgets : g.Gets n := ⟨hable, (h.todo n mem_cons_self hable).symm.trans hnot⟩
    refine ⟨taken, .inr ⟨hable, hnot, hob⟩, hob.mem, fun t => ?_, fun t => ?_,
      fun t ht hpost => ?_, fun t ht hab => ?_⟩
    · rw [(hob.counts t).1, h.children, hcons]
    · rw [(hob.counts t).2, h.views t, hcons]
    · by_cases htn : t = n
      · exact .inl (htn ▸ hob.own)
      · rw [hob.other t htn]
        rcases h.done t ht (by simp [htn, hpost]) with hown | hup
        · by_cases htaken : taken = some t
          · exact .inr (.inr ⟨n, post, ⟨pre, hnodes.symm⟩, suffix_refl _, hgets,
              h.takes hg hnodes (hob.parent t htaken)⟩)
          · exact .inl (by simp [hown, htaken])
        · exact .inr (htail t hup)
    · have htn : t ≠ n := fun he => hnd.2.1.1 (he ▸ ht)
      have htaken : taken ≠ some t := fun he =>
        hg.source_notMem hnodes (hob.parent t he).source (mem_cons_of_mem n ht)
      rw [hob.other t htn, h.todo t (mem_cons_of_mem n ht) hab]
      simp [htaken]

/-- The operands of a node are taken off the counters. -/
theorem Inv.update (hg : g.Ordered) (hnodes : g.nodes = pre ++ n :: post) {l : List Nat}
    (hl : l <:+ g.sources n) (h : Inv B g post (l ++ post.flatMap g.sources) s)
    (hu : l.foldlM (Galloc.updateParent B g) s = some s') :
    Inv B g post (post.flatMap g.sources) s' ∧ ∀ t, s'.spot t = s.spot t := by
  induction l generalizing s with
  | nil =>
    cases hu
    exact ⟨h, fun _ => rfl⟩
  | cons p l ih =>
    rw [foldlM_cons] at hu
    obtain ⟨s₁, hs₁, hu⟩ := Option.bind_eq_some_iff.mp hu
    have hp : p ∈ g.sources n := hl.subset mem_cons_self
    have hreads : p :: l ++ post.flatMap g.sources <:+ g.reads := by
      rw [Graph.reads, hnodes, flatMap_append, flatMap_cons]
      obtain ⟨l₀, hl₀⟩ := hl
      rw [← hl₀, append_assoc, ← append_assoc]
      exact suffix_append _ _
    obtain ⟨h₁, hspot₁⟩ := updateParent_inv hg h hreads
      (fun hmem => hg.source_notMem hnodes hp (mem_cons_of_mem n hmem))
      (fun v hv hmem => hg.viewSrc_notMem hnodes (.inr hp) hv (mem_cons_of_mem n hmem)) hs₁
    obtain ⟨h₂, hspot₂⟩ := ih ((suffix_cons p l).trans hl) h₁ hu
    exact ⟨h₂, fun t => (hspot₂ t).trans (hspot₁ t)⟩

end Llama.Alloc
