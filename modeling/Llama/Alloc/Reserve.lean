import Llama.Alloc.GraphRun

/-!
# Using a reservation again

`ggml_gallocr_reserve` keeps the places of a graph by position, and `ggml_gallocr_alloc_graph`
gives them to the next graph. It compares counts and sizes only, so the places are right for
graphs that repeat the reserved one.
-/

namespace Llama.Alloc

open List Function

/-- `tensor_alloc` with a buffer. The buffer id -1 is the `none` of an option. -/
structure TensorAlloc where
  /-- The buffer and the address. -/
  place : Place
  /-- Size that was reserved. -/
  sizeMax : Nat
  deriving DecidableEq, Repr

structure NodeAlloc where
  /-- The node. -/
  dst : Option TensorAlloc
  /-- The slots of its operands. -/
  src : List (Option TensorAlloc)

/-- What `ggml_gallocr` keeps from one graph to the next. -/
structure Gallocr where
  /-- Sizes of the chunks of the backend buffers, by type. -/
  buffers : Nat → Option (List Nat)
  nodeAllocs : List NodeAlloc
  leafAllocs : List (Option TensorAlloc)

/-- `ggml_gallocr_new`: nothing was reserved. -/
def Gallocr.new : Gallocr := ⟨fun _ => none, [], []⟩

def Galloc.record (B : Buffers) (g : Graph) (s : Galloc) (t : Nat) : Option TensorAlloc :=
  if g.isView t || (g.tensor t).data.isSome then none
  else some
    { place := s.spot t
      sizeMax := B.allocSize (B.buft (s.hash t).bufferId) (g.tensor t) }

/-- The records of a node and of its slots. -/
def Galloc.nodeRecord (B : Buffers) (g : Graph) (s : Galloc) (n : Nat) : NodeAlloc where
  dst := s.record B g n
  src := (g.tensor n).src.map fun p => p.bind (s.record B g)

/-- A backend buffer is allocated again when one of its chunks is too small. -/
def growBuffer (buffer : Option (List Nat)) (a : Talloc) : Option (List Nat) :=
  let sizes := a.chunks.map Chunk.maxSize
  match buffer with
  | none => some sizes
  | some cur =>
    if (range sizes.length).any fun c => decide (cur.getD c 0 < sizes.getD c 0) then
      some sizes
    else some cur

namespace Gallocr

/-- `ggml_gallocr_reserve_n`. -/
def reserveN (B : Buffers) (r : Gallocr) (g : Graph) (nodeIds leafIds : Nat → Nat) :
    Option Gallocr := do
  let s ← Galloc.allocGraphImpl B g nodeIds leafIds
  some
    { buffers := fun b => growBuffer (r.buffers b) (s.tallocs b)
      nodeAllocs := g.nodes.map (s.nodeRecord B g)
      leafAllocs := g.leafs.map (s.record B g) }

/-- `ggml_gallocr_reserve`. -/
def reserve (B : Buffers) (r : Gallocr) (g : Graph) : Option Gallocr :=
  r.reserveN B g (fun _ => 0) (fun _ => 0)

end Gallocr

/-- `ggml_gallocr_node_needs_realloc`, which is true when the record is large enough. -/
def nodeNeedsRealloc (B : Buffers) (g : Graph) (t : Nat) : Option TensorAlloc → Bool
  | none => (g.tensor t).data.isSome || g.isView t
  | some a =>
    (g.tensor t).data.isSome || g.isView t ||
      decide (B.allocSize (B.buft a.place.1) (g.tensor t) ≤ a.sizeMax)

/-- The tensors of a node with their records: the operands, then the node. -/
def NodeAlloc.tensors (g : Graph) (a : NodeAlloc) (n : Nat) : List (Nat × Option TensorAlloc) :=
  (g.tensor n).src.zipIdx.filterMap (fun x => x.1.map fun p => (p, a.src.getD x.2 none)) ++
    [(n, a.dst)]

namespace Gallocr

/-- The leafs with their records. -/
def leafTensors (r : Gallocr) (g : Graph) : List (Nat × Option TensorAlloc) :=
  g.leafs.zip r.leafAllocs

/-- The tensors of all nodes with their records. -/
def nodeTensors (r : Gallocr) (g : Graph) : List (Nat × Option TensorAlloc) :=
  (g.nodes.zip r.nodeAllocs).flatMap fun x => x.2.tensors g x.1

/-- `ggml_gallocr_needs_realloc`. -/
def needsRealloc (B : Buffers) (r : Gallocr) (g : Graph) : Bool :=
  decide (r.nodeAllocs.length ≠ g.nodes.length) || decide (r.leafAllocs.length ≠ g.leafs.length) ||
    (r.nodeTensors g).any fun x => !nodeNeedsRealloc B g x.1 x.2

/-- `ggml_gallocr_init_tensor` in a release build. The state holds the records of the tensors that
got an address; a view gets the address of its source and needs none. -/
def initTensor (B : Buffers) (r : Gallocr) (g : Graph) (given : Nat → Option TensorAlloc)
    (x : Nat × Option TensorAlloc) : Option (Nat → Option TensorAlloc) :=
  match (g.tensor x.1).viewSrc with
  | some v =>
    -- `ggml_backend_view_init` asserts that the source of the view has data
    if !(g.tensor x.1).buffer && (g.tensor v).buffer && (g.tensor v).data.isNone then none
    else some given
  | none =>
    if (g.tensor x.1).data.isSome || (given x.1).isSome then some given
    else do
      let a ← x.2
      let chunks ← r.buffers (B.buft a.place.1)
      let size ← chunks[a.place.2.chunk]?
      -- `ggml_backend_tensor_alloc` asserts these
      if !(g.tensor x.1).buffer &&
          decide (a.place.2.offset + B.allocSize (B.buft a.place.1) (g.tensor x.1) ≤ size) then
        some (update given x.1 (some a))
      else none

/-- Addresses for the leafs and the nodes. -/
def initGraph (B : Buffers) (r : Gallocr) (g : Graph) : Option (Nat → Option TensorAlloc) :=
  (r.leafTensors g ++ r.nodeTensors g).foldlM (r.initTensor B g) fun _ => none

/-- `ggml_gallocr_alloc_graph`. It returns false when there are no addresses. -/
def allocGraph (B : Buffers) (r : Gallocr) (g : Graph) :
    Option (Gallocr × Option (Nat → Option TensorAlloc)) :=
  if r.needsRealloc B g then
    if B.n = 1 then do
      let r ← r.reserve B g
      let given ← r.initGraph B g
      some (r, some given)
    else some (r, none)
  else do
    let given ← r.initGraph B g
    some (r, some given)

end Gallocr

variable {B : Buffers} {g old new : Graph} {s : Galloc} {φ : Nat → Nat}

/-- A tensor stands for another one under the names `φ`. -/
structure Tensor.Repeats (φ : Nat → Nat) (new old : Tensor) : Prop where
  computed : new.op ≠ .none → old.op ≠ .none
  inplace : old.op.canInplace = true → new.op.canInplace = true
  src : old.src = new.src.map (Option.map φ)
  viewSrc : old.viewSrc = new.viewSrc.map φ
  input : new.input = true → old.input = true
  output : new.output = true → old.output = true
  data : new.data = none → old.data = none
  buffer : new.buffer = false → old.buffer = false

/-- A graph has the topology of another one, under the names `φ`. -/
structure Graph.Repeats (new old : Graph) (φ : Nat → Nat) : Prop where
  nodes : old.nodes = new.nodes.map φ
  leafs : old.leafs = new.leafs.map φ
  inj : Set.InjOn φ {t | t ∈ new.leafs ∨ t ∈ new.nodes}
  tensors : ∀ t, t ∈ new.leafs ∨ t ∈ new.nodes → (new.tensor t).Repeats φ (old.tensor (φ t))

theorem Tensor.Repeats.refl (t : Tensor) : t.Repeats id t where
  computed := id
  inplace := id
  src := by simp
  viewSrc := by simp
  input := id
  output := id
  data := id
  buffer := id

theorem Graph.Repeats.refl (g : Graph) : g.Repeats g id where
  nodes := by simp
  leafs := by simp
  inj := Set.injOn_id _
  tensors t _ := Tensor.Repeats.refl (g.tensor t)

variable {n t : Nat}

theorem Graph.Ordered.source_mem (hg : g.Ordered) {p : Nat} (hn : n ∈ g.nodes)
    (hp : p ∈ g.sources n) : p ∈ g.leafs ∨ p ∈ g.nodes := by
  obtain ⟨pre, post, hnodes⟩ := append_of_mem hn
  refine (hg.sources pre n post hnodes p hp).imp_right fun hmem => ?_
  rw [hnodes]
  exact mem_append_left _ hmem

namespace Graph.Repeats

variable {t n : Nat}

theorem sources (h : new.Repeats old φ) (ht : t ∈ new.leafs ∨ t ∈ new.nodes) :
    old.sources (φ t) = (new.sources t).map φ := by
  rw [Graph.sources, Graph.sources, (h.tensors t ht).src, filterMap_map, map_filterMap]
  rfl

theorem root (h : new.Repeats old φ) (ht : t ∈ new.leafs ∨ t ∈ new.nodes) :
    old.root (φ t) = φ (new.root t) := by
  rw [Graph.root, Graph.root, (h.tensors t ht).viewSrc, Option.getD_map]

theorem owned (h : new.Repeats old φ) (ht : new.Owned t) : old.Owned (φ t) := by
  obtain ⟨⟨hdata, hbuffer, hview⟩, hmem⟩ := ht
  have htensor := h.tensors t hmem
  refine ⟨⟨htensor.data hdata, htensor.buffer hbuffer, ?_⟩, ?_⟩
  · rw [htensor.viewSrc, hview]
    rfl
  · rw [h.leafs, h.nodes]
    exact hmem.imp (fun hl => mem_map_of_mem hl) fun hn => mem_map_of_mem hn

theorem readBy (h : new.Repeats old φ) (hnew : new.Ordered) {ns : List Nat}
    (hns : ∀ n ∈ ns, n ∈ new.nodes) (hr : new.ReadBy ns t) : old.ReadBy (ns.map φ) (φ t) := by
  obtain ⟨n, hn, x, hx, rfl⟩ := hr
  refine ⟨φ n, mem_map_of_mem hn, φ x, ?_, h.root (hnew.source_mem (hns n hn) hx)⟩
  rw [h.sources (.inr (hns n hn))]
  exact mem_map_of_mem hx

variable {pre : List Nat}

theorem kept (h : new.Repeats old φ) (hpre : ∀ n ∈ pre, n ∈ new.nodes)
    (ht : t ∈ new.leafs ∨ t ∈ new.nodes) (hk : new.Kept pre t) : old.Kept (pre.map φ) (φ t) := by
  rcases hk with hout | ⟨v, hv, hview, hout⟩
  · exact .inl ((h.tensors t ht).output hout)
  · have hvt := h.tensors v (hv.imp_right (hpre v))
    refine .inr ⟨φ v, ?_, ?_, hvt.output hout⟩
    · rw [h.leafs]
      exact hv.imp (fun hl => mem_map_of_mem hl) fun hp => mem_map_of_mem hp
    · rw [hvt.viewSrc, hview]
      rfl

theorem holds (h : new.Repeats old φ) (ht : t ∈ new.leafs ∨ t ∈ new.nodes) (hh : new.Holds pre t) :
    old.Holds (pre.map φ) (φ t) := by
  rcases hh with hl | ⟨hn, hin⟩ | hp
  · left
    rw [h.leafs]
    exact mem_map_of_mem hl
  · refine .inr (.inl ⟨?_, (h.tensors t ht).input hin⟩)
    rw [h.nodes]
    exact mem_map_of_mem hn
  · exact .inr (.inr (mem_map_of_mem hp))

end Graph.Repeats

/-- An operand that the old node took over can be taken over by the new one. -/
theorem Graph.Reused.of_repeats (h : new.Repeats old φ) (hnew : new.Ordered) {pre post : List Nat}
    (hnodes : new.nodes = pre ++ n :: post) (ht : t ∈ new.leafs ∨ t ∈ new.nodes)
    (hr : old.Reused (pre.map φ) (φ n) (post.map φ) (φ t)) : new.Reused pre n post t := by
  have hn : n ∈ new.nodes := by rw [hnodes]; simp
  have hsrc : t ∈ new.sources n := by
    have hmem := hr.source
    rw [h.sources (.inr hn)] at hmem
    obtain ⟨x, hx, hxt⟩ := mem_map.mp hmem
    rwa [h.inj (hnew.source_mem hn hx) ht hxt] at hx
  refine ⟨hsrc, (h.tensors n (.inr hn)).inplace hr.inplace, fun hread => hr.last ?_,
    fun hkept => hr.kept ?_⟩
  · exact h.readBy hnew (fun m hm => by rw [hnodes]; simp [hm]) hread
  · exact h.kept (fun m hm => by rw [hnodes]; simp [hm]) ht hkept

/-- Safe places stay safe for a graph that repeats the first, when its tensors are not larger. -/
theorem GraphSafe.of_repeats {pos pos' : Nat → Place} (hsafe : GraphSafe B old pos)
    (h : new.Repeats old φ) (hnew : new.Ordered) (hpos : ∀ t, new.Owned t → pos' t = pos (φ t))
    (hsize : ∀ t, new.Owned t → B.allocSize (B.buft (pos' t).1) (new.tensor t) ≤
      B.allocSize (B.buft (pos' t).1) (old.tensor (φ t))) : GraphSafe B new pos' := by
  intro pre n post hnodes hop ho
  have hn : n ∈ new.nodes := by rw [hnodes]; simp
  have hmem : ∀ m ∈ n :: post, m ∈ new.nodes := fun m hm => by
    rw [hnodes]
    exact mem_append_right _ hm
  have hpre : ∀ m ∈ pre, m ∈ new.nodes := fun m hm => by
    rw [hnodes]
    exact mem_append_left _ hm
  have hroot := h.root (.inr hn)
  obtain ⟨taken, hreused, hapart⟩ := hsafe (pre.map φ) (φ n) (post.map φ)
    (by rw [h.nodes, hnodes, map_append, map_cons])
    ((h.tensors n (.inr hn)).computed hop) (by rw [hroot]; exact h.owned ho)
  have hrange : ∀ t, new.Owned t →
      (B.range new t (pos' t)).bytes ⊆ (B.range old (φ t) (pos' t)).bytes := fun t ht =>
    @Span.bytes_prefix_subset (B.range old (φ t) (pos' t)) _ (hsize t ht)
  -- what is needed and meets the node is the operand that the old node took over
  have hother : ∀ t, new.Owned t → new.Holds pre t → new.ReadBy (n :: post) t ∨ new.Kept pre t →
      t ≠ new.root n → taken ≠ some (φ t) → Apart B new pos' (new.root n) t := by
    intro t ht hold hneed hne htaken hsame
    have hmeet := hapart (φ t) (h.owned ht) (h.holds ht.2 hold)
      (hneed.imp (h.readBy hnew hmem) (h.kept hpre ht.2))
      (fun he => hne (h.inj ht.2 ho.2 (he.trans hroot))) htaken
    rw [Apart, hroot, ← hpos _ ho, ← hpos t ht] at hmeet
    exact (hmeet hsame).mono (hrange _ ho) (hrange t ht)
  by_cases htaken : ∃ p, (p ∈ new.leafs ∨ p ∈ new.nodes) ∧ taken = some (φ p)
  · obtain ⟨p, hp, rfl⟩ := htaken
    refine ⟨some p, ?_, fun t ht hold hneed hne hpt => ?_⟩
    · rintro _ ⟨⟩
      exact (hreused (φ p) rfl).of_repeats h hnew hnodes hp
    · refine hother t ht hold hneed hne fun he => hpt ?_
      rw [h.inj hp ht.2 (Option.some.inj he)]
  · refine ⟨none, fun _ h => (by cases h), fun t ht hold hneed hne _ => ?_⟩
    exact hother t ht hold hneed hne fun he => htaken ⟨t, ht.2, he⟩

theorem nodeNeedsRealloc_some {a : TensorAlloc} (hable : g.Ownable t) :
    nodeNeedsRealloc B g t (some a) = true ↔
      B.allocSize (B.buft a.place.1) (g.tensor t) ≤ a.sizeMax := by
  simp [nodeNeedsRealloc, Graph.isView, hable.1, hable.2.2]

theorem Galloc.record_of_ownable (hable : g.Ownable t) : s.record B g t = some
    { place := s.spot t, sizeMax := B.allocSize (B.buft (s.spot t).1) (g.tensor t) } := by
  rw [record, Graph.isView, hable.1, hable.2.2]
  rfl

/-- In its own graph every record is large enough. -/
theorem Galloc.record_fits (t : Nat) : nodeNeedsRealloc B g t (s.record B g t) = true := by
  rw [record]
  split
  · rename_i hskip
    rwa [nodeNeedsRealloc, Bool.or_comm]
  · simp [nodeNeedsRealloc, spot]

/-- The slots of a node hold the records of the operands they stand for. -/
theorem NodeAlloc.mem_tensors (h : new.Repeats old φ) (hn : n ∈ new.nodes)
    {x : Nat × Option TensorAlloc} : x ∈ (s.nodeRecord B old (φ n)).tensors new n ↔
      (x.1 ∈ new.sources n ∨ x.1 = n) ∧ x.2 = s.record B old (φ x.1) := by
  have hslot : ∀ j p, (new.tensor n).src[j]? = some (some p) →
      (s.nodeRecord B old (φ n)).src.getD j none = s.record B old (φ p) := by
    intro j p hj
    rw [Galloc.nodeRecord, (h.tensors n (.inr hn)).src, getD_eq_getElem?_getD,
      getElem?_map, getElem?_map, hj]
    rfl
  rw [tensors, mem_append, mem_singleton, mem_filterMap]
  constructor
  · rintro (⟨⟨p, j⟩, hj, hx⟩ | rfl)
    · obtain ⟨p, rfl, rfl⟩ := Option.map_eq_some_iff.mp hx
      have hj := mk_mem_zipIdx_iff_getElem?.mp hj
      exact ⟨.inl (mem_filterMap.mpr ⟨some p, mem_of_getElem? hj, rfl⟩), hslot j p hj⟩
    · exact ⟨.inr rfl, rfl⟩
  · obtain ⟨t, a⟩ := x
    rintro ⟨hmem, hrec⟩
    dsimp only at hmem hrec
    subst hrec
    rcases hmem with hsrc | rfl
    · obtain ⟨_, hmem, rfl⟩ := mem_filterMap.mp hsrc
      obtain ⟨j, hj⟩ := mem_iff_getElem?.mp hmem
      refine .inl ⟨(some t, j), mk_mem_zipIdx_iff_getElem?.mpr hj, ?_⟩
      rw [Option.map_some, hslot j t hj]
    · exact .inr rfl

namespace Gallocr

/-- The records are those of a graph that was laid out. -/
structure Keeps (B : Buffers) (r : Gallocr) (g : Graph) (s : Galloc) : Prop where
  nodes : r.nodeAllocs = g.nodes.map (s.nodeRecord B g)
  leafs : r.leafAllocs = g.leafs.map (s.record B g)

variable {r r' : Gallocr} {nodeIds leafIds : Nat → Nat}

theorem keeps_of_reserveN (h : r.reserveN B g nodeIds leafIds = some r') :
    ∃ s, Galloc.allocGraphImpl B g nodeIds leafIds = some s ∧ r'.Keeps B g s := by
  obtain ⟨s, hs, h⟩ := Option.bind_eq_some_iff.mp h
  cases h
  exact ⟨s, hs, rfl, rfl⟩

variable {x : Nat × Option TensorAlloc}

theorem Keeps.mem_leafTensors (hr : r.Keeps B old s) (h : new.Repeats old φ) :
    x ∈ r.leafTensors new ↔ x.1 ∈ new.leafs ∧ x.2 = s.record B old (φ x.1) := by
  rw [leafTensors, hr.leafs, h.leafs, map_map, ← map_prod_left_eq_zip, mem_map]
  constructor
  · rintro ⟨t, ht, rfl⟩
    exact ⟨ht, rfl⟩
  · rintro ⟨ht, hx⟩
    exact ⟨x.1, ht, Prod.ext rfl hx.symm⟩

theorem Keeps.mem_nodeTensors (hr : r.Keeps B old s) (h : new.Repeats old φ) :
    x ∈ r.nodeTensors new ↔ (x.1 ∈ new.reads ∨ x.1 ∈ new.nodes) ∧ x.2 = s.record B old (φ x.1) := by
  rw [nodeTensors, hr.nodes, h.nodes, map_map, ← map_prod_left_eq_zip, flatMap_map,
    mem_flatMap, Graph.reads, mem_flatMap]
  constructor
  · rintro ⟨n, hn, hx⟩
    obtain ⟨hmem, hrec⟩ := (NodeAlloc.mem_tensors h hn).mp hx
    refine ⟨hmem.imp (fun hsrc => ⟨n, hn, hsrc⟩) fun he => ?_, hrec⟩
    rw [he]
    exact hn
  · rintro ⟨⟨n, hn, hsrc⟩ | hn, hrec⟩
    · exact ⟨n, hn, (NodeAlloc.mem_tensors h hn).mpr ⟨.inl hsrc, hrec⟩⟩
    · exact ⟨x.1, hn, (NodeAlloc.mem_tensors h hn).mpr ⟨.inr rfl, hrec⟩⟩

variable {given given' : Nat → Option TensorAlloc}

/-- A tensor gets the address of its record, unless it has one or needs none. -/
theorem initTensor_spec (h : r.initTensor B g given x = some given') :
    (∀ t a, given' t = some a → given t = some a ∨ (t, some a) = x) ∧
      (∀ t, (given t).isSome → given' t = given t) ∧ (g.Ownable x.1 → (given' x.1).isSome) := by
  rw [initTensor] at h
  split at h
  · rename_i v hv
    split at h
    · cases h
    · cases h
      refine ⟨fun _ _ ht => .inl ht, fun _ _ => rfl, fun hable => ?_⟩
      rw [hable.2.2] at hv
      cases hv
  · split at h
    · rename_i hskip
      cases h
      refine ⟨fun _ _ ht => .inl ht, fun _ _ => rfl, fun hable => ?_⟩
      simpa [hable.1] using hskip
    · rename_i hskip
      obtain ⟨a, ha, h⟩ := Option.bind_eq_some_iff.mp h
      obtain ⟨chunks, -, h⟩ := Option.bind_eq_some_iff.mp h
      obtain ⟨size, -, h⟩ := Option.bind_eq_some_iff.mp h
      split at h
      · cases h
        refine ⟨fun t b ht => ?_, fun t ht => update_of_ne ?_ _ _, fun _ => by simp⟩
        · by_cases hx : t = x.1
          · rw [hx, update_self] at ht
            exact .inr (Prod.ext hx (ht.symm.trans ha.symm))
          · rw [update_of_ne hx] at ht
            exact .inl ht
        · rintro rfl
          simp [ht] at hskip
      · cases h

/-- Every tensor gets its address from one of its records. -/
theorem initAll_spec : ∀ {l : List (Nat × Option TensorAlloc)} {given : Nat → Option TensorAlloc},
    l.foldlM (r.initTensor B g) given = some given' →
    (∀ t a, given' t = some a → given t = some a ∨ (t, some a) ∈ l) ∧
      (∀ t, (given t).isSome → given' t = given t) ∧
      ∀ x ∈ l, g.Ownable x.1 → (given' x.1).isSome := by
  intro l
  induction l with
  | nil =>
    intro given h
    cases h
    exact ⟨fun _ _ ht => .inl ht, fun _ _ => rfl, nofun⟩
  | cons x l ih =>
    intro given h
    obtain ⟨given₁, h₁, h⟩ := Option.bind_eq_some_iff.mp h
    obtain ⟨hfrom, hkeep, hget⟩ := initTensor_spec h₁
    obtain ⟨hfroms, hkeeps, hgets⟩ := ih h
    refine ⟨fun t a ht => ?_, fun t ht => ?_, fun y hy hable => ?_⟩
    · rcases hfroms t a ht with h' | hmem
      · refine (hfrom t a h').imp_right fun he => ?_
        rw [he]
        exact mem_cons_self
      · exact .inr (mem_cons_of_mem x hmem)
    · rw [hkeeps t (by rw [hkeep t ht]; exact ht), hkeep t ht]
    · rcases mem_cons.mp hy with rfl | hmem
      · rw [hkeeps _ (hget hable)]
        exact hget hable
      · exact hgets y hmem hable

/-- Every tensor of the new graph gets the record of the tensor that it stands for. -/
theorem Keeps.eq_record (hr : r.Keeps B old s) (h : new.Repeats old φ)
    (hi : r.initGraph B new = some given) (ht : new.Owned t) : given t = s.record B old (φ t) := by
  obtain ⟨hfrom, -, hget⟩ := initAll_spec hi
  have hsome : (given t).isSome := by
    refine hget (t, s.record B old (φ t)) ?_ ht.1
    rw [mem_append, hr.mem_leafTensors h, hr.mem_nodeTensors h]
    exact ht.2.imp (fun hl => ⟨hl, rfl⟩) fun hn => ⟨.inr hn, rfl⟩
  obtain ⟨a, ha⟩ := Option.isSome_iff_exists.mp hsome
  rcases hfrom t a ha with hnone | hmem
  · cases hnone
  · rw [mem_append, hr.mem_leafTensors h, hr.mem_nodeTensors h] at hmem
    rw [ha]
    exact hmem.elim And.right And.right

end Gallocr

/-- The place of a tensor that got an address. -/
def placeOf (given : Nat → Option TensorAlloc) (t : Nat) : Place :=
  ((given t).map TensorAlloc.place).getD (0, ⟨0, 0⟩)

/-- The addresses of a graph can be used: what was reserved is large enough, and no node is written
over a tensor that is needed. -/
structure Placed (B : Buffers) (g : Graph) (given : Nat → Option TensorAlloc) : Prop where
  fits : ∀ t, g.Owned t → ∃ a, given t = some a ∧
    B.allocSize (B.buft a.place.1) (g.tensor t) ≤ a.sizeMax
  safe : GraphSafe B g (placeOf given)

/-- The reservation for one graph can be used for the next: either the allocator notices that it
has to reserve again, or the next graph repeats the first. -/
structure Gallocr.Reusable (B : Buffers) (r : Gallocr) (old new : Graph) : Prop where
  again : r.needsRealloc B new = true → new.Regular
  regular : r.needsRealloc B new = false → old.Regular
  repeats : r.needsRealloc B new = false → ∃ φ, new.Repeats old φ
  leafs : r.needsRealloc B new = false → ∀ x ∈ r.leafTensors new, x.1 ∉ new.reads →
    nodeNeedsRealloc B new x.1 x.2 = true

section

variable {r r' : Gallocr} {given : Nat → Option TensorAlloc} {nodeIds leafIds : Nat → Nat}

/-- Addresses from the records of a graph that is repeated. -/
theorem Gallocr.Keeps.placed (hr : r.Keeps B old s) (h : new.Repeats old φ) (hnew : new.Ordered)
    (hsafe : GraphSafe B old s.spot) (hi : r.initGraph B new = some given)
    (hfits : ∀ t, new.Owned t → nodeNeedsRealloc B new t (s.record B old (φ t)) = true) :
    Placed B new given := by
  have hgiven : ∀ t, new.Owned t → given t = some
      { place := s.spot (φ t)
        sizeMax := B.allocSize (B.buft (s.spot (φ t)).1) (old.tensor (φ t)) } := by
    intro t ht
    rw [hr.eq_record h hi ht, Galloc.record_of_ownable (h.owned ht).1]
  have hpos : ∀ t, new.Owned t → placeOf given t = s.spot (φ t) := by
    intro t ht
    rw [placeOf, hgiven t ht]
    rfl
  have hsize : ∀ t, new.Owned t → B.allocSize (B.buft (s.spot (φ t)).1) (new.tensor t) ≤
      B.allocSize (B.buft (s.spot (φ t)).1) (old.tensor (φ t)) := by
    intro t ht
    have hfit := hfits t ht
    rwa [Galloc.record_of_ownable (h.owned ht).1, nodeNeedsRealloc_some ht.1] at hfit
  refine ⟨fun t ht => ⟨_, hgiven t ht, hsize t ht⟩, hsafe.of_repeats h hnew hpos fun t ht => ?_⟩
  rw [hpos t ht]
  exact hsize t ht

/-- A check that passed covers the nodes and all leafs that are read. -/
theorem Gallocr.Keeps.fits (hr : r.Keeps B old s) (h : new.Repeats old φ)
    (hneeds : r.needsRealloc B new = false)
    (hleafs : ∀ x ∈ r.leafTensors new, x.1 ∉ new.reads → nodeNeedsRealloc B new x.1 x.2 = true)
    (ht : new.Owned t) : nodeNeedsRealloc B new t (s.record B old (φ t)) = true := by
  have hnodes : ∀ x ∈ r.nodeTensors new, nodeNeedsRealloc B new x.1 x.2 = true := by
    rw [needsRealloc, Bool.or_eq_false_iff, any_eq_false] at hneeds
    intro x hx
    simpa using hneeds.2 x hx
  by_cases hread : t ∈ new.reads ∨ t ∈ new.nodes
  · exact hnodes (t, _) ((hr.mem_nodeTensors h).mpr ⟨hread, rfl⟩)
  · rw [not_or] at hread
    exact hleafs (t, _) ((hr.mem_leafTensors h).mpr ⟨ht.2.resolve_right hread.2, rfl⟩) hread.1

/-- What `ggml_gallocr_alloc_graph` does when it returns true. -/
theorem Gallocr.allocGraph_spec (h : r.allocGraph B g = some (r', some given)) :
    (r.needsRealloc B g = true ∧ r.reserve B g = some r' ∧ r'.initGraph B g = some given) ∨
      (r.needsRealloc B g = false ∧ r' = r ∧ r.initGraph B g = some given) := by
  rw [allocGraph] at h
  split at h
  · rename_i hneeds
    split at h
    · obtain ⟨r₁, hr₁, h⟩ := Option.bind_eq_some_iff.mp h
      obtain ⟨given₁, hi, h⟩ := Option.bind_eq_some_iff.mp h
      cases h
      exact .inl ⟨hneeds, hr₁, hi⟩
    · cases h
  · rename_i hneeds
    obtain ⟨given₁, hi, h⟩ := Option.bind_eq_some_iff.mp h
    cases h
    exact .inr ⟨Bool.eq_false_of_not_eq_true hneeds, rfl, hi⟩

/-- The next graph can use the addresses that it gets. -/
theorem alloc_graph_placed {r₀ : Gallocr} (hold : old.Ordered) (hnew : new.Ordered)
    (hxold : B.Exact old) (hxnew : B.Exact new)
    (hreserve : r₀.reserveN B old nodeIds leafIds = some r) (huse : r.Reusable B old new)
    (halloc : r.allocGraph B new = some (r', some given)) : Placed B new given := by
  rcases Gallocr.allocGraph_spec halloc with ⟨hneeds, hres, hi⟩ | ⟨hneeds, rfl, hi⟩
  · obtain ⟨s, hs, hr⟩ := Gallocr.keeps_of_reserveN hres
    exact hr.placed (Graph.Repeats.refl new) hnew
      (alloc_graph_safe hnew (huse.again hneeds) hxnew hs) hi fun t _ => s.record_fits t
  · obtain ⟨s, hs, hr⟩ := Gallocr.keeps_of_reserveN hreserve
    obtain ⟨φ, hφ⟩ := huse.repeats hneeds
    exact hr.placed hφ hnew (alloc_graph_safe hold (huse.regular hneeds) hxold hs) hi fun t ht =>
      hr.fits hφ hneeds (huse.leafs hneeds) ht

end

/-- One buffer in which a tensor takes four bytes for each number. -/
def byNumber : Buffers := { oneBuffer with allocSize := fun _ t => 4 * t.layout.ne.prod }

/-- The same graph for half as many numbers. -/
def viewedHalf : Graph :=
  { viewedLast with tensor := fun t => { viewedLast.tensor t with layout := ⟨0, [4], [4]⟩ } }

theorem viewedHalf_ordered : viewedHalf.Ordered where
  nodup := viewedLast_ordered.nodup
  leafs := viewedLast_ordered.leafs
  sources := viewedLast_ordered.sources
  viewSrc := viewedLast_ordered.viewSrc
  root := viewedLast_ordered.root

theorem viewedHalf_regular : viewedHalf.Regular := by
  refine viewedHalf_ordered.regular (fun v _ t ht _ => ?_) (fun v _ _ t ht _ => ?_) (by decide)
  · obtain ⟨rfl, rfl⟩ := viewedLast_root v t ht
    decide
  · obtain ⟨rfl, rfl⟩ := viewedLast_root v t ht
    exact .inr (by decide)

theorem viewedHalf_repeats : viewedHalf.Repeats viewedLast id where
  nodes := by simp [viewedHalf]
  leafs := by simp [viewedHalf]
  inj := Set.injOn_id _
  tensors t _ := { Tensor.Repeats.refl (viewedLast.tensor t) with }

theorem byNumber_exact : byNumber.Exact viewedLast ∧ byNumber.Exact viewedHalf := by
  refine ⟨fun _ t => ?_, fun _ _ => show alignedOffset 16 32 ≤ sizeMax / 2 by decide⟩
  have hlength : (viewedLast.tensor t).layout.ne = [8] := by
    simp only [viewedLast]
    split <;> rfl
  change alignedOffset (4 * (viewedLast.tensor t).layout.ne.prod) 32 ≤ sizeMax / 2
  rw [hlength]
  decide

theorem alloc_graph_placed_viewedHalf : ∃ r r' given,
    Gallocr.new.reserveN byNumber viewedLast (fun _ => 0) (fun _ => 0) = some r ∧
      r.allocGraph byNumber viewedHalf = some (r', some given) ∧
      Placed byNumber viewedHalf given := by
  obtain ⟨r, hr, hrun⟩ := Option.bind_eq_some_iff.mp (show ((Gallocr.new.reserveN byNumber
    viewedLast (fun _ => 0) (fun _ => 0)).bind fun r => (r.allocGraph byNumber viewedHalf).map
      fun x => x.2.isSome) = some true by decide)
  obtain ⟨⟨r', given?⟩, halloc, hsome⟩ := Option.map_eq_some_iff.mp hrun
  obtain ⟨given, rfl⟩ := Option.isSome_iff_exists.mp hsome
  refine ⟨r, r', given, hr, halloc, alloc_graph_placed viewedLast_ordered viewedHalf_ordered
    byNumber_exact.1 byNumber_exact.2 hr ?_ halloc⟩
  refine ⟨fun _ => viewedHalf_regular, fun _ => viewedLast_regular,
    fun _ => ⟨id, viewedHalf_repeats⟩, fun _ x hx hread => absurd ?_ hread⟩
  have hleaf : x.1 ∈ [0] := (of_mem_zip hx).1
  rw [mem_singleton.mp hleaf]
  decide

/-- Three nodes in a row; the last one reads the node `last`. -/
def row (last : Nat) : Graph where
  tensor
    | 1 => numbers (.other 0) [0]
    | 2 => numbers (.other 0) [1]
    | 3 => numbers (.other 0) [last]
    | _ => numbers .none []
  nodes := [1, 2, 3]
  leafs := [0]

theorem row_viewSrc (last t : Nat) : ((row last).tensor t).viewSrc = none := by
  simp only [row]
  split <;> rfl

theorem row_ordered {last : Nat} (h : last = 1 ∨ last = 2) : (row last).Ordered := by
  refine Graph.Ordered.of_positions ?_ ?_ ?_ ?_ ?_
  · exact (by decide : [1, 2, 3].Nodup)
  · rcases h with rfl | rfl <;> decide
  · rcases h with rfl | rfl <;> decide
  · intro i _ v _ t ht
    rw [row_viewSrc] at ht
    cases ht
  · intro t v ht
    rw [row_viewSrc] at ht
    cases ht

/-- The last node of the second graph is written over the node that it reads: in the first graph
nothing read that node any more. -/
theorem other_operand_overwritten : (row 2).Ordered ∧ (row 1).Ordered ∧ ∃ r r' given,
    Gallocr.new.reserveN oneBuffer (row 2) (fun _ => 0) (fun _ => 0) = some r ∧
      r.allocGraph oneBuffer (row 1) = some (r', some given) ∧
      ¬ Placed oneBuffer (row 1) given := by
  refine ⟨row_ordered (.inr rfl), row_ordered (.inl rfl), ?_⟩
  obtain ⟨r, hr, hrun⟩ := Option.bind_eq_some_iff.mp (show ((Gallocr.new.reserveN oneBuffer
    (row 2) (fun _ => 0) (fun _ => 0)).bind fun r => (r.allocGraph oneBuffer (row 1)).bind
      fun x => x.2.map fun given => (placeOf given 1, placeOf given 3)) =
        some ((0, ⟨0, 32⟩), (0, ⟨0, 32⟩)) by decide)
  obtain ⟨⟨r', given?⟩, halloc, hgiven⟩ := Option.bind_eq_some_iff.mp hrun
  obtain ⟨given, rfl, hplaces⟩ := Option.map_eq_some_iff.mp hgiven
  obtain ⟨h1, h3⟩ := Prod.mk.inj hplaces
  have hroot : (row 1).root 3 = 3 := rfl
  have hread : (row 1).ReadBy [3] 1 := ⟨3, by decide, 1, by decide, rfl⟩
  refine ⟨r, r', given, hr, halloc, fun hplaced => not_graphSafe [1, 2] 3 [] 1 32 rfl (by decide)
    ⟨by decide, .inr (by decide)⟩ ⟨by decide, .inr (by decide)⟩
    (.inr (.inr (by decide))) (.inl hread) (by decide)
    (fun hreused => absurd hreused.inplace (by decide)) ?_ ?_ ?_ hplaced.safe⟩
  · rw [hroot, h1, h3]
    exact ⟨rfl, rfl⟩
  · rw [hroot, h3]
    exact Span.mem_bytes.mpr (by decide)
  · rw [h1]
    exact Span.mem_bytes.mpr (by decide)

end Llama.Alloc
