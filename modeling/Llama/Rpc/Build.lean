import Llama.Rpc.Server

/-!
# What `create_node` builds

Two facts about the construction of a graph, whatever the message: its recursion never needs more
levels than the message has tensors, and every tensor it creates comes from a tensor of the message
that the nodes lead to.
-/

namespace Llama.Rpc

open List Function

variable {T : Gguf.Traits} {buffers : Buffers} {ptrs : Ptrs}

/-- What assigning references does not touch. -/
structure Tensor.SameCore (t t' : ServerTensor) : Prop where
  type : t'.type = t.type
  buffer : t'.buffer = t.buffer
  ne : t'.ne = t.ne
  nb : t'.nb = t.nb
  data : t'.data = t.data

/-- `id` leads to `id'` in the message. -/
def Ptrs.Leads (ptrs : Ptrs) (id id' : UInt64) : Prop :=
  ∃ r, ptrs id = some r ∧ ((∃ i, r.src i = id') ∨ r.viewSrc = id') ∧ id' ≠ 0

/-- Every tensor of the context was deserialized from a tensor of the message with an id in `Q`. -/
def Ctx.Made (T : Gguf.Traits) (buffers : Buffers) (ptrs : Ptrs) (Q : UInt64 → Prop) (ctx : Ctx) :
    Prop :=
  ∀ t ∈ ctx.tensors, ∃ id r t₀, Q id ∧ ptrs id = some r ∧
    deserializeTensor T buffers r = .ok (some t₀) ∧ Tensor.SameCore t₀ t

variable {Q : UInt64 → Prop}

variable {ctx : Ctx} {id : UInt64} {r : RpcTensor}

theorem Ctx.Made.push (h : ctx.Made T buffers ptrs Q) {t : ServerTensor} (hQ : Q id)
    (hr : ptrs id = some r) (ht : deserializeTensor T buffers r = .ok (some t)) :
    (ctx.push id t).Made T buffers ptrs Q := by
  intro t' ht'
  rcases mem_append.mp ht' with hm | hm
  · exact h t' hm
  · rw [mem_singleton.mp hm]
    exact ⟨id, r, t, hQ, hr, ht, rfl, rfl, rfl, rfl, rfl⟩

/-- Changing one tensor without its core. -/
theorem Ctx.Made.modify (h : ctx.Made T buffers ptrs Q) {k : Nat} {g : ServerTensor → ServerTensor}
    (hg : ∀ t, Tensor.SameCore t (g t)) :
    Ctx.Made T buffers ptrs Q { ctx with tensors := ctx.tensors.modify k g } := by
  intro t' ht'
  obtain ⟨j, hj, rfl⟩ := getElem_of_mem ht'
  rw [length_modify] at hj
  have hm := h _ (getElem_mem hj)
  rw [getElem_modify]
  split
  · obtain ⟨id, r, t₀, hQ, hr, ht, hc⟩ := hm
    have hg' := hg ctx.tensors[j]
    exact ⟨id, r, t₀, hQ, hr, ht, hg'.type.trans hc.type, hg'.buffer.trans hc.buffer,
      hg'.ne.trans hc.ne, hg'.nb.trans hc.nb, hg'.data.trans hc.data⟩
  · exact hm

theorem Ctx.Made.setSrc (h : ctx.Made T buffers ptrs Q) (k : Nat) (i : Fin maxSrc)
    (v : Option Nat) : (ctx.setSrc k i v).Made T buffers ptrs Q :=
  h.modify fun _ => ⟨rfl, rfl, rfl, rfl, rfl⟩

theorem Ctx.Made.setView (h : ctx.Made T buffers ptrs Q) (k : Nat) (v : Option Nat)
    (offs : UInt64) : (ctx.setView k v offs).Made T buffers ptrs Q :=
  h.modify fun _ => ⟨rfl, rfl, rfl, rfl, rfl⟩

theorem createSrcs_made {create : UInt64 → Ctx → Except Stop (Option Nat × Ctx)} {r : RpcTensor}
    {h : Nat} (hcreate : ∀ i, r.src i ≠ 0 → ∀ ctx k ctx', ctx.Made T buffers ptrs Q →
      create (r.src i) ctx = .ok (k, ctx') → ctx'.Made T buffers ptrs Q) :
    ∀ (is : List (Fin maxSrc)) (ctx : Ctx) (b : Bool) (ctx' : Ctx), ctx.Made T buffers ptrs Q →
      createSrcs create r h is ctx = .ok (b, ctx') → ctx'.Made T buffers ptrs Q
  | [], ctx, b, ctx', hm, he => by
    cases he
    exact hm
  | i :: is, ctx, b, ctx', hm, he => by
    rw [createSrcs] at he
    split at he
    · exact createSrcs_made hcreate is _ b ctx' (hm.setSrc h i none) he
    · rename_i h0
      split at he
      · cases he
      · rename_i hc
        cases he
        exact hcreate i h0 _ _ _ hm hc
      · rename_i k ctx₁ hc
        exact createSrcs_made hcreate is _ b ctx'
          ((hcreate i h0 _ _ _ hm hc).setSrc h i (some k)) he

/-- `create_node` only creates tensors that its id leads to. -/
theorem createNode_made (hQ : ∀ id id', Q id → ptrs.Leads id id' → Q id') :
    ∀ (fuel : Nat) (id : UInt64) (ctx : Ctx) (k : Option Nat) (ctx' : Ctx), Q id →
      ctx.Made T buffers ptrs Q → createNode T buffers ptrs fuel id ctx = .ok (k, ctx') →
      ctx'.Made T buffers ptrs Q
  | 0, id, ctx, k, ctx', _, _, he => by cases he
  | fuel + 1, id, ctx, k, ctx', hid, hm, he => by
    have hrec : ∀ id', ptrs.Leads id id' → ∀ ctx k ctx', ctx.Made T buffers ptrs Q →
        createNode T buffers ptrs fuel id' ctx = .ok (k, ctx') → ctx'.Made T buffers ptrs Q :=
      fun id' hl ctx k ctx' hm he => createNode_made hQ fuel id' ctx k ctx' (hQ id id' hid hl) hm he
    rw [createNode] at he
    cases hmap : ctx.map id with
    | some h =>
      simp only [hmap, Except.ok.injEq, Prod.mk.injEq] at he
      rwa [← he.2]
    | none =>
      cases hr : ptrs id with
      | none =>
        simp only [hmap, hr, Except.ok.injEq, Prod.mk.injEq] at he
        rwa [← he.2]
      | some r =>
        have hsrcs : ∀ is c b c', Ctx.Made T buffers ptrs Q c →
            createSrcs (createNode T buffers ptrs fuel) r ctx.tensors.length is c = .ok (b, c') →
            c'.Made T buffers ptrs Q :=
          createSrcs_made fun i h0 => hrec _ ⟨r, hr, .inl ⟨i, rfl⟩, h0⟩
        cases ht : deserializeTensor T buffers r with
        | error e => simp only [hmap, hr, ht, reduceCtorEq] at he
        | ok o =>
          cases o with
          | none =>
            simp only [hmap, hr, ht, Except.ok.injEq, Prod.mk.injEq] at he
            rwa [← he.2]
          | some t =>
            simp only [hmap, hr, ht] at he
            cases hs : createSrcs (createNode T buffers ptrs fuel) r ctx.tensors.length
                (finRange maxSrc) (ctx.push id t) with
            | error e => simp only [hs, reduceCtorEq] at he
            | ok bc =>
              obtain ⟨b, ctx₁⟩ := bc
              have hm₁ := hsrcs _ _ _ _ (hm.push hid hr ht) hs
              cases b with
              | false =>
                simp only [hs, Except.ok.injEq, Prod.mk.injEq] at he
                rwa [← he.2]
              | true =>
                simp only [hs] at he
                split at he
                · cases he
                  exact hm₁.setView _ _ _
                · rename_i h0
                  have hview := hrec _ ⟨r, hr, .inr rfl, h0⟩
                  split at he
                  · cases he
                  · rename_i hv
                    cases he
                    exact hview _ _ _ hm₁ hv
                  · rename_i hv
                    cases he
                    exact (hview _ _ _ hm₁ hv).setView _ _ _

/-- Every tensor of a graph comes from a tensor of the message that the nodes lead to. -/
theorem createNodes_made (hQ : ∀ id id', Q id → ptrs.Leads id id' → Q id') {fuel : Nat} :
    ∀ (ids : List UInt64) (nodes : List (Option Nat)) (ctx : Ctx) (g : Graph), (∀ id ∈ ids, Q id) →
      ctx.Made T buffers ptrs Q →
      createNodes (createNode T buffers ptrs fuel) ids nodes ctx = .ok g →
      Ctx.Made T buffers ptrs Q { tensors := g.tensors, map := ctx.map }
  | [], nodes, ctx, g, _, hm, he => by
    cases he
    exact hm
  | id :: ids, nodes, ctx, g, hids, hm, he => by
    rw [createNodes] at he
    split at he
    · cases he
    · rename_i k ctx₁ hc
      split at he
      · cases he
      · exact createNodes_made hQ ids _ ctx₁ g (fun i hi => hids i (mem_cons_of_mem id hi))
          (createNode_made hQ fuel id ctx k ctx₁ (hids id mem_cons_self) hm hc) he

/-- Ids of `S` without a tensor. -/
def Ctx.unmapped (S : Finset UInt64) (ctx : Ctx) : Finset UInt64 := S.filter (ctx.map · = none)

/-- Every new tensor takes an id of `S`, and no id is given back. -/
structure Ctx.Pays (S : Finset UInt64) (ctx ctx' : Ctx) : Prop where
  ids : (ctx'.unmapped S).card ≤ (ctx.unmapped S).card
  tensors : ctx'.tensors.length + (ctx'.unmapped S).card ≤
    ctx.tensors.length + (ctx.unmapped S).card

/-- A result that does not run out of depth and has paid for its tensors. -/
def Halts {α : Type} (S : Finset UInt64) (ctx : Ctx) (r : Except Stop (α × Ctx)) : Prop :=
  r ≠ .error .fuel ∧ ∀ a ctx', r = .ok (a, ctx') → ctx.Pays S ctx'

variable {S : Finset UInt64}

theorem Ctx.Pays.refl (ctx : Ctx) : ctx.Pays S ctx := ⟨le_rfl, le_rfl⟩

theorem Ctx.Pays.trans {ctx₁ ctx₂ : Ctx} (h : ctx.Pays S ctx₁) (h' : ctx₁.Pays S ctx₂) :
    ctx.Pays S ctx₂ :=
  ⟨h'.ids.trans h.ids, h'.tensors.trans h.tensors⟩

theorem Ctx.pays_setSrc (ctx : Ctx) (h : Nat) (i : Fin maxSrc) (v : Option Nat) :
    ctx.Pays S (ctx.setSrc h i v) :=
  ⟨le_rfl, Nat.add_le_add (by simp [Ctx.setSrc]) le_rfl⟩

theorem Ctx.pays_setView (ctx : Ctx) (h : Nat) (v : Option Nat) (offs : UInt64) :
    ctx.Pays S (ctx.setView h v offs) :=
  ⟨le_rfl, Nat.add_le_add (by simp [Ctx.setView]) le_rfl⟩

theorem Halts.ok {α : Type} {ctx' : Ctx} (a : α) (h : ctx.Pays S ctx') :
    Halts S ctx (.ok (a, ctx')) :=
  ⟨by simp, fun b ctx'' he => by
    cases he
    exact h⟩

theorem Halts.error {α : Type} {ctx : Ctx} {e : Stop} (he : e ≠ .fuel) :
    Halts (α := α) S ctx (.error e) :=
  ⟨fun h => he (Except.error.inj h), fun _ _ h => (by cases h)⟩

theorem Halts.mono {α : Type} {ctx₁ : Ctx} {r : Except Stop (α × Ctx)} (h : Halts S ctx₁ r)
    (hs : ctx.Pays S ctx₁) : Halts S ctx r :=
  ⟨h.1, fun a ctx' he => hs.trans (h.2 a ctx' he)⟩

theorem Ctx.unmapped_push_subset (ctx : Ctx) (id : UInt64) (t : ServerTensor) :
    (ctx.push id t).unmapped S ⊆ ctx.unmapped S := by
  intro p hp
  obtain ⟨h1, h2⟩ := Finset.mem_filter.mp hp
  refine Finset.mem_filter.mpr ⟨h1, ?_⟩
  by_cases he : p = id
  · subst he
    simp [Ctx.push] at h2
  · simpa [Ctx.push, update_of_ne he] using h2

/-- Registering an id of `S` uses it up. -/
theorem Ctx.card_unmapped_push (t : ServerTensor) (hid : id ∈ S) (hmap : ctx.map id = none) :
    ((ctx.push id t).unmapped S).card < (ctx.unmapped S).card := by
  apply Finset.card_lt_card
  refine ⟨ctx.unmapped_push_subset id t, fun hsub => ?_⟩
  have hin : id ∈ ctx.unmapped S := Finset.mem_filter.mpr ⟨hid, hmap⟩
  have := (Finset.mem_filter.mp (hsub hin)).2
  simp [Ctx.push] at this

theorem Ctx.pays_push (t : ServerTensor) (hid : id ∈ S) (hmap : ctx.map id = none) :
    ctx.Pays S (ctx.push id t) := by
  have hlt := Ctx.card_unmapped_push t hid hmap
  have hlen : (ctx.push id t).tensors.length = ctx.tensors.length + 1 := by simp [Ctx.push]
  exact ⟨hlt.le, by omega⟩

theorem deserializeTensor_error {e : Stop} (h : deserializeTensor T buffers r = .error e) :
    e ≠ .fuel := by
  unfold deserializeTensor at h
  split at h
  · cases h
  · split at h
    · cases h
      simp
    · cases hx : r.extent buffers with
      | none => simp only [hx, reduceCtorEq] at h
      | some x =>
        simp only [hx] at h
        split at h
        · cases h
        · cases h
          simp

theorem createSrcs_halts {create : UInt64 → Ctx → Except Stop (Option Nat × Ctx)} {fuel : Nat}
    (hcreate : ∀ id ctx, (ctx.unmapped S).card < fuel → Halts S ctx (create id ctx))
    (r : RpcTensor) (h : Nat) : ∀ (is : List (Fin maxSrc)) (ctx : Ctx),
      (ctx.unmapped S).card < fuel → Halts S ctx (createSrcs create r h is ctx)
  | [], ctx, _ => Halts.ok true (.refl ctx)
  | i :: is, ctx, hf => by
    rw [createSrcs]
    by_cases h0 : r.src i = 0
    · rw [if_pos h0]
      exact (createSrcs_halts hcreate r h is (ctx.setSrc h i none) hf).mono
        (ctx.pays_setSrc h i none)
    · rw [if_neg h0]
      have hc := hcreate (r.src i) ctx hf
      cases he : create (r.src i) ctx with
      | error e => exact Halts.error fun hfuel => hc.1 (by rw [he, hfuel])
      | ok kc =>
        obtain ⟨k, ctx₁⟩ := kc
        have hpays := hc.2 k ctx₁ he
        cases k with
        | none => exact Halts.ok false hpays
        | some k =>
          exact (createSrcs_halts hcreate r h is (ctx₁.setSrc h i (some k))
            (hpays.ids.trans_lt hf)).mono (hpays.trans (ctx₁.pays_setSrc h i (some k)))

/-- With one level more than there are ids left to create, `create_node` ends. -/
theorem createNode_halts (hS : ∀ id r, ptrs id = some r → id ∈ S) : ∀ (fuel : Nat) (id : UInt64)
    (ctx : Ctx), (ctx.unmapped S).card < fuel → Halts S ctx (createNode T buffers ptrs fuel id ctx)
  | 0, _, _, hf => absurd hf (Nat.not_lt_zero _)
  | fuel + 1, id, ctx, hf => by
    rw [createNode]
    cases hmap : ctx.map id with
    | some h => exact Halts.ok _ (.refl ctx)
    | none =>
      cases hr : ptrs id with
      | none => exact Halts.ok _ (.refl ctx)
      | some r =>
        cases ht : deserializeTensor T buffers r with
        | error e =>
          simp only [ht]
          exact Halts.error (deserializeTensor_error ht)
        | ok o =>
          simp only [ht]
          cases o with
          | none => exact Halts.ok _ (.refl ctx)
          | some t =>
            have hpush := Ctx.pays_push t (hS id r hr) hmap
            have hcard := Ctx.card_unmapped_push t (hS id r hr) hmap
            have hsrcs := createSrcs_halts (createNode_halts hS fuel) r ctx.tensors.length
              (finRange maxSrc) (ctx.push id t) (by omega)
            cases hs : createSrcs (createNode T buffers ptrs fuel) r ctx.tensors.length
                (finRange maxSrc) (ctx.push id t) with
            | error e =>
              simp only [hs]
              exact Halts.error fun hfuel => hsrcs.1 (by rw [hs, hfuel])
            | ok bc =>
              obtain ⟨b, ctx₁⟩ := bc
              have hpays : ctx.Pays S ctx₁ := hpush.trans (hsrcs.2 b ctx₁ hs)
              simp only [hs]
              cases b with
              | false => exact Halts.ok _ hpays
              | true =>
                by_cases h0 : r.viewSrc = 0
                · simp only [h0, if_true]
                  exact Halts.ok _ (hpays.trans (ctx₁.pays_setView _ _ _))
                · simp only [h0, if_false]
                  have hle := (hsrcs.2 true ctx₁ hs).ids
                  have hview := createNode_halts hS fuel r.viewSrc ctx₁ (by omega)
                  cases hv : createNode T buffers ptrs fuel r.viewSrc ctx₁ with
                  | error e => exact Halts.error fun hfuel => hview.1 (by rw [hv, hfuel])
                  | ok kc =>
                    obtain ⟨k, ctx₂⟩ := kc
                    have hpays₂ := hpays.trans (hview.2 k ctx₂ hv)
                    cases k with
                    | none => exact Halts.ok _ hpays₂
                    | some k => exact Halts.ok _ (hpays₂.trans (ctx₂.pays_setView _ _ _))

/-- The construction of a graph never runs out of depth, and it creates no more tensors than the
message has, so that they fit in the memory of its context. -/
theorem buildGraph_halts (T : Gguf.Traits) (buffers : Buffers) (m : GraphMessage) :
    buildGraph T buffers m ≠ .error .fuel ∧
      ∀ g, buildGraph T buffers m = .ok g → g.tensors.length ≤ m.tensors.length := by
  have hS : ∀ id r, m.ptrs id = some r → id ∈ (m.tensors.map RpcTensor.id).toFinset := by
    intro id r hr
    have hid := find?_some (p := fun r : RpcTensor => r.id == id) hr
    rw [mem_toFinset, mem_map]
    exact ⟨r, mem_of_find?_eq_some hr, by simpa using hid⟩
  have hroom : ∀ ctx : Ctx, (ctx.unmapped (m.tensors.map RpcTensor.id).toFinset).card ≤
      m.tensors.length := by
    intro ctx
    have hsub := Finset.card_le_card (Finset.filter_subset (ctx.map · = none)
      (m.tensors.map RpcTensor.id).toFinset)
    have hlen := toFinset_card_le (m.tensors.map RpcTensor.id)
    rw [length_map] at hlen
    exact hsub.trans hlen
  have hall : ∀ (ids : List UInt64) (nodes : List (Option Nat)) (ctx : Ctx),
      ctx.tensors.length + (ctx.unmapped (m.tensors.map RpcTensor.id).toFinset).card ≤
        m.tensors.length →
      createNodes (createNode T buffers m.ptrs (m.tensors.length + 1)) ids nodes ctx ≠
        .error .fuel ∧
      ∀ g, createNodes (createNode T buffers m.ptrs (m.tensors.length + 1)) ids nodes ctx = .ok g →
        g.tensors.length ≤ m.tensors.length := by
    intro ids
    induction ids with
    | nil =>
      refine fun nodes ctx hctx => ⟨by simp [createNodes], fun g hg => ?_⟩
      obtain rfl := Except.ok.inj hg
      exact (Nat.le_add_right _ _).trans hctx
    | cons id ids ih =>
      intro nodes ctx hctx
      have hc := @createNode_halts T buffers m.ptrs _ hS _ id ctx (Nat.lt_succ_of_le (hroom ctx))
      rw [createNodes]
      cases he : createNode T buffers m.ptrs (m.tensors.length + 1) id ctx with
      | error e => exact ⟨fun h => hc.1 (by rw [he, Except.error.inj h]), by simp⟩
      | ok kc =>
        have hpays := hc.2 kc.1 kc.2 he
        simp only
        split
        · simp
        · exact ih _ _ (hpays.tensors.trans hctx)
  exact hall m.nodes [] _ (by simpa using hroom _)

/-- Null sources leave a tensor without sources as it is. -/
theorem createSrcs_null {create : UInt64 → Ctx → Except Stop (Option Nat × Ctx)} {h : Nat}
    (hsrc : ∀ i, r.src i = 0) (hctx : ∀ i, ctx.setSrc h i none = ctx) (is : List (Fin maxSrc)) :
    createSrcs create r h is ctx = .ok (true, ctx) := by
  induction is with
  | nil => rfl
  | cons i is ih => rw [createSrcs, if_pos (hsrc i), hctx i, ih]

/-- The graph of one tensor without references. -/
theorem buildGraph_leaf {known : Bool} (device : UInt32) (hsrc : ∀ i, r.src i = 0)
    (hview : r.viewSrc = 0) (ht : deserializeTensor T buffers r = .ok (some (r.bare known))) :
    buildGraph T buffers { device := device, nodes := [r.id], tensors := [r] } =
      .ok { tensors := [{ r.bare known with viewOffs := r.viewOffs }], nodes := [some 0] } := by
  have hptrs : GraphMessage.ptrs { device := device, nodes := [r.id], tensors := [r] } r.id =
      some r := by
    simp [GraphMessage.ptrs]
  have hset : ∀ (ctx : Ctx) (i : Fin maxSrc), ctx.tensors = [r.bare known] →
      ctx.setSrc 0 i none = ctx := by
    rintro ⟨tensors, map⟩ i rfl
    have hsame : update (r.bare known).src i none = (r.bare known).src := update_eq_self i _
    simp [Ctx.setSrc, hsame]
  simp only [buildGraph, createNodes, createNode, hptrs, ht, length_nil]
  rw [createSrcs_null hsrc fun i => hset _ i rfl]
  simp [hview, Ctx.setView, Ctx.push, RpcTensor.bare]

end Llama.Rpc
