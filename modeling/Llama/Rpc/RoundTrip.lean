import Llama.Rpc.Build
import Llama.Gguf.RoundTrip

/-!
# Graphs survive the wire

The server rebuilds the graph that the client has serialized. `create_node` registers a tensor
before its sources exist; while they are created the tensor is pending, and nothing but the loop of
its own call changes it. When no call is pending every id has one tensor, and its references are the
tensors of the ids it refers to.
-/

namespace Llama.Rpc

open List Function

variable {T : Gguf.Traits} {buffers : Buffers} {ptrs : Ptrs}

/-- The tensor of an id, null for null. -/
def Ctx.ref (ctx : Ctx) (id : UInt64) : Option Nat := if id = 0 then none else ctx.map id

/-- The ids that a tensor of a message refers to. -/
def RpcTensor.Refers (r : RpcTensor) (id : UInt64) : Prop :=
  id ≠ 0 ∧ ((∃ i, r.src i = id) ∨ r.viewSrc = id)

/-- The tensor `r` of the message is finished at the place `h`. -/
structure Ctx.Holds (T : Gguf.Traits) (buffers : Buffers) (ctx : Ctx) (r : RpcTensor) (h : Nat) :
    Prop where
  /-- Its fields are those of the message, its references those of the context. -/
  tensor : ∃ known, deserializeTensor T buffers r = .ok (some (r.bare known)) ∧
    ctx.tensors[h]? = some
      { r.bare known with
        src := fun i => ctx.ref (r.src i), viewSrc := ctx.ref r.viewSrc, viewOffs := r.viewOffs }
  /-- What it refers to exists. -/
  refs : ∀ id, r.Refers id → ctx.map id ≠ none

/-- A closed set of ids whose tensors can be created. -/
structure Ptrs.Closed (T : Gguf.Traits) (buffers : Buffers) (ptrs : Ptrs) (S : Finset UInt64) :
    Prop where
  /-- Every id has a tensor that can be deserialized. -/
  creates : ∀ id ∈ S, ∃ r known, ptrs id = some r ∧
    deserializeTensor T buffers r = .ok (some (r.bare known))
  /-- References stay in the set. -/
  refs : ∀ id ∈ S, ∀ r, ptrs id = some r → ∀ id', r.Refers id' → id' ∈ S

/-- State of the construction while the ids of `pending` are being created. -/
structure Ctx.Built (T : Gguf.Traits) (buffers : Buffers) (ptrs : Ptrs) (pending : List UInt64)
    (ctx : Ctx) : Prop where
  lt : ∀ id h, ctx.map id = some h → h < ctx.tensors.length
  inj : ∀ id id' h, ctx.map id = some h → ctx.map id' = some h → id = id'
  holds : ∀ id h, ctx.map id = some h → id ∉ pending →
    ∃ r, ptrs id = some r ∧ ctx.Holds T buffers r h

/-- The tensors and ids of a context are kept. -/
structure Ctx.Extends (ctx ctx' : Ctx) : Prop where
  map : ∀ id h, ctx.map id = some h → ctx'.map id = some h
  tensors : ∀ h < ctx.tensors.length, ctx'.tensors[h]? = ctx.tensors[h]?

theorem Ctx.Extends.refl (ctx : Ctx) : ctx.Extends ctx := ⟨fun _ _ h => h, fun _ _ => rfl⟩

variable {ctx ctx' ctx₀ : Ctx} {c : Client} {id id' p q : UInt64} {r : RpcTensor} {h : Nat}
  {pending nodes : List UInt64} {t : ServerTensor}

theorem Ctx.Extends.length_le (h : ctx.Extends ctx') :
    ctx.tensors.length ≤ ctx'.tensors.length := by
  by_contra hlt
  have hk := h.tensors _ (Nat.lt_of_not_le hlt)
  rw [getElem?_eq_none (Nat.le_refl _), getElem?_eq_getElem (Nat.lt_of_not_le hlt)] at hk
  cases hk

theorem Ctx.Extends.trans {a b c : Ctx} (h₁ : a.Extends b) (h₂ : b.Extends c) : a.Extends c := by
  refine ⟨fun id h hm => h₂.map id h (h₁.map id h hm), fun h hlt => ?_⟩
  rw [h₂.tensors h (hlt.trans_le h₁.length_le), h₁.tensors h hlt]

theorem ref_eq_of_map (h : ∀ id k, ctx.map id = some k → ctx'.map id = some k)
    (hid : id = 0 ∨ ctx.map id ≠ none) : ctx'.ref id = ctx.ref id := by
  unfold Ctx.ref
  split
  · rfl
  · rename_i hne
    obtain ⟨k, hk⟩ := Option.ne_none_iff_exists'.mp (hid.resolve_left hne)
    rw [hk, h id k hk]

theorem RpcTensor.src_null_or_refers (r : RpcTensor) (i : Fin maxSrc) :
    r.src i = 0 ∨ r.Refers (r.src i) := by
  by_cases h : r.src i = 0
  · exact .inl h
  · exact .inr ⟨h, .inl ⟨i, rfl⟩⟩

theorem RpcTensor.viewSrc_null_or_refers (r : RpcTensor) : r.viewSrc = 0 ∨ r.Refers r.viewSrc := by
  by_cases h : r.viewSrc = 0
  · exact .inl h
  · exact .inr ⟨h, .inr rfl⟩

theorem Ctx.Holds.mono (hh : ctx.Holds T buffers r h)
    (hmap : ∀ id k, ctx.map id = some k → ctx'.map id = some k)
    (ht : ctx'.tensors[h]? = ctx.tensors[h]?) : ctx'.Holds T buffers r h := by
  obtain ⟨known, hd, hk⟩ := hh.tensor
  have hsrc : ∀ i, ctx'.ref (r.src i) = ctx.ref (r.src i) := fun i =>
    ref_eq_of_map hmap ((r.src_null_or_refers i).imp_right (hh.refs _))
  have hview : ctx'.ref r.viewSrc = ctx.ref r.viewSrc :=
    ref_eq_of_map hmap (r.viewSrc_null_or_refers.imp_right (hh.refs _))
  refine ⟨⟨known, hd, ?_⟩, fun id hid => ?_⟩
  · simp only [ht, hk, hsrc, hview]
  · obtain ⟨k, hk⟩ := Option.ne_none_iff_exists'.mp (hh.refs id hid)
    rw [hmap id k hk]
    simp

@[simp] theorem Ctx.push_map_self (ctx : Ctx) (id : UInt64) (t : ServerTensor) :
    (ctx.push id t).map id = some ctx.tensors.length := update_self ..

theorem Ctx.push_map_of_ne (ctx : Ctx) (t : ServerTensor) (h : id' ≠ id) :
    (ctx.push id t).map id' = ctx.map id' := update_of_ne h ..

/-- Registering a new id makes it pending. -/
theorem Ctx.Built.push {ctx : Ctx} {pending : List UInt64} (hb : ctx.Built T buffers ptrs pending)
    {id : UInt64} (hid : ctx.map id = none) (t : ServerTensor) :
    (ctx.push id t).Built T buffers ptrs (id :: pending) ∧ ctx.Extends (ctx.push id t) := by
  have hext : ctx.Extends (ctx.push id t) := by
    refine ⟨fun id' h hm => ?_, fun h hlt => getElem?_append_left hlt⟩
    have hne : id' ≠ id := by
      rintro rfl
      rw [hid] at hm
      cases hm
    rw [ctx.push_map_of_ne t hne, hm]
  have hcases : ∀ id' h, (ctx.push id t).map id' = some h →
      (id' = id ∧ h = ctx.tensors.length) ∨ (id' ≠ id ∧ ctx.map id' = some h) := by
    intro id' h hm
    by_cases he : id' = id
    · subst he
      rw [Ctx.push_map_self] at hm
      exact .inl ⟨rfl, (Option.some.inj hm).symm⟩
    · rw [ctx.push_map_of_ne t he] at hm
      exact .inr ⟨he, hm⟩
  refine ⟨⟨fun id' h hm => ?_, fun id₁ id₂ h h₁ h₂ => ?_, fun id' h hm hp => ?_⟩, hext⟩
  · have hlen : (ctx.push id t).tensors.length = ctx.tensors.length + 1 := length_append
    rcases hcases id' h hm with ⟨-, rfl⟩ | ⟨-, hm⟩
    · omega
    · have := hb.lt id' h hm
      omega
  · rcases hcases id₁ h h₁ with ⟨e₁, k₁⟩ | ⟨-, m₁⟩ <;>
      rcases hcases id₂ h h₂ with ⟨e₂, k₂⟩ | ⟨-, m₂⟩
    · rw [e₁, e₂]
    · exact absurd (hb.lt id₂ h m₂) (by omega)
    · exact absurd (hb.lt id₁ h m₁) (by omega)
    · exact hb.inj id₁ id₂ h m₁ m₂
  · rcases hcases id' h hm with ⟨rfl, -⟩ | ⟨-, hm⟩
    · exact absurd mem_cons_self hp
    · obtain ⟨r, hr, hh⟩ := hb.holds id' h hm fun hin => hp (mem_cons_of_mem _ hin)
      exact ⟨r, hr, hh.mono hext.map (hext.tensors h (hb.lt id' h hm))⟩

theorem Ctx.Built.modify (hb : ctx.Built T buffers ptrs pending) (hid : ctx.map id = some h)
    (hp : id ∈ pending) (g : ServerTensor → ServerTensor) :
    Ctx.Built T buffers ptrs pending { ctx with tensors := ctx.tensors.modify h g } := by
  refine ⟨fun id' k hm => ?_, hb.inj, fun id' k hm hp' => ?_⟩
  · simpa using hb.lt id' k hm
  · obtain ⟨r, hr, hh⟩ := hb.holds id' k hm hp'
    refine ⟨r, hr, hh.mono (fun _ _ h => h) ?_⟩
    have hne : h ≠ k := by
      rintro rfl
      exact hp' (hb.inj id' id _ hm hid ▸ hp)
    exact getElem?_modify_ne g ctx.tensors hne

/-- What creating the tensor of `id` gives. -/
structure Ctx.Creates (T : Gguf.Traits) (buffers : Buffers) (ptrs : Ptrs) (pending : List UInt64)
    (ctx : Ctx) (id : UInt64) (h : Nat) (ctx' : Ctx) : Prop where
  map : ctx'.map id = some h
  ext : ctx.Extends ctx'
  built : ctx'.Built T buffers ptrs pending

/-- State of the loop over the sources of `id` in a context that was `ctx₀` before. -/
structure Ctx.Filling (T : Gguf.Traits) (buffers : Buffers) (ptrs : Ptrs) (pending : List UInt64)
    (ctx₀ : Ctx) (id : UInt64) (t : ServerTensor) (ctx : Ctx) : Prop where
  map : ctx.map id = some ctx₀.tensors.length
  tensor : ctx.tensors[ctx₀.tensors.length]? = some t
  ext : ctx₀.Extends ctx
  built : ctx.Built T buffers ptrs (id :: pending)

/-- Changing the tensor that is being filled. -/
theorem Ctx.Filling.modify {ctx₀ ctx : Ctx} {pending : List UInt64} {id : UInt64} {t : ServerTensor}
    (hf : Ctx.Filling T buffers ptrs pending ctx₀ id t ctx) (g : ServerTensor → ServerTensor) :
    Ctx.Filling T buffers ptrs pending ctx₀ id (g t)
      { ctx with tensors := ctx.tensors.modify ctx₀.tensors.length g } := by
  refine ⟨hf.map, ?_, ⟨hf.ext.map, fun h hlt => ?_⟩, hf.built.modify hf.map mem_cons_self g⟩
  · simp [hf.tensor]
  · rw [← hf.ext.tensors h hlt]
    exact getElem?_modify_ne g ctx.tensors hlt.ne'

/-- Creating another tensor while this one is being filled. -/
theorem Ctx.Filling.create {k : Nat} (hf : Ctx.Filling T buffers ptrs pending ctx₀ id t ctx)
    (hc : ctx.Creates T buffers ptrs (id :: pending) id' k ctx') :
    Ctx.Filling T buffers ptrs pending ctx₀ id t ctx' := by
  refine ⟨hc.ext.map _ _ hf.map, ?_, hf.ext.trans hc.ext, hc.built⟩
  rw [hc.ext.tensors _ (hf.built.lt _ _ hf.map), hf.tensor]

/-- A filled tensor is no longer pending. -/
theorem Ctx.Filling.finish (hf : Ctx.Filling T buffers ptrs pending ctx₀ id t ctx)
    (hr : ptrs id = some r) (hh : ctx.Holds T buffers r ctx₀.tensors.length) :
    ctx₀.Creates T buffers ptrs pending id ctx₀.tensors.length ctx := by
  refine ⟨hf.map, hf.ext, hf.built.lt, hf.built.inj, fun id' h hm hp => ?_⟩
  by_cases he : id' = id
  · subst he
    obtain rfl := Option.some.inj (hm.symm.trans hf.map)
    exact ⟨r, hr, hh⟩
  · exact hf.built.holds id' h hm fun hin => (mem_cons.mp hin).elim he hp

/-- What creating does to every id of `S`, with depth left. -/
def CreatesAll (T : Gguf.Traits) (buffers : Buffers) (ptrs : Ptrs) (S : Finset UInt64)
    (create : UInt64 → Ctx → Except Stop (Option Nat × Ctx)) (fuel : Nat) : Prop :=
  ∀ (pending : List UInt64) (id : UInt64) (ctx : Ctx), id ∈ S →
    ctx.Built T buffers ptrs pending → (ctx.unmapped S).card < fuel →
    ∃ h ctx', create id ctx = .ok (some h, ctx') ∧ ctx.Creates T buffers ptrs pending id h ctx'

variable {S : Finset UInt64}

theorem Ctx.unmapped_mono (h : ∀ id k, ctx.map id = some k → ctx'.map id = some k) :
    ctx'.unmapped S ⊆ ctx.unmapped S := by
  intro id hid
  obtain ⟨h1, h2⟩ := Finset.mem_filter.mp hid
  refine Finset.mem_filter.mpr ⟨h1, ?_⟩
  by_contra hne
  obtain ⟨k, hk⟩ := Option.ne_none_iff_exists'.mp hne
  rw [h id k hk] at h2
  cases h2

/-- The loop over the sources: afterwards every source in the list is the tensor of its id. -/
theorem createSrcs_fills {create : UInt64 → Ctx → Except Stop (Option Nat × Ctx)} {fuel : Nat}
    (hcreate : CreatesAll T buffers ptrs S create fuel) {r : RpcTensor}
    (hS : ∀ id, r.Refers id → id ∈ S) {ctx₀ : Ctx} {pending : List UInt64} {id : UInt64} :
    ∀ (is : List (Fin maxSrc)) (t : ServerTensor) (ctx : Ctx),
      Ctx.Filling T buffers ptrs pending ctx₀ id t ctx → (ctx.unmapped S).card < fuel →
      ∃ ctx', createSrcs create r ctx₀.tensors.length is ctx = .ok (true, ctx') ∧
        Ctx.Filling T buffers ptrs pending ctx₀ id
          { t with src := fun i => if i ∈ is then ctx'.ref (r.src i) else t.src i } ctx' ∧
        (∀ id k, ctx.map id = some k → ctx'.map id = some k) ∧
        ∀ i ∈ is, r.src i = 0 ∨ ctx'.map (r.src i) ≠ none
  | [], t, ctx, hf, _ => by
    refine ⟨ctx, rfl, ?_, fun _ _ h => h, fun i hi => absurd hi not_mem_nil⟩
    simpa using hf
  | i :: is, t, ctx, hf, hcard => by
    -- what the rest of the loop gives once `v` is the tensor of the source
    have hrest : ∀ (v : Option Nat) (ctx₁ : Ctx),
      Ctx.Filling T buffers ptrs pending ctx₀ id t ctx₁ →
        (∀ id k, ctx.map id = some k → ctx₁.map id = some k) → v = ctx₁.ref (r.src i) →
        (r.src i = 0 ∨ ctx₁.map (r.src i) ≠ none) →
        ∃ ctx', createSrcs create r ctx₀.tensors.length is (ctx₁.setSrc ctx₀.tensors.length i v) =
            .ok (true, ctx') ∧
          Ctx.Filling T buffers ptrs pending ctx₀ id
            { t with src := fun j => if j ∈ i :: is then ctx'.ref (r.src j) else t.src j } ctx' ∧
          (∀ id k, ctx.map id = some k → ctx'.map id = some k) ∧
          ∀ j ∈ i :: is, r.src j = 0 ∨ ctx'.map (r.src j) ≠ none := by
      intro v ctx₁ hf₁ hmap hv hsome
      obtain ⟨ctx', hrun, hf', hmap', hall⟩ := createSrcs_fills hcreate hS is _ _
        (hf₁.modify fun t => { t with src := update t.src i v })
        ((Finset.card_le_card (Ctx.unmapped_mono hmap)).trans_lt hcard)
      have href : ctx'.ref (r.src i) = v := (@ref_eq_of_map ctx₁ ctx' _ hmap' hsome).trans hv.symm
      refine ⟨ctx', hrun, ?_, fun id k h => hmap' id k (hmap id k h), fun j hj => ?_⟩
      · have hsrc : (fun j => if j ∈ is then ctx'.ref (r.src j) else update t.src i v j) =
            fun j => if j ∈ i :: is then ctx'.ref (r.src j) else t.src j := by
          funext j
          by_cases hj : j = i
          · subst hj
            simp [href]
          · simp [hj]
        rwa [hsrc] at hf'
      · rcases mem_cons.mp hj with rfl | hj
        · refine hsome.imp_right fun hne h0 => hne ?_
          by_contra hne'
          obtain ⟨k, hk⟩ := Option.ne_none_iff_exists'.mp hne'
          rw [hmap' _ k hk] at h0
          cases h0
        · exact hall j hj
    rw [createSrcs]
    by_cases h0 : r.src i = 0
    · rw [if_pos h0]
      exact hrest none ctx hf (fun _ _ h => h) (by simp [Ctx.ref, h0]) (.inl h0)
    · rw [if_neg h0]
      obtain ⟨k, ctx₁, hc, hcr⟩ := hcreate (id :: pending) (r.src i) ctx (hS _ ⟨h0, .inl ⟨i, rfl⟩⟩)
        hf.built hcard
      simp only [hc]
      exact hrest (some k) ctx₁ (hf.create hcr) hcr.ext.map (by simp [Ctx.ref, h0, hcr.map])
        (.inr (by simp [hcr.map]))

/-- `create_node` creates the tensors of a closed set. -/
theorem createNode_creates (hS : ptrs.Closed T buffers S) :
    ∀ fuel, CreatesAll T buffers ptrs S (createNode T buffers ptrs fuel) fuel
  | 0, _, _, _, _, _, hcard => absurd hcard (Nat.not_lt_zero _)
  | fuel + 1, pending, id, ctx, hid, hb, hcard => by
    rw [createNode]
    cases hmap : ctx.map id with
    | some h => exact ⟨h, ctx, rfl, hmap, Ctx.Extends.refl ctx, hb⟩
    | none =>
      obtain ⟨r, known, hr, ht⟩ := hS.creates id hid
      have hrefs := hS.refs id hid r hr
      obtain ⟨hb₁, hext₁⟩ := hb.push hmap (r.bare known)
      have hcard₁ := Ctx.card_unmapped_push (r.bare known) hid hmap
      have hf₁ : Ctx.Filling T buffers ptrs pending ctx id (r.bare known)
          (ctx.push id (r.bare known)) :=
        ⟨ctx.push_map_self id _, by simp [Ctx.push], hext₁, hb₁⟩
      obtain ⟨ctx₂, hsrcs, hf₂, hmap₂, hall₂⟩ := createSrcs_fills (createNode_creates hS fuel) hrefs
        (finRange maxSrc) _ _ hf₁ (by omega)
      have hcard₂ := Finset.card_le_card (Ctx.unmapped_mono (S := S) hmap₂)
      simp only [hr, ht, hsrcs]
      have hsrc₂ : ∀ i, r.src i = 0 ∨ ctx₂.map (r.src i) ≠ none := fun i =>
        hall₂ i (mem_finRange i)
      simp only [mem_finRange, if_true] at hf₂
      -- what is left once `v` is the tensor of the source of the view
      have hend : ∀ (v : Option Nat) (ctx₃ : Ctx), Ctx.Filling T buffers ptrs pending ctx id
          { r.bare known with src := fun i => ctx₂.ref (r.src i) } ctx₃ →
          (∀ id k, ctx₂.map id = some k → ctx₃.map id = some k) → v = ctx₃.ref r.viewSrc →
          (r.viewSrc = 0 ∨ ctx₃.map r.viewSrc ≠ none) →
          ctx.Creates T buffers ptrs pending id ctx.tensors.length
            (ctx₃.setView ctx.tensors.length v r.viewOffs) := by
        intro v ctx₃ hf₃ hmap₃ hv hview
        have hf₄ := hf₃.modify fun t => { t with viewSrc := v, viewOffs := r.viewOffs }
        refine hf₄.finish hr ⟨⟨known, ht, ?_⟩, ?_⟩
        · have hsrc : ∀ i, ctx₃.ref (r.src i) = ctx₂.ref (r.src i) := fun i =>
            ref_eq_of_map hmap₃ (hsrc₂ i)
          have htensor := hf₄.tensor
          simp only [← hsrc, hv] at htensor ⊢
          exact htensor
        · rintro id' ⟨hne, ⟨i, rfl⟩ | rfl⟩
          · obtain ⟨k, hk⟩ := Option.ne_none_iff_exists'.mp ((hsrc₂ i).resolve_left hne)
            exact fun h0 => by cases (hmap₃ _ k hk).symm.trans h0
          · exact hview.resolve_left hne
      by_cases h0 : r.viewSrc = 0
      · rw [if_pos h0]
        exact ⟨_, _, rfl, hend none ctx₂ hf₂ (fun _ _ h => h) (by simp [Ctx.ref, h0]) (.inl h0)⟩
      · rw [if_neg h0]
        obtain ⟨k, ctx₃, hc, hcr⟩ := createNode_creates hS fuel (id :: pending) r.viewSrc ctx₂
          (hrefs _ ⟨h0, .inr rfl⟩) hf₂.built (by omega)
        simp only [hc]
        exact ⟨_, _, rfl, hend (some k) ctx₃ (hf₂.create hcr) hcr.ext.map
          (by simp [Ctx.ref, h0, hcr.map]) (.inr (by simp [hcr.map]))⟩

theorem createNodes_creates {create : UInt64 → Ctx → Except Stop (Option Nat × Ctx)} {fuel : Nat}
    (hcreate : CreatesAll T buffers ptrs S create fuel) : ∀ (ids : List UInt64)
    (nodes : List (Option Nat)) (ctx : Ctx), (∀ id ∈ ids, id ∈ S) → ctx.Built T buffers ptrs [] →
      (ctx.unmapped S).card < fuel →
      ∃ ctx' : Ctx, createNodes create ids nodes ctx =
          .ok { tensors := ctx'.tensors, nodes := nodes ++ ids.map ctx'.map } ∧
        ctx'.Built T buffers ptrs [] ∧ (∀ id k, ctx.map id = some k → ctx'.map id = some k) ∧
        ∀ id ∈ ids, ctx'.map id ≠ none
  | [], nodes, ctx, _, hb, _ =>
    ⟨ctx, by simp [createNodes], hb, fun _ _ h => h, fun _ h => absurd h not_mem_nil⟩
  | id :: ids, nodes, ctx, hids, hb, hcard => by
    obtain ⟨h, ctx₁, hc, hcr⟩ := hcreate [] id ctx (hids id mem_cons_self) hb hcard
    obtain ⟨ctx', hrun, hb', hmap, hall⟩ := createNodes_creates hcreate ids (nodes ++ [some h]) ctx₁
      (fun i hi => hids i (mem_cons_of_mem id hi)) hcr.built
      ((Finset.card_le_card (Ctx.unmapped_mono hcr.ext.map)).trans_lt hcard)
    have hid := hmap id h hcr.map
    refine ⟨ctx', ?_, hb', fun id k hk => hmap id k (hcr.ext.map id k hk), fun i hi => ?_⟩
    · simp [createNodes, hc, hrun, hid]
    · rcases mem_cons.mp hi with rfl | hi
      · simp [hid]
      · exact hall i hi

/-- The tensors that a tensor refers to. -/
def Client.refs (c : Client) (p : UInt64) : List UInt64 := (c.tensor p).refs.filter (· ≠ 0)

/-- The tensors of a graph. -/
def Client.Reaches (c : Client) (nodes : List UInt64) (p : UInt64) : Prop :=
  Dfs.Reach c.refs nodes p

/-- Pointers of the graph lead to tensors. -/
structure Client.WellFormed (c : Client) (nodes : List UInt64) : Prop where
  null : 0 ∉ c.addrs
  nodes : ∀ p ∈ nodes, p ∈ c.addrs
  refs : ∀ p ∈ c.addrs, ∀ q ∈ (c.tensor p).refs, q = 0 ∨ q ∈ c.addrs

/-- The walk of `add_tensor` is a depth-first walk. -/
theorem addTensor_eq_visit (c : Client) : ∀ (fuel : Nat) (p : UInt64) (w : Dfs.Walk UInt64), p ≠ 0 →
    c.addTensor fuel p ⟨w.out.map c.serializeTensor, w.seen⟩ =
      ⟨(Dfs.visit c.refs fuel p w).out.map c.serializeTensor, (Dfs.visit c.refs fuel p w).seen⟩
  | 0, _, _, _ => rfl
  | fuel + 1, p, w, hp => by
    have hfold : ∀ (l : List UInt64) (w : Dfs.Walk UInt64),
        l.foldl (fun w q => c.addTensor fuel q w) ⟨w.out.map c.serializeTensor, w.seen⟩ =
          ⟨((l.filter (· ≠ 0)).foldl (fun w q => Dfs.visit c.refs fuel q w) w).out.map
              c.serializeTensor,
            ((l.filter (· ≠ 0)).foldl (fun w q => Dfs.visit c.refs fuel q w) w).seen⟩ := by
      intro l
      induction l with
      | nil => exact fun w => rfl
      | cons q l ih =>
        intro w
        by_cases hq : q = 0
        · simp [hq, ih]
        · rw [foldl_cons, addTensor_eq_visit c fuel q w hq, ih]
          simp [hq]
    rw [Client.addTensor, Dfs.visit, if_neg hp]
    by_cases hseen : p ∈ w.seen
    · rw [if_pos hseen, if_pos hseen]
    · rw [if_neg hseen, if_neg hseen]
      have hw := hfold (c.tensor p).refs { w with seen := p :: w.seen }
      simp only [hw, map_append, map_cons, map_nil]
      rfl

theorem Client.WellFormed.ne_zero (hc : c.WellFormed nodes) : ∀ p ∈ nodes, p ≠ 0 := by
  rintro p hp rfl
  exact hc.null (hc.nodes 0 hp)

theorem Client.WellFormed.refs_closed (hc : c.WellFormed nodes) :
    ∀ p ∈ c.addrs, ∀ q ∈ c.refs p, q ∈ c.addrs := by
  intro p hp q hq
  obtain ⟨hq, hq0⟩ := mem_filter.mp hq
  exact (hc.refs p hp q hq).resolve_left (by simpa using hq0)

/-- The tensors of a graph have addresses, also in another memory that agrees on what they refer
to. -/
theorem Client.WellFormed.mem_addrs {c' : Client} (hc : c.WellFormed nodes)
    (hrefs : ∀ p, c'.Reaches nodes p → c.refs p = c'.refs p) (hp : c'.Reaches nodes p) :
    p ∈ c.addrs := by
  obtain ⟨n, hn, hp⟩ := hp
  induction hp with
  | refl => exact hc.nodes n hn
  | @tail p q hp hq ih =>
    rw [← hrefs p ⟨n, hn, hp⟩] at hq
    exact hc.refs_closed p ih q hq

/-- The tensors of a message come from a walk. -/
theorem collect_eq_walk (hne : ∀ p ∈ nodes, p ≠ 0) :
    c.collect nodes = (Dfs.walk c.refs (c.addrs.card + 1) nodes).out.map c.serializeTensor := by
  have hfold : ∀ (l : List UInt64) (w : Dfs.Walk UInt64), (∀ p ∈ l, p ≠ 0) →
      l.foldl (fun w p => c.addTensor (c.addrs.card + 1) p w)
        ⟨w.out.map c.serializeTensor, w.seen⟩ =
        ⟨(l.foldl (fun w p => Dfs.visit c.refs (c.addrs.card + 1) p w) w).out.map c.serializeTensor,
          (l.foldl (fun w p => Dfs.visit c.refs (c.addrs.card + 1) p w) w).seen⟩ := by
    intro l
    induction l with
    | nil => exact fun w _ => rfl
    | cons p l ih =>
      intro w hl
      rw [foldl_cons, addTensor_eq_visit c _ p w (hl p mem_cons_self),
        ih _ fun q hq => hl q (mem_cons_of_mem p hq)]
      rfl
  exact congrArg Collected.tensors (hfold nodes ⟨[], []⟩ hne)

/-- The tensors of a message are those of the graph, each once. -/
theorem collect_eq (hc : c.WellFormed nodes) :
    ∃ ps : List UInt64, c.collect nodes = ps.map c.serializeTensor ∧ ps.Nodup ∧
      ∀ p, p ∈ ps ↔ c.Reaches nodes p := by
  obtain ⟨hnodup, hmem⟩ := Dfs.walk_spec hc.refs_closed hc.nodes (Nat.lt_succ_self c.addrs.card)
  exact ⟨_, collect_eq_walk hc.ne_zero, hnodup, hmem⟩

/-- The message has the tensors of the graph under their addresses. -/
theorem ptrs_collect (hc : c.WellFormed nodes) (hp : c.Reaches nodes p) (device : UInt32) :
    GraphMessage.ptrs { device := device, nodes := nodes, tensors := c.collect nodes } p =
      some (c.serializeTensor p) := by
  obtain ⟨ps, hps, -, hmem⟩ := collect_eq hc
  simp only [GraphMessage.ptrs, hps, find?_map]
  have hfind : ps.find? ((fun r : RpcTensor => r.id == p) ∘ c.serializeTensor) = some p := by
    have hsome : (ps.find? ((fun r : RpcTensor => r.id == p) ∘ c.serializeTensor)).isSome := by
      rw [find?_isSome]
      exact ⟨p, (hmem p).mpr hp, by simp [Client.serializeTensor]⟩
    obtain ⟨q, hq⟩ := Option.isSome_iff_exists.mp hsome
    have hqp : q = p := by simpa [Client.serializeTensor] using find?_some hq
    rw [hq, hqp]
  rw [hfind, Option.map_some]

/-- The references that are sent are those of the tensor. -/
theorem Client.refers_iff_mem_refs : (c.serializeTensor p).Refers q ↔ q ∈ c.refs p := by
  simp only [RpcTensor.Refers, Client.serializeTensor, Client.refs, Tensor.refs, mem_filter,
    mem_append, mem_ofFn, mem_singleton, decide_eq_true_eq]
  constructor
  · rintro ⟨hne, hi | hv⟩
    · exact ⟨.inl hi, hne⟩
    · exact ⟨.inr hv.symm, hne⟩
  · rintro ⟨hi | hv, hne⟩
    · exact ⟨hne, .inl hi⟩
    · exact ⟨hne, .inr hv.symm⟩

/-- A short name is kept by copies into zeroed arrays. -/
theorem cString_nameOf {s : List UInt8} (h0 : ∀ c ∈ s, c ≠ 0) (hlen : s.length < maxName) :
    cString (nameOf s) = s := by
  have hofn : List.ofFn (nameOf s) = s ++ replicate (maxName - s.length) 0 := by
    apply ext_getElem
    · rw [length_ofFn, length_append, length_replicate]
      omega
    · intro i h1 h2
      have htake : s.take (maxName - 1) = s := take_of_length_le (by omega)
      rw [List.getElem_ofFn, nameOf, htake, getD_eq_getElem?_getD]
      by_cases hi : i < s.length
      · rw [getElem_append_left hi, getElem?_eq_getElem hi, Option.getD_some]
      · rw [getElem_append_right (Nat.le_of_not_lt hi), getElem_replicate,
          getElem?_eq_none (Nat.le_of_not_lt hi), Option.getD_none]
  obtain ⟨k, hk⟩ := Nat.exists_eq_add_of_lt hlen
  have hrep : maxName - s.length = k + 1 := by omega
  rw [cString, hofn, hrep, replicate_succ, takeWhile_append_of_pos (by simpa using h0)]
  simp

theorem ne_zero_of_mem_cString {name : Fin maxName → UInt8} : ∀ c ∈ cString name, c ≠ 0 := by
  intro c hc
  simpa using mem_takeWhile_imp hc

/-- The size depends on type, shape and strides. -/
theorem nbytes_congr {R R' : Type} {t : Tensor R} {t' : Tensor R'} (htype : t'.type = t.type)
    (hne : t'.ne = t.ne) (hnb : t'.nb = t.nb) : t'.nbytes T = t.nbytes T := by
  simp only [Tensor.nbytes, htype, hne, hnb]

/-- A tensor whose contents fit into a message, inside its buffer of the server if it has one. -/
structure Client.Sendable (T : Gguf.Traits) (buffers : Buffers) (c : Client) (p : UInt64) :
    Prop where
  /-- The type exists. -/
  type : (c.tensor p).type.toNat < T.count ∧ T.blckSize (c.tensor p).type.toNat ≠ 0
  /-- Dimensions fit. -/
  ne : ∀ i, 0 ≤ (c.tensor p).ne i ∧ (c.tensor p).ne i < 2 ^ 32
  /-- Strides fit. -/
  nb : ∀ i, (c.tensor p).nb i < 2 ^ 32
  /-- The name is short. -/
  name : (cString (c.tensor p).name).length < maxName
  /-- The data is inside the buffer. -/
  placed : ∀ e, (c.serializeTensor p).extent buffers = some e →
    e.base.toNat + e.size.toNat < 2 ^ 64 ∧ e.base.toNat ≤ (c.tensor p).data.toNat ∧
      (c.tensor p).data.toNat + ((c.tensor p).nbytes T).toNat ≤ e.base.toNat + e.size.toNat

variable {c : Client} {p : UInt64}

theorem Client.Sendable.bare_ne (h : c.Sendable T buffers p) (known : Bool) :
    ((c.serializeTensor p).bare known).ne = (c.tensor p).ne := by
  funext i
  obtain ⟨h0, hlt⟩ := h.ne i
  have hmod : (c.tensor p).ne i % 2 ^ 32 = (c.tensor p).ne i := Int.emod_eq_of_lt h0 hlt
  simp only [RpcTensor.bare, Client.serializeTensor, hmod]
  have hback : (UInt32.ofNat ((c.tensor p).ne i).toNat).toNat = ((c.tensor p).ne i).toNat :=
    UInt32.toNat_ofNat_of_lt ((Int.toNat_lt h0).mpr hlt)
  rw [hback, Int.toNat_of_nonneg h0]

theorem Client.Sendable.bare_nb (h : c.Sendable T buffers p) (known : Bool) :
    ((c.serializeTensor p).bare known).nb = (c.tensor p).nb := by
  funext i
  exact UInt32.toNat_ofNat_of_lt (h.nb i)

theorem Client.Sendable.bare_name (h : c.Sendable T buffers p) (known : Bool) :
    cString ((c.serializeTensor p).bare known).name = cString (c.tensor p).name := by
  have hname := cString_nameOf ne_zero_of_mem_cString h.name
  simp only [RpcTensor.bare, Client.serializeTensor, hname]

theorem Client.Sendable.deserializes (h : c.Sendable T buffers p) :
    ∃ known, deserializeTensor T buffers (c.serializeTensor p) =
      .ok (some ((c.serializeTensor p).bare known)) := by
  have htype : ¬ T.count ≤ (c.serializeTensor p).type.toNat := Nat.not_le.mpr h.type.1
  have hblck : ¬ T.blckSize (c.serializeTensor p).type.toNat = 0 := h.type.2
  simp only [deserializeTensor, if_neg htype, if_neg hblck]
  cases he : (c.serializeTensor p).extent buffers with
  | none => exact ⟨false, rfl⟩
  | some e =>
    obtain ⟨hend, hbase, hsize⟩ := h.placed e he
    have hbytes : ((c.serializeTensor p).bare true).nbytes T = (c.tensor p).nbytes T :=
      nbytes_congr rfl (h.bare_ne true) (h.bare_nb true)
    have hdata : (c.serializeTensor p).data = (c.tensor p).data := rfl
    refine ⟨true, if_pos ?_⟩
    rw [hbytes, hdata]
    simp only [UInt64.le_iff_toNat_le, UInt64.toNat_add]
    omega

/-- A copy of a tensor of the client in a graph of the server, in which the tensor of the address
`p` has the place `place p`. -/
structure Tensor.Copies (place : UInt64 → Nat) (t : Tensor UInt64) (t' : ServerTensor) : Prop where
  type : t'.type = t.type
  ne : t'.ne = t.ne
  nb : t'.nb = t.nb
  op : t'.op = t.op
  opParams : t'.opParams = t.opParams
  flags : t'.flags = t.flags
  name : cString t'.name = cString t.name
  viewOffs : t'.viewOffs = t.viewOffs
  data : t'.data = t.data
  src : ∀ i, t'.src i = if t.src i = 0 then none else some (place (t.src i))
  viewSrc : t'.viewSrc = if t.viewSrc = 0 then none else some (place t.viewSrc)

theorem length_flatMap_const {α : Type} {f : α → List UInt8} {n : Nat} (hf : ∀ a, (f a).length = n)
    (l : List α) : (l.flatMap f).length = l.length * n :=
  Bytes.length_flatMap_block l fun a _ => hf a

theorem length_word32 (x : UInt32) : (word32 x).length = 4 := Bytes.leBytes_length 4 x.toNat

theorem length_word64 (x : UInt64) : (word64 x).length = 8 := Bytes.leBytes_length 8 x.toNat

theorem length_bytes (r : RpcTensor) : r.bytes.length = 296 := by
  simp only [RpcTensor.bytes, length_append, length_word32, length_word64, length_ofFn,
    length_flatMap_const length_word32, length_flatMap_const length_word64, length_replicate]
  rfl

theorem length_serializeGraph (c : Client) (device : UInt32) (nodes : List UInt64) :
    (c.serializeGraph device nodes).length =
      12 + nodes.length * 8 + (c.collect nodes).length * 296 := by
  simp only [Client.serializeGraph, length_append, length_word32,
    length_flatMap_const length_word64, length_flatMap_const length_bytes]
  omega

/-- Every reference of a built context that is null or exists has a place. -/
theorem Ctx.ref_eq_place (h : id = 0 ∨ ctx.map id ≠ none) :
    ctx.ref id = if id = 0 then none else some ((ctx.map id).getD 0) := by
  unfold Ctx.ref
  split
  · rfl
  · rename_i hne
    obtain ⟨k, hk⟩ := Option.ne_none_iff_exists'.mp (h.resolve_left hne)
    rw [hk, Option.getD_some]

/-- A finished tensor of a message copies the tensor that was sent. -/
theorem Client.Sendable.copies (hs : c.Sendable T buffers p)
    (hh : ctx.Holds T buffers (c.serializeTensor p) h) :
    ∃ t, ctx.tensors[h]? = some t ∧
      Tensor.Copies (fun q => (ctx.map q).getD 0) (c.tensor p) t := by
  obtain ⟨known, -, ht⟩ := hh.tensor
  have hne := hs.bare_ne known
  have hnb := hs.bare_nb known
  have hname := hs.bare_name known
  -- the deserialized tensor stays folded while its fields are compared
  generalize hbare : (c.serializeTensor p).bare known = t at ht hne hnb hname
  refine ⟨_, ht, ?_, hne, hnb, ?_, ?_, ?_, hname, rfl, ?_, fun i => ?_, ?_⟩ <;> subst hbare
  · rfl
  · rfl
  · rfl
  · rfl
  · rfl
  · exact Ctx.ref_eq_place (((c.serializeTensor p).src_null_or_refers i).imp_right (hh.refs _))
  · exact Ctx.ref_eq_place ((c.serializeTensor p).viewSrc_null_or_refers.imp_right (hh.refs _))

/-- What `graph_compute` builds from the message of a client: the tensors of the graph are finished
in a context, each id with its own. -/
theorem graphCompute_builds {s : Server} {device : UInt32} (hc : c.WellFormed nodes)
    (hdev : device.toNat < s.nBackends) (hlen : (c.serializeGraph device nodes).length < 2 ^ 31)
    (hsend : ∀ p, c.Reaches nodes p → c.Sendable T s.buffers p) :
    ∃ ctx : Ctx, s.graphCompute T (c.serializeGraph device nodes) =
        .ok { server :=
                { s with stored := update s.stored device.toNat
                          (some { tensors := ctx.tensors, nodes := nodes.map ctx.map }) }
              ranges := []
              graph := some { tensors := ctx.tensors, nodes := nodes.map ctx.map } } ∧
      (∀ id id' h, ctx.map id = some h → ctx.map id' = some h → id = id') ∧
      ∀ p, c.Reaches nodes p →
        ∃ h, ctx.map p = some h ∧ ctx.Holds T s.buffers (c.serializeTensor p) h := by
  rw [length_serializeGraph] at hlen
  have hread : Reader.graphMessage (c.serializeGraph device nodes) = some (_, []) :=
    reads_graph c device nodes (by omega) (by omega)
  obtain ⟨ps, hps, hnodup, hmem⟩ := collect_eq hc
  have hptrs : ∀ p, c.Reaches nodes p → _ := fun p hp => ptrs_collect hc hp device
  have hclosed : Ptrs.Closed T s.buffers
      (GraphMessage.ptrs { device := device, nodes := nodes, tensors := c.collect nodes })
      ps.toFinset := by
    refine ⟨fun p hp => ?_, fun p hp r hr q hq => ?_⟩ <;> rw [mem_toFinset, hmem] at hp
    · obtain ⟨known, hk⟩ := (hsend p hp).deserializes
      exact ⟨_, known, hptrs p hp, hk⟩
    · obtain rfl := Option.some.inj ((hptrs p hp).symm.trans hr)
      rw [mem_toFinset, hmem]
      exact Dfs.Reach.step hp (Client.refers_iff_mem_refs.mp hq)
  have hcard : ∀ ctx : Ctx, (ctx.unmapped ps.toFinset).card < (c.collect nodes).length + 1 := by
    intro ctx
    have h1 := Finset.card_le_card (Finset.filter_subset (ctx.map · = none) ps.toFinset)
    have h2 := toFinset_card_le ps
    rw [hps, length_map]
    exact Nat.lt_succ_of_le (h1.trans h2)
  obtain ⟨ctx, hrun, hb, -, hall⟩ := createNodes_creates (createNode_creates hclosed _) nodes []
    { tensors := [], map := fun _ => none }
    (fun p hp => by
      rw [mem_toFinset, hmem]
      exact ⟨p, hp, .refl⟩)
    ⟨fun _ _ h => (by cases h), fun _ _ _ h => (by cases h), fun _ _ h => (by cases h)⟩ (hcard _)
  have hholds : ∀ p h, c.Reaches nodes p → ctx.map p = some h →
      ctx.Holds T s.buffers (c.serializeTensor p) h := by
    intro p h hp hh
    obtain ⟨r, hr, hholds⟩ := hb.holds p h hh not_mem_nil
    obtain rfl := Option.some.inj ((hptrs p hp).symm.trans hr)
    exact hholds
  refine ⟨ctx, ?_, hb.inj, ?_⟩
  · simp only [Server.graphCompute, hread, if_neg (Nat.not_le.mpr hdev), buildGraph, hrun]
    rfl
  -- a finished tensor has its references, so every tensor of the graph was created
  · rintro p ⟨n, hnode, hp⟩
    induction hp with
    | refl =>
      obtain ⟨h, hh⟩ := Option.ne_none_iff_exists'.mp (hall n hnode)
      exact ⟨h, hh, hholds n h ⟨n, hnode, .refl⟩ hh⟩
    | @tail p q hp hq ih =>
      obtain ⟨h, -, hprev⟩ := ih
      obtain ⟨k, hk⟩ := Option.ne_none_iff_exists'.mp
        (hprev.refs q (Client.refers_iff_mem_refs.mpr hq))
      exact ⟨k, hk, hholds q k ⟨n, hnode, hp.tail hq⟩ hk⟩

/-- Every graph of the client is rebuilt by the server: the nodes are in the same order, every
tensor of the graph has a copy, and different tensors have different copies. -/
theorem graph_round_trip (T : Gguf.Traits) {s : Server} {c : Client} {device : UInt32}
    {nodes : List UInt64} (hc : c.WellFormed nodes) (hdev : device.toNat < s.nBackends)
    (hlen : (c.serializeGraph device nodes).length < 2 ^ 31)
    (hsend : ∀ p, c.Reaches nodes p → c.Sendable T s.buffers p) :
    ∃ e g place, s.graphCompute T (c.serializeGraph device nodes) = .ok e ∧ e.graph = some g ∧
      e.server.stored device.toNat = some g ∧ g.nodes = nodes.map (fun p => some (place p)) ∧
      (∀ p q, c.Reaches nodes p → c.Reaches nodes q → (place p = place q ↔ p = q)) ∧
      ∀ p, c.Reaches nodes p →
        ∃ t, g.tensors[place p]? = some t ∧ Tensor.Copies place (c.tensor p) t := by
  obtain ⟨ctx, hrun, hinj, hall⟩ := graphCompute_builds hc hdev hlen hsend
  have hplace : ∀ p, c.Reaches nodes p → ctx.map p = some ((ctx.map p).getD 0) := by
    intro p hp
    obtain ⟨h, hh, -⟩ := hall p hp
    rw [hh, Option.getD_some]
  refine ⟨_, _, fun p => (ctx.map p).getD 0, hrun, rfl, update_self .., ?_,
    fun p q hp hq => ?_, fun p hp => ?_⟩
  · exact map_congr_left fun p hp => hplace p ⟨p, hp, .refl⟩
  · refine ⟨fun he => hinj p q _ (hplace p hp) ?_, fun he => by rw [he]⟩
    exact (hplace q hq).trans (congrArg some he.symm)
  · obtain ⟨h, hh, hholds⟩ := hall p hp
    simp only [hh, Option.getD_some]
    exact (hsend p hp).copies hholds

/-- Four numbers: 2 has the source 4, 3 is a view of 4, and 1 has the sources 2 and 3. -/
def diamondClient : Client :=
  { addrs := {1, 2, 3, 4}
    tensor := fun p =>
      { type := 0, buffer := 1, ne := fun _ => 1, nb := fun _ => 4, op := 2
        opParams := fun _ => 0, flags := 0
        src := fun i =>
          if i = 0 then (if p = 1 then 2 else if p = 2 then 4 else 0)
          else if i = 1 ∧ p = 1 then 3 else 0
        viewSrc := if p = 3 then 4 else 0
        viewOffs := 0, data := 64, name := fun i => if i = 0 then 120 else 0
        extra := 0, padding := 0 }
    remotePtr := fun _ => 5 }

/-- A server with one buffer. -/
def diamondServer : Server :=
  { Server.init 1 with buffers := fun h => if h = 5 then some ⟨64, 64⟩ else none }

theorem diamond_sendable (p : UInt64) :
    diamondClient.Sendable Gguf.ggmlTraits diamondServer.buffers p := by
  have htype : (diamondClient.tensor p).type.toNat = 0 := rfl
  have hone : (0 : Int) ≤ 1 ∧ (1 : Int) < 2 ^ 32 := by decide
  have hfour : 4 < 2 ^ 32 := by decide
  refine ⟨?_, fun _ => hone, fun _ => hfour, ?_, fun e he => ?_⟩
  · rw [htype]
    decide
  · have hname : cString (diamondClient.tensor p).name = [120] := rfl
    rw [hname]
    decide
  · have hext : (diamondClient.serializeTensor p).extent diamondServer.buffers =
      some ⟨64, 64⟩ := rfl
    obtain rfl := Option.some.inj (hext.symm.trans he)
    have hbytes : (diamondClient.tensor p).nbytes Gguf.ggmlTraits = 4 := rfl
    have hdata : (diamondClient.tensor p).data = 64 := rfl
    rw [hbytes, hdata]
    decide

theorem mem_diamond : p ∈ diamondClient.addrs ↔ p = 1 ∨ p = 2 ∨ p = 3 ∨ p = 4 := by
  simp [diamondClient]

/-- References of the diamond, wherever the data is. -/
theorem diamond_refs (h : q ∈ (diamondClient.tensor p).refs) : q = 0 ∨ q ∈ diamondClient.addrs := by
  rw [mem_diamond]
  rcases mem_append.mp h with h | h
  · obtain ⟨i, rfl⟩ := mem_ofFn.mp h
    simp only [diamondClient]
    split_ifs <;> simp
  · rw [mem_singleton.mp h]
    simp only [diamondClient]
    split_ifs <;> simp

theorem diamond_wellFormed (h : ∀ p ∈ nodes, p ∈ diamondClient.addrs) :
    diamondClient.WellFormed nodes :=
  ⟨by simp [mem_diamond], h, fun _ _ _ hq => diamond_refs hq⟩

theorem length_diamond (h : ∀ p ∈ nodes, p ∈ diamondClient.addrs) (hn : nodes.length ≤ 4)
    (device : UInt32) : (diamondClient.serializeGraph device nodes).length < 2 ^ 31 := by
  have hc := diamond_wellFormed h
  obtain ⟨ps, hps, hnodup, hmem⟩ := collect_eq hc
  have hin : ∀ p, diamondClient.Reaches nodes p → p ∈ diamondClient.addrs := fun p hp =>
    hc.mem_addrs (fun _ _ => rfl) hp
  have hcard : ps.toFinset.card ≤ diamondClient.addrs.card :=
    Finset.card_le_card fun p hp => hin p ((hmem p).mp (mem_toFinset.mp hp))
  have haddrs : diamondClient.addrs.card = 4 := rfl
  rw [toFinset_card_of_nodup hnodup] at hcard
  rw [length_serializeGraph, hps, length_map]
  omega

/-- The diamond is rebuilt. -/
theorem graph_round_trip_diamond :
    ∃ (e : Effect) (g : Graph) (place : UInt64 → Nat), diamondServer.graphCompute Gguf.ggmlTraits
        (diamondClient.serializeGraph 0 [2, 3, 1]) = .ok e ∧ e.graph = some g ∧
      g.nodes = [some (place 2), some (place 3), some (place 1)] ∧ place 2 ≠ place 3 := by
  have hin : ∀ p ∈ [2, 3, 1], p ∈ diamondClient.addrs := by simp [mem_diamond]
  have hdev : (0 : UInt32).toNat < diamondServer.nBackends := Nat.one_pos
  obtain ⟨e, g, place, hrun, hg, -, hnodes, hinj, -⟩ := graph_round_trip Gguf.ggmlTraits
    (diamond_wellFormed hin) hdev (length_diamond hin (by decide) 0) fun p _ => diamond_sendable p
  refine ⟨e, g, place, hrun, hg, hnodes, fun he => ?_⟩
  have h23 := (hinj 2 3 ⟨2, by simp, .refl⟩ ⟨3, by simp, .refl⟩).mp he
  exact absurd h23 (by decide)

end Llama.Rpc
