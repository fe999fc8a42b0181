import Llama.Rpc.Build
import Llama.Lib.Run
import Llama.Gguf.RoundTrip

/-!
# What the server lets a client reach

The ranges that `set_tensor`, `set_tensor_hash`, `get_tensor` and `copy_tensor` pass to a backend
lie inside a live buffer, whatever the client has sent: their checks are made in wrapping
arithmetic, which is exact for buffers below `2 ^ 63`. The tensors of a computed graph do so as long
as a message names a known buffer for every tensor with data, and no buffer is freed that a stored
graph still uses. -/

namespace Llama.Rpc

open List Option Function

variable {T : Gguf.Traits} {s s' : Server}

/-- The range lies inside a buffer of the server. -/
def Server.Inside (s : Server) (r : Range) : Prop :=
  ∃ h e, s.buffers h = some e ∧ e.base.toNat ≤ r.start.toNat ∧
    r.start.toNat + r.len.toNat ≤ e.base.toNat + e.size.toNat

/-- A buffer that a backend can return here: it lies below `2 ^ 63`, and only an empty one has no
base, which `ggml_backend_buffer_get_base` asserts. -/
structure Extent.Low (e : Extent) : Prop where
  below : e.base.toNat + e.size.toNat ≤ 2 ^ 63
  base : e.base ≠ 0 ∨ e.size = 0

/-- All buffers are such. -/
def Buffers.Low (buffers : Buffers) : Prop := ∀ h e, buffers h = some e → e.Low

variable {buffers : Buffers} {e : Effect} {data offset size : UInt64} {r : RpcTensor} {m : Message}
  {g : Graph} {nBackends : Nat} {ms : List Message}

theorem Buffers.Low.toNat_end (h : buffers.Low) {k : UInt64} {e : Extent}
    (he : buffers k = some e) : (e.base + e.size).toNat = e.base.toNat + e.size.toNat := by
  have hlow := (h k e he).below
  rw [UInt64.toNat_add]
  omega

/-- A range inside a buffer is shorter than half of the addresses. -/
theorem Extent.Low.len_lt {e : Extent} (h : e.Low) {start len : Nat} (h1 : e.base.toNat ≤ start)
    (h2 : start + len ≤ e.base.toNat + e.size.toNat) : start ≤ 2 ^ 63 ∧ len < 2 ^ 63 := by
  have hbelow := h.below
  rcases h.base with hne | h0
  · have hpos : e.base.toNat ≠ 0 := fun h0 => hne (UInt64.toNat_inj.mp h0)
    omega
  · rw [h0] at h2 hbelow
    simp only [UInt64.toNat_zero, Nat.add_zero] at h2 hbelow
    omega

/-- A handler that has only read or written, inside low buffers. -/
structure Effect.Touches (s : Server) (e : Effect) : Prop where
  server : e.server = s
  graph : e.graph = none
  ranges : s.buffers.Low → ∀ x ∈ e.ranges, s.Inside x

theorem Effect.touches_quiet (s : Server) : (Effect.quiet s).Touches s :=
  ⟨rfl, rfl, fun _ _ hx => absurd hx not_mem_nil⟩

/-- The check of the tensor accesses is exact. -/
theorem outOfBounds_inside {e : Extent}
    (hend : (e.base + e.size).toNat = e.base.toNat + e.size.toNat)
    (h : Server.outOfBounds e data offset size = false) :
    e.base.toNat ≤ (data + offset).toNat ∧
      (data + offset).toNat + size.toNat ≤ e.base.toNat + e.size.toNat := by
  have hsub : e.base + e.size - data - offset = e.base + e.size - (data + offset) := by grind
  simp only [Server.outOfBounds, Bool.or_eq_false_iff, decide_eq_false_iff_not, hsub,
    UInt64.not_lt, UInt64.not_le] at h
  obtain ⟨⟨h0, h1⟩, h2⟩ := h
  have hdiff := UInt64.toNat_sub_of_le _ _ (UInt64.le_of_lt h1)
  rw [UInt64.le_iff_toNat_le] at h0 h2
  rw [UInt64.lt_iff_toNat_lt] at h1
  rw [hdiff] at h2
  omega

/-- What is known of a deserialized tensor: it names a known buffer and lies inside, or it names
none. -/
theorem deserializeTensor_cases (hb : buffers.Low) {t : ServerTensor}
    (h : deserializeTensor T buffers r = .ok (some t)) :
    (r.extent buffers = none ∧ t = r.bare false) ∨
      ∃ e, buffers r.buffer = some e ∧ r.buffer ≠ 0 ∧ t = r.bare true ∧
        e.base.toNat ≤ t.data.toNat ∧
        t.data.toNat + (t.nbytes T).toNat ≤ e.base.toNat + e.size.toNat := by
  unfold deserializeTensor at h
  split at h
  · cases h
  · split at h
    · cases h
    · cases hx : r.extent buffers with
      | none =>
        simp only [hx, Except.ok.injEq, some.injEq] at h
        exact .inl ⟨rfl, h.symm⟩
      | some e =>
        simp only [hx] at h
        split at h
        · rename_i hc
          have hne : r.buffer ≠ 0 := by
            intro h0
            simp [RpcTensor.extent, h0] at hx
          have he : buffers r.buffer = some e := by simpa [RpcTensor.extent, hne] using hx
          obtain rfl := some.inj (Except.ok.inj h)
          refine .inr ⟨e, he, hne, rfl, UInt64.le_iff_toNat_le.mp hc.2.1, ?_⟩
          have hwrap := UInt64.le_iff_toNat_le.mp hc.1
          have hle := UInt64.le_iff_toNat_le.mp hc.2.2
          rw [hb.toNat_end he] at hle
          rw [UInt64.toNat_add] at hle hwrap
          have h1 := r.data.toNat_lt
          have h2 := ((r.bare true).nbytes T).toNat_lt
          have hdata : (r.bare true).data = r.data := rfl
          rw [hdata]
          omega
        · cases h

theorem access_touches (h : s.access T r offset size = .ok e) : e.Touches s := by
  unfold Server.access at h
  split at h
  · cases h
  · cases h
  · rename_i t ht
    split at h
    · cases h
    · split at h
      · cases h
      · rename_i x hx
        split at h
        · cases h
        · rename_i hout
          obtain rfl := Except.ok.inj h
          refine ⟨rfl, rfl, fun hb y hy => ?_⟩
          rw [mem_singleton.mp hy]
          have hdata : t.data = r.data := by
            rcases deserializeTensor_cases hb ht with ⟨-, rfl⟩ | ⟨_, -, -, rfl, -⟩ <;> rfl
          have hin := outOfBounds_inside (hb.toNat_end hx) (by simpa using hout)
          rw [← hdata] at hin
          exact ⟨t.buffer, x, hx, hin⟩

theorem copyTensor_touches {src dst : RpcTensor} (h : s.copyTensor T src dst = .ok e) :
    e.Touches s := by
  unfold Server.copyTensor at h
  split at h
  · cases h
  · rename_i os hs
    split at h
    · cases h
    · rename_i od hd
      split at h
      · rename_i ts td
        split at h
        · cases h
        · rename_i hne
          split at h
          · cases h
          · rename_i x hx
            split at h
            · cases h
            · rename_i hout
              obtain rfl := Except.ok.inj h
              refine ⟨rfl, rfl, fun hb y hy => ?_⟩
              rcases deserializeTensor_cases hb hs with ⟨-, rfl⟩ | ⟨xs, hxs, -, rfl, hs1, hs2⟩
              · exact absurd (.inl rfl) hne
              rcases deserializeTensor_cases hb hd with ⟨-, rfl⟩ | ⟨xd, hxd, -, rfl, hd1, hd2⟩
              · exact absurd (.inr rfl) hne
              have hxe : x = xd := some.inj (hx.symm.trans hxd)
              subst hxe
              have hlen := ((hb _ _ hxs).len_lt hs1 hs2).2
              have hstart := ((hb _ _ hxd).len_lt hd1 hd2).1
              rw [UInt64.not_lt, UInt64.le_iff_toNat_le, UInt64.toNat_add, hb.toNat_end hxd,
                Nat.mod_eq_of_lt (by omega)] at hout
              rcases mem_pair.mp hy with rfl | rfl
              · exact ⟨_, xs, hxs, hs1, hs2⟩
              · exact ⟨_, x, hxd, hd1, hout⟩
      · cases h

/-- A graph that is computed is stored. -/
theorem graphCompute_cases {input : List UInt8} (h : s.graphCompute T input = .ok e) :
    ∃ g rest msg, Reader.graphMessage input = some (msg, rest) ∧
      buildGraph T s.buffers msg = .ok g ∧
      e = { server := { s with stored := update s.stored msg.device.toNat (some g) }
            ranges := [], graph := some g } := by
  unfold Server.graphCompute at h
  split at h
  · cases h
  · rename_i msg rest hread
    split at h
    · cases h
    · split at h
      · cases h
      · rename_i g hg
        exact ⟨g, rest, msg, hread, hg, (Except.ok.inj h).symm⟩

/-- A graph that is computed again is the stored one. -/
theorem graphRecompute_cases {device : UInt32} (h : s.graphRecompute device = .ok e) :
    ∃ g, s.stored device.toNat = some g ∧ e = { server := s, ranges := [], graph := some g } := by
  unfold Server.graphRecompute at h
  split at h
  · cases h
  · split at h
    · cases h
    · rename_i g hg
      exact ⟨g, hg, (Except.ok.inj h).symm⟩

/-- What a handler that finishes can do. Most leave the server as it is and compute nothing. -/
theorem handle_cases (h : s.handle T m = .ok e) :
    e.Touches s ∨
    (∃ device handle x, m = .allocBuffer device (some (handle, x)) ∧
      e = .quiet { s with buffers := update s.buffers handle (some x) }) ∨
    (∃ handle, m = .freeBuffer handle ∧
      e = .quiet { s with buffers := update s.buffers handle none }) ∨
    (∃ input g rest msg, m = .graphCompute input ∧ Reader.graphMessage input = some (msg, rest) ∧
      buildGraph T s.buffers msg = .ok g ∧
      e = { server := { s with stored := update s.stored msg.device.toNat (some g) }
            ranges := [], graph := some g }) ∨
    (∃ device g, m = .graphRecompute device ∧ s.stored device.toNat = some g ∧
      e = { server := s, ranges := [], graph := some g }) := by
  have hquiet : Effect.quiet s = e → e.Touches s := by
    rintro rfl
    exact Effect.touches_quiet s
  cases m with
  | allocBuffer device got =>
    simp only [Server.handle, Server.allocBuffer] at h
    split at h
    · cases h
    · split at h
      · exact .inl (hquiet (Except.ok.inj h))
      · exact .inr (.inl ⟨_, _, _, rfl, (Except.ok.inj h).symm⟩)
  | freeBuffer handle =>
    simp only [Server.handle, Server.freeBuffer] at h
    split at h
    · cases h
    · exact .inr (.inr (.inl ⟨_, rfl, (Except.ok.inj h).symm⟩))
  | bufferGetBase handle | bufferClear handle =>
    simp only [Server.handle, Server.withBuffer] at h
    split at h
    · cases h
    · exact .inl (hquiet (Except.ok.inj h))
  | setTensor input =>
    simp only [Server.handle, Server.setTensor] at h
    split at h
    · cases h
    · exact .inl (access_touches h)
  | setTensorHash r offset file =>
    cases file with
    | none => exact .inl (hquiet (Except.ok.inj h))
    | some size => exact .inl (access_touches h)
  | getTensor r offset size => exact .inl (access_touches h)
  | copyTensor src dst => exact .inl (copyTensor_touches h)
  | initTensor r =>
    simp only [Server.handle, Server.initTensor] at h
    split at h
    · cases h
    · cases h
    · exact .inl (hquiet (Except.ok.inj h))
  | graphCompute input =>
    obtain ⟨g, rest, msg, hread, hg, he⟩ := graphCompute_cases h
    exact .inr (.inr (.inr (.inl ⟨input, g, rest, msg, rfl, hread, hg, he⟩)))
  | graphRecompute device =>
    obtain ⟨g, hg, he⟩ := graphRecompute_cases h
    exact .inr (.inr (.inr (.inr ⟨device, g, rfl, hg, he⟩)))

/-- One message; a handler that does not finish ends the connection. -/
def Server.step (T : Gguf.Traits) (s : Server) (m : Message) : Option Server :=
  match s.handle T m with
  | .error _ => none
  | .ok e => some e.server

/-- What the backend promises: a buffer that it returns is new. -/
def Server.Genuine (s : Server) : Message → Prop
  | .allocBuffer _ (some (handle, e)) => s.buffers handle = none ∧ e.Low
  | _ => True

/-- The nodes of the message lead to the id. -/
def GraphMessage.Leads (m : GraphMessage) (id : UInt64) : Prop :=
  ∃ n ∈ m.nodes, Relation.ReflTransGen m.ptrs.Leads n id

/-- What the server does not check: a graph names a known buffer for every tensor with data, and a
buffer that a stored graph uses is not freed. -/
def Server.Careful (s : Server) : Message → Prop
  | .graphCompute input => ∀ m rest, Reader.graphMessage input = some (m, rest) →
      ∀ id r, m.Leads id → m.ptrs id = some r → r.data ≠ 0 → r.extent s.buffers ≠ none
  | .freeBuffer handle => ∀ device g, s.stored device = some g →
      ∀ t ∈ g.tensors, t.data ≠ 0 → t.buffer ≠ handle
  | _ => True

/-- The tensors of a graph that have data lie inside the buffers that they name. -/
def Graph.Placed (T : Gguf.Traits) (buffers : Buffers) (g : Graph) : Prop :=
  ∀ t ∈ g.tensors, t.data ≠ 0 → ∃ e, buffers t.buffer = some e ∧
    e.base.toNat ≤ t.data.toNat ∧ t.data.toNat + (t.nbytes T).toNat ≤ e.base.toNat + e.size.toNat

/-- Assigning references does not change the size. -/
theorem Tensor.SameCore.nbytes {t t' : ServerTensor} (h : Tensor.SameCore t t') (T : Gguf.Traits) :
    t'.nbytes T = t.nbytes T := by
  simp only [Tensor.nbytes, h.ne, h.nb, h.type]

/-- A graph built from a message with known buffers. -/
theorem buildGraph_placed (hb : buffers.Low) {m : GraphMessage}
    (hm : ∀ id r, m.Leads id → m.ptrs id = some r → r.data ≠ 0 → r.extent buffers ≠ none)
    (hg : buildGraph T buffers m = .ok g) : g.Placed T buffers := by
  have hmade : Ctx.Made T buffers m.ptrs m.Leads { tensors := g.tensors, map := fun _ => none } :=
    createNodes_made (fun id id' ⟨n, hn, hp⟩ hl => ⟨n, hn, hp.tail hl⟩) m.nodes [] _ g
      (fun id hid => ⟨id, hid, .refl⟩) (fun t ht => absurd ht not_mem_nil) hg
  intro t ht hdata
  obtain ⟨id, r, t₀, hid, hr, hd, hcore⟩ := hmade t ht
  rw [hcore.data] at hdata
  rw [hcore.data, hcore.buffer, hcore.nbytes]
  rcases deserializeTensor_cases hb hd with ⟨hnone, rfl⟩ | ⟨e, he, -, rfl, h1, h2⟩
  · exact absurd hnone (hm id r hid hr hdata)
  · exact ⟨e, he, h1, h2⟩

/-- The state of a connection of careful messages. -/
structure Server.Ok (T : Gguf.Traits) (s : Server) : Prop where
  low : s.buffers.Low
  stored : ∀ device g, s.stored device = some g → g.Placed T s.buffers

theorem Server.step_eq_some : s.step T m = some s' ↔ ∃ e, s.handle T m = .ok e ∧ e.server = s' := by
  unfold Server.step
  cases s.handle T m with
  | error x => simp
  | ok e => simp

theorem step_low (hb : s.buffers.Low) (hgen : s.Genuine m) (h : s.step T m = some s') :
    s'.buffers.Low := by
  obtain ⟨e, he, rfl⟩ := Server.step_eq_some.mp h
  rcases handle_cases he with ht | ⟨_, handle, x, rfl, rfl⟩ | ⟨handle, rfl, rfl⟩ |
    ⟨_, _, _, _, rfl, -, -, rfl⟩ | ⟨_, _, rfl, -, rfl⟩
  · rwa [ht.server]
  · intro k y hy
    by_cases hk : k = handle
    · subst hk
      have hxy : x = y := by simpa [Effect.quiet] using hy
      rw [← hxy]
      exact hgen.2
    · exact hb k y (by simpa [Effect.quiet, update_of_ne hk] using hy)
  · intro k y hy
    by_cases hk : k = handle
    · subst hk
      simp [Effect.quiet] at hy
    · exact hb k y (by simpa [Effect.quiet, update_of_ne hk] using hy)
  · exact hb
  · exact hb

/-- Another buffer may change as long as the graph does not use it. -/
theorem Graph.Placed.update (h : g.Placed T buffers) {handle : UInt64} (o : Option Extent)
    (hne : ∀ t ∈ g.tensors, t.data ≠ 0 → t.buffer ≠ handle) :
    g.Placed T (update buffers handle o) := by
  intro t ht hdata
  obtain ⟨e, he, hin⟩ := h t ht hdata
  exact ⟨e, by rw [update_of_ne (hne t ht hdata), he], hin⟩

/-- What a careful message computes is placed, and what it leaves in the server too. -/
theorem handle_placed (hok : s.Ok T) (hgen : s.Genuine m) (hcare : s.Careful m)
    (h : s.handle T m = .ok e) :
    (∀ device g, e.server.stored device = some g → g.Placed T e.server.buffers) ∧
      ∀ g, e.graph = some g → g.Placed T s.buffers := by
  rcases handle_cases h with ht | ⟨_, handle, x, rfl, rfl⟩ | ⟨handle, rfl, rfl⟩ |
    ⟨input, g, rest, msg, rfl, hread, hg, rfl⟩ | ⟨device, g, rfl, hstored, rfl⟩
  · rw [ht.server, ht.graph]
    exact ⟨hok.stored, fun g h0 => by cases h0⟩
  · refine ⟨fun device g hdev => (hok.stored device g hdev).update (some x) ?_,
      fun g h0 => by cases h0⟩
    -- a new buffer has a handle that no live buffer has
    intro t ht hdata heq
    obtain ⟨y, hy, -⟩ := hok.stored device g hdev t ht hdata
    rw [heq, hgen.1] at hy
    cases hy
  · exact ⟨fun device g hdev => (hok.stored device g hdev).update none (hcare device g hdev),
      fun g h0 => by cases h0⟩
  · have hplaced := buildGraph_placed hok.low (hcare msg rest hread) hg
    refine ⟨fun device g' hdev => ?_, fun g' hg' => ?_⟩
    · by_cases hk : device = msg.device.toNat
      · subst hk
        obtain rfl : g = g' := by simpa using hdev
        exact hplaced
      · exact hok.stored device g' (by simpa [update_of_ne hk] using hdev)
    · obtain rfl := some.inj hg'
      exact hplaced
  · refine ⟨hok.stored, fun g' hg' => ?_⟩
    obtain rfl := some.inj hg'
    exact hok.stored _ _ hstored

/-- A placed tensor is inside a buffer. -/
theorem Graph.Placed.inside (h : g.Placed T s.buffers) :
    ∀ t ∈ g.tensors, t.data ≠ 0 → s.Inside ⟨t.data, t.nbytes T⟩ := by
  intro t ht hdata
  obtain ⟨e, he, h1, h2⟩ := h t ht hdata
  exact ⟨t.buffer, e, he, h1, h2⟩

section

variable (hgen : Run.Meets (Server.step T) Server.Genuine (Server.init nBackends) ms)
include hgen

/-- Every state of a run of genuine messages has low buffers. -/
theorem exec_low (hrun : Run.exec (Server.step T) (Server.init nBackends) ms = some s) :
    s.buffers.Low :=
  Run.exec_invariant (I := fun s => s.buffers.Low) (fun _ _ _ hb hgen h => step_low hb hgen h)
    (fun h e he => by cases he) hgen hrun

/-- Every state of a run of careful messages has placed graphs. -/
theorem exec_ok (hcare : Run.Meets (Server.step T) Server.Careful (Server.init nBackends) ms)
    (hrun : Run.exec (Server.step T) (Server.init nBackends) ms = some s) : s.Ok T := by
  refine Run.exec_invariant (I := Server.Ok T) (fun s m s' hok hm h => ?_)
    ⟨fun h e he => (by cases he), fun device g hg => (by cases hg)⟩ (hgen.and hcare) hrun
  obtain ⟨e, he, rfl⟩ := Server.step_eq_some.mp h
  exact ⟨step_low hok.low hm.1 h, (handle_placed hok hm.1 hm.2 he).1⟩

end

/-- In every run, whatever the client sends, the ranges that are passed to a backend are inside a
live buffer; in every run of careful messages, so are the tensors with data of every graph. -/
theorem connection_confined (T : Gguf.Traits) (nBackends : Nat) {ms : List Message} {m : Message}
    {s : Server} {e : Effect}
    (hgen : Run.Meets (Server.step T) Server.Genuine (Server.init nBackends) (ms ++ [m]))
    (hrun : Run.exec (Server.step T) (Server.init nBackends) ms = some s)
    (h : s.handle T m = .ok e) :
    (∀ x ∈ e.ranges, s.Inside x) ∧
      (Run.Meets (Server.step T) Server.Careful (Server.init nBackends) (ms ++ [m]) →
        ∀ g, e.graph = some g → ∀ t ∈ g.tensors, t.data ≠ 0 → s.Inside ⟨t.data, t.nbytes T⟩) := by
  obtain ⟨hgen, hgenm, -⟩ := Run.meets_append hgen hrun
  refine ⟨?_, fun hcare g hg => ?_⟩
  · rcases handle_cases h with ht | ⟨_, _, _, -, rfl⟩ | ⟨_, -, rfl⟩ |
      ⟨_, _, _, _, -, -, -, rfl⟩ | ⟨_, _, -, -, rfl⟩
    · exact ht.ranges (exec_low hgen hrun)
    all_goals exact fun x hx => absurd hx not_mem_nil
  · obtain ⟨hcare, hcarem, -⟩ := Run.meets_append hcare hrun
    exact ((handle_placed (exec_ok hgen hcare hrun) hgenm hcarem h).2 g hg).inside

/-- A client with one number, in the buffer with the remote handle `remote`. -/
def numberClient (remote data : UInt64) : Client :=
  { addrs := {1}
    tensor := fun _ =>
      { type := 0, buffer := 1, ne := fun _ => 1, nb := fun _ => 4, op := 0
        opParams := fun _ => 0, flags := 0, src := fun _ => 0, viewSrc := 0, viewOffs := 0
        data := data, name := fun _ => 0, extra := 0, padding := 0 }
    remotePtr := fun _ => remote }

def numberMessage (remote data : UInt64) : Message :=
  .graphCompute ((numberClient remote data).serializeGraph 0 [1])

/-- The tensor of the message in the server. -/
def numberTensor (remote data : UInt64) (known : Bool) : ServerTensor :=
  ((numberClient remote data).serializeTensor 1).bare known

theorem reads_number (remote data : UInt64) :
    Reader.graphMessage ((numberClient remote data).serializeGraph 0 [1]) =
      some ({ device := 0, nodes := [1], tensors :=
        [(numberClient remote data).serializeTensor 1] },
        []) := by
  have hcollect : (numberClient remote data).collect [1] =
      [(numberClient remote data).serializeTensor 1] :=
    Client.collect_leaf (by decide) fun q hq => by
      simpa [Tensor.refs, numberClient, mem_ofFn] using hq
  have hreads := reads_graph (numberClient remote data) 0 [1] (by decide) (by simp [hcollect])
  rw [hcollect] at hreads
  exact hreads

/-- The graph of the message, with a buffer that is known or not. -/
theorem handle_number {remote : UInt64} {known : Bool} (hn : 0 < s.nBackends)
    (ht : deserializeTensor Gguf.ggmlTraits s.buffers
      ((numberClient remote data).serializeTensor 1) = .ok
        (some (numberTensor remote data known))) :
    s.handle Gguf.ggmlTraits (numberMessage remote data) =
      .ok { server :=
              { s with stored := update s.stored 0
                        (some { tensors := [numberTensor remote data known], nodes := [some 0] }) }
            ranges := []
            graph := some { tensors := [numberTensor remote data known], nodes := [some 0] } } := by
  have hg := buildGraph_leaf 0 (fun _ => rfl) rfl ht
  have hdev : ¬ s.nBackends ≤ (0 : UInt32).toNat := Nat.not_le.mpr hn
  have hid : ((numberClient remote data).serializeTensor 1).id = 1 := rfl
  rw [hid] at hg
  simp only [Server.handle, numberMessage, Server.graphCompute, reads_number, if_neg hdev, hg]
  rfl

/-- A buffer of 64 bytes. -/
def numberBuffer : Message := .allocBuffer 0 (some (1, ⟨16, 64⟩))

/-- The server after the buffer was allocated. -/
def numberServer : Server :=
  { Server.init 1 with buffers := update (fun _ => none) 1 (some ⟨16, 64⟩) }

theorem step_numberBuffer : (Server.init 1).step T numberBuffer = some numberServer := rfl

theorem deserializeTensor_number :
    deserializeTensor Gguf.ggmlTraits numberServer.buffers ((numberClient 1 16).serializeTensor 1) =
      .ok (some (numberTensor 1 16 true)) := by
  have hext : ((numberClient 1 16).serializeTensor 1).extent numberServer.buffers =
      some ⟨16, 64⟩ := by
    simp [RpcTensor.extent, Client.serializeTensor, numberClient, numberServer]
  have hbytes : (((numberClient 1 16).serializeTensor 1).bare true).nbytes Gguf.ggmlTraits = 4 := by
    decide
  simp only [deserializeTensor, hext, hbytes]
  decide

/-- The server after the graph was stored. -/
def numberStored : Server :=
  let g : Graph := { tensors := [numberTensor 1 16 true], nodes := [some 0] }
  { numberServer with stored := update (fun _ => none) 0 (some g) }

theorem step_number : numberServer.step Gguf.ggmlTraits (numberMessage 1 16) = some numberStored :=
  Server.step_eq_some.mpr ⟨_, handle_number Nat.one_pos deserializeTensor_number, rfl⟩

theorem exec_number : Run.exec (Server.step Gguf.ggmlTraits) (Server.init 1)
    [numberBuffer, numberMessage 1 16] = some numberStored := by
  rw [Run.exec_cons, step_numberBuffer, bind_some, Run.exec_cons, step_number]
  rfl

theorem step_freeBuffer_number : numberStored.step Gguf.ggmlTraits (.freeBuffer 1) =
    some { numberStored with buffers := update numberStored.buffers 1 none } := by
  have hsome : numberStored.buffers 1 = some ⟨16, 64⟩ := by
    simp [numberStored, numberServer]
  simp [Server.step, Server.handle, Server.freeBuffer, hsome, Effect.quiet]

/-- Messages after the graph was stored are genuine if they allocate nothing. -/
theorem meets_genuine_number
    (hms : Run.Meets (Server.step Gguf.ggmlTraits) Server.Genuine numberStored ms) :
    Run.Meets (Server.step Gguf.ggmlTraits) Server.Genuine (Server.init 1)
      (numberBuffer :: numberMessage 1 16 :: ms) := by
  refine ⟨⟨rfl, by decide, .inl (by decide)⟩, ?_⟩
  rw [step_numberBuffer]
  refine ⟨trivial, ?_⟩
  rw [step_number]
  exact hms

/-- Storing a graph in its buffer and computing it again. -/
theorem connection_confined_number :
    Run.exec (Server.step Gguf.ggmlTraits) (Server.init 1) [numberBuffer, numberMessage 1 16] =
        some numberStored ∧ numberStored.Inside ⟨16, 4⟩ := by
  refine ⟨exec_number, ?_⟩
  have hcare : Run.Meets (Server.step Gguf.ggmlTraits) Server.Careful (Server.init 1)
      ([numberBuffer, numberMessage 1 16] ++ [.graphRecompute 0]) := by
    refine ⟨trivial, ?_⟩
    rw [step_numberBuffer]
    refine ⟨fun m rest hm id r _ hr _ => ?_, ?_⟩
    · rw [reads_number] at hm
      obtain ⟨rfl, rfl⟩ := Prod.mk.inj (some.inj hm)
      have hmem := mem_of_find?_eq_some hr
      rw [mem_singleton.mp hmem]
      simp [RpcTensor.extent, Client.serializeTensor, numberClient, numberServer]
    · rw [step_number]
      exact ⟨trivial, trivial⟩
  have hgen : Run.Meets (Server.step Gguf.ggmlTraits) Server.Genuine (Server.init 1)
      ([numberBuffer, numberMessage 1 16] ++ [.graphRecompute 0]) :=
    meets_genuine_number ⟨trivial, trivial⟩
  exact (connection_confined Gguf.ggmlTraits 1 hgen exec_number rfl).2 hcare _ rfl
    (numberTensor 1 16 true) mem_cons_self (by decide)

/-- Two graphs that are handed to the backend with a tensor outside of every live buffer: one whose
tensor names no buffer, and one that is computed again after its buffer was freed. -/
theorem graph_outside_buffers :
    (∃ e g t, (Server.init 1).handle Gguf.ggmlTraits (numberMessage 0 8) = .ok e ∧
      e.graph = some g ∧ t ∈ g.tensors ∧ t.data ≠ 0 ∧
      ¬ (Server.init 1).Inside ⟨t.data, t.nbytes Gguf.ggmlTraits⟩) ∧
    ∃ s e g t, Run.Meets (Server.step Gguf.ggmlTraits) Server.Genuine (Server.init 1)
        [numberBuffer, numberMessage 1 16, .freeBuffer 1, .graphRecompute 0] ∧
      Run.exec (Server.step Gguf.ggmlTraits) (Server.init 1)
        [numberBuffer, numberMessage 1 16, .freeBuffer 1] = some s ∧
      s.handle Gguf.ggmlTraits (.graphRecompute 0) = .ok e ∧
      e.graph = some g ∧ t ∈ g.tensors ∧ t.data ≠ 0 ∧
      ¬ s.Inside ⟨t.data, t.nbytes Gguf.ggmlTraits⟩ := by
  constructor
  · refine ⟨_, _, numberTensor 0 8 false,
      handle_number Nat.one_pos (by rfl), rfl, mem_cons_self, by decide, ?_⟩
    rintro ⟨h, e, he, -⟩
    cases he
  · refine ⟨{ numberStored with buffers := update numberStored.buffers 1 none }, _, _,
      numberTensor 1 16 true, meets_genuine_number ⟨trivial, trivial, trivial⟩, ?_, rfl, rfl,
      mem_cons_self, by decide, ?_⟩
    · rw [Run.exec_cons, step_numberBuffer, bind_some, Run.exec_cons, step_number,
        bind_some, Run.exec_cons, step_freeBuffer_number]
      rfl
    · rintro ⟨h, e, he, -⟩
      by_cases hk : h = 1
      · subst hk
        simp at he
      · simp [numberStored, numberServer, update_of_ne hk] at he

end Llama.Rpc
