import Llama.Rpc.Confine
import Llama.Rpc.RoundTrip

/-!
# Computing the stored graph again

Every RPC backend remembers copies of the nodes of the graph that it has sent last. If the nodes of
the next graph are the same structs, it asks the server to compute the stored graph again. The
server stores one graph for each device, which several backends may share: the comparison sees
neither the graphs of other backends nor the tensors that are not nodes. -/

namespace Llama.Rpc

open List Function

variable {T : Gguf.Traits} {device : Nat → UInt32}

/-- `graph_cache::is_cached`. -/
def isCached (last : List (Tensor UInt64)) (c : Client) (nodes : List UInt64) : Prop :=
  last.length = nodes.length ∧ ∀ x ∈ last.zip nodes, x.1 = c.tensor x.2

instance (last : List (Tensor UInt64)) (c : Client) (nodes : List UInt64) :
    Decidable (isCached last c nodes) := by
  unfold isCached
  infer_instance

/-- Backends of one endpoint and their connection. -/
structure World where
  /-- Memory of the client. -/
  client : Client
  /-- `gc.last_graph` of every backend. -/
  lastGraph : Nat → List (Tensor UInt64)
  server : Server

/-- What can happen. -/
inductive Action where
  /-- `ggml_backend_rpc_graph_compute` of a backend. -/
  | compute (backend : Nat) (nodes : List UInt64)
  /-- The client changes its tensors and buffers. -/
  | memory (client : Client)
  /-- Another message on the connection. -/
  | message (m : Message)

/-- The messages of `ggml_backend_rpc_graph_compute`. -/
def Message.isGraph : Message → Bool
  | .graphCompute _ => true
  | .graphRecompute _ => true
  | _ => false

namespace World

/-- Backends that have sent nothing yet. -/
def init (client : Client) (server : Server) : World :=
  { client := client, lastGraph := fun _ => [], server := server }

/-- `ggml_backend_rpc_graph_compute`. -/
def graphCompute (T : Gguf.Traits) (device : Nat → UInt32) (w : World) (b : Nat)
    (nodes : List UInt64) : Option World :=
  if nodes = [] then none
  else if isCached (w.lastGraph b) w.client nodes then
    match w.server.handle T (.graphRecompute (device b)) with
    | .error _ => none
    | .ok e => some { w with server := e.server }
  else
    match w.server.handle T (.graphCompute (w.client.serializeGraph (device b) nodes)) with
    | .error _ => none
    | .ok e => some
        { w with
          lastGraph := update w.lastGraph b (nodes.map w.client.tensor)
          server := e.server }

/-- One action; a failed assertion or the end of the connection ends the run. -/
def step (T : Gguf.Traits) (device : Nat → UInt32) (w : World) : Action → Option World
  | .compute b nodes => w.graphCompute T device b nodes
  | .memory c => some { w with client := c }
  | .message m =>
    if m.isGraph then none
    else match w.server.handle T m with
      | .error _ => none
      | .ok e => some { w with server := e.server }

/-- Graphs that are computed have pointers to tensors and a size that fits. -/
def Valid (device : Nat → UInt32) (w : World) : Action → Prop
  | .compute b nodes => w.client.WellFormed nodes ∧
      (w.client.serializeGraph (device b) nodes).length < 2 ^ 31
  | _ => True

/-- A backend of the device sends its graph. -/
def Sends (device : Nat → UInt32) (d : UInt32) (w : World) : Action → Prop
  | .compute b nodes => device b = d ∧ ¬ isCached (w.lastGraph b) w.client nodes
  | _ => False

/-- The last graph that is sent for the device in a run from `w₀` to `w` is that of the backend `b`,
which sends it when the memory of the client is `c`. -/
def LastSent (T : Gguf.Traits) (device : Nat → UInt32) (d : UInt32) (w₀ : World) (as : List Action)
    (w : World) (c : Client) (b : Nat) (nodes : List UInt64) : Prop :=
  ∃ before after w₁ w₂, as = before ++ .compute b nodes :: after ∧
    Run.exec (step T device) w₀ before = some w₁ ∧ w₁.client = c ∧
    Sends device d w₁ (.compute b nodes) ∧ step T device w₁ (.compute b nodes) = some w₂ ∧
    Run.Meets (step T device) (fun w a => ¬ Sends device d w a) w₂ after ∧
    Run.exec (step T device) w₂ after = some w

end World

variable {s : Server} {c c' : Client} {d : UInt32} {nodes : List UInt64} {w : World} {b : Nat}

/-- Messages other than graphs keep the stored graphs. -/
theorem stored_of_not_isGraph {m : Message} {e : Effect} (hm : m.isGraph = false)
    (h : s.handle T m = .ok e) : e.server.stored = s.stored := by
  rcases handle_cases h with ht | ⟨_, _, _, rfl, rfl⟩ | ⟨_, rfl, rfl⟩ | ⟨_, _, _, _, rfl, -⟩ |
    ⟨_, _, rfl, -⟩
  · rw [ht.server]
  · rfl
  · rfl
  · cases hm
  · cases hm

/-- A message of the client is read back. -/
theorem graphMessage_serializeGraph (hlen : (c.serializeGraph d nodes).length < 2 ^ 31) :
    Reader.graphMessage (c.serializeGraph d nodes) =
      some ({ device := d, nodes := nodes, tensors := c.collect nodes }, []) := by
  rw [length_serializeGraph] at hlen
  exact reads_graph c d nodes (by omega) (by omega)

namespace World

variable {w w' : World}

/-- A call that sends leaves its nodes in the cache and the graph at the server. -/
theorem step_sends (hv : w.Valid device (.compute b nodes))
    (hs : Sends device d w (.compute b nodes)) (h : w.step T device (.compute b nodes) = some w') :
    w'.lastGraph b = nodes.map w.client.tensor ∧ ∃ g, w'.server.stored d.toNat = some g ∧
      buildGraph T w.server.buffers
        { device := d, nodes := nodes, tensors := w.client.collect nodes } = .ok g := by
  obtain ⟨rfl, hnew⟩ := hs
  simp only [step, graphCompute, if_neg hnew] at h
  split at h
  · cases h
  · split at h
    · cases h
    · rename_i e he
      obtain rfl := Option.some.inj h
      obtain ⟨g, rest, msg, hread, hg, rfl⟩ := graphCompute_cases he
      rw [graphMessage_serializeGraph hv.2] at hread
      obtain ⟨rfl, rfl⟩ := Prod.mk.inj (Option.some.inj hread)
      exact ⟨update_self .., g, update_self .., hg⟩

/-- What does not send for a device keeps the caches of its backends and the stored graph. -/
theorem step_quiet {a : Action} (hv : w.Valid device a) (hs : ¬ Sends device d w a)
    (h : w.step T device a = some w') :
    (∀ b, device b = d → w'.lastGraph b = w.lastGraph b) ∧
      w'.server.stored d.toNat = w.server.stored d.toNat := by
  cases a with
  | memory c =>
    obtain rfl := Option.some.inj h
    exact ⟨fun _ _ => rfl, rfl⟩
  | message m =>
    simp only [step] at h
    split at h
    · cases h
    · rename_i hm
      split at h
      · cases h
      · rename_i e he
        obtain rfl := Option.some.inj h
        exact ⟨fun _ _ => rfl, congrFun (stored_of_not_isGraph (by simpa using hm) he) _⟩
  | compute b nodes =>
    simp only [step, graphCompute] at h
    split at h
    · cases h
    · split at h
      · split at h
        · cases h
        · rename_i e he
          obtain rfl := Option.some.inj h
          obtain ⟨g, -, rfl⟩ := graphRecompute_cases he
          exact ⟨fun _ _ => rfl, rfl⟩
      · rename_i hnew
        have hd : device b ≠ d := fun hd => hs ⟨hd, hnew⟩
        split at h
        · cases h
        · rename_i e he
          obtain rfl := Option.some.inj h
          obtain ⟨g, rest, msg, hread, hg, rfl⟩ := graphCompute_cases he
          rw [graphMessage_serializeGraph hv.2] at hread
          obtain ⟨rfl, rfl⟩ := Prod.mk.inj (Option.some.inj hread)
          refine ⟨fun b' hb' => update_of_ne (fun h => hd ?_) .., update_of_ne ?_ ..⟩
          · rw [← h]
            exact hb'
          · exact fun h => hd (UInt32.toNat_inj.mp h).symm

theorem exec_quiet {as : List Action} (hv : Run.Meets (step T device) (Valid device) w as)
    (hs : Run.Meets (step T device) (fun w a => ¬ Sends device d w a) w as)
    (h : Run.exec (step T device) w as = some w') :
    (∀ b, device b = d → w'.lastGraph b = w.lastGraph b) ∧
      w'.server.stored d.toNat = w.server.stored d.toNat := by
  refine Run.exec_invariant (I := fun v : World => (∀ b, device b = d →
    v.lastGraph b = w.lastGraph b) ∧ v.server.stored d.toNat = w.server.stored d.toNat)
    (fun v a v' hI hP hstep => ?_) ⟨fun _ _ => rfl, rfl⟩ (hv.and hs) h
  obtain ⟨hcache, hstored⟩ := step_quiet hP.1 hP.2 hstep
  exact ⟨fun b hb => (hcache b hb).trans (hI.1 b hb), hstored.trans hI.2⟩

/-- A backend that has a graph in its cache is behind a last graph that was sent for its device. -/
theorem exists_lastSent {as : List Action}
    (hv : Run.Meets (step T device) (Valid device) (init c s) as)
    (h : Run.exec (step T device) (init c s) as = some w) (hb : w.lastGraph b ≠ []) :
    ∃ c' b' nodes', LastSent T device (device b) (init c s) as w c' b' nodes' ∧
      c'.WellFormed nodes' ∧ (c'.serializeGraph (device b) nodes').length < 2 ^ 31 ∧
      (b' = b → w.lastGraph b = nodes'.map c'.tensor) ∧
      ∃ buffers g, w.server.stored (device b).toNat = some g ∧
        buildGraph T buffers
          { device := device b, nodes := nodes', tensors := c'.collect nodes' } = .ok g := by
  rcases Run.exists_last (Sends device (device b)) h with
    hnone | ⟨before, a, after, w₁, w₂, rfl, hbefore, hsend, hstep, hquiet, hafter⟩
  · exact absurd ((exec_quiet hv hnone h).1 b rfl) hb
  · obtain ⟨-, hv₁⟩ := Run.meets_append hv hbefore
    cases a with
    | memory => exact hsend.elim
    | message => exact hsend.elim
    | compute b' nodes' =>
      obtain ⟨hwf, hlen⟩ := hv₁.1
      rw [hsend.1] at hlen
      obtain ⟨hcache, g, hg, hbuild⟩ := step_sends hv₁.1 hsend hstep
      obtain ⟨hkeep, hstored⟩ := exec_quiet (hv₁.tail hstep) hquiet hafter
      refine ⟨w₁.client, b', nodes', ⟨before, after, w₁, w₂, rfl, hbefore, rfl, hsend, hstep,
        hquiet, hafter⟩, hwf, hlen, fun hbb => ?_, _, g, hstored.trans hg, hbuild⟩
      rw [hkeep b rfl, ← hbb, hcache]

end World

/-- Memories that send the same for all tensors of a graph walk it the same way. -/
theorem collect_congr (hc : c.WellFormed nodes) (hc' : c'.WellFormed nodes)
    (hall : ∀ p, c.Reaches nodes p → c'.serializeTensor p = c.serializeTensor p) :
    c'.collect nodes = c.collect nodes := by
  have hrefs : ∀ p, c.Reaches nodes p → c'.refs p = c.refs p := by
    intro p hp
    have hsrc : (c'.tensor p).src = (c.tensor p).src := congrArg RpcTensor.src (hall p hp)
    have hview : (c'.tensor p).viewSrc = (c.tensor p).viewSrc :=
      congrArg RpcTensor.viewSrc (hall p hp)
    rw [Client.refs, Client.refs, Tensor.refs, Tensor.refs, hsrc, hview]
  obtain ⟨hnodup, hmem⟩ := Dfs.walk_spec hc.refs_closed hc.nodes (Nat.lt_succ_self c.addrs.card)
  -- the tensors of the graph, a set inside both memories
  let S := (Dfs.walk c.refs (c.addrs.card + 1) nodes).out.toFinset
  have hS : ∀ p, p ∈ S ↔ c.Reaches nodes p := fun p => mem_toFinset.trans (hmem p)
  have hcard : S.card ≤ c.addrs.card :=
    Finset.card_le_card fun p hp => hc.mem_addrs (fun _ _ => rfl) ((hS p).mp hp)
  have hcard' : S.card ≤ c'.addrs.card :=
    Finset.card_le_card fun p hp => hc'.mem_addrs hrefs ((hS p).mp hp)
  have hwalk : Dfs.walk c'.refs (c'.addrs.card + 1) nodes =
    Dfs.walk c.refs (c.addrs.card + 1) nodes :=
    Dfs.walk_congr (S := S) (fun p hp => hrefs p ((hS p).mp hp))
      (fun p hp q hq => (hS q).mpr (Dfs.Reach.step ((hS p).mp hp) hq))
      (fun p hp => (hS p).mpr ⟨p, hp, .refl⟩) (Nat.lt_succ_of_le hcard) (Nat.lt_succ_of_le hcard')
  rw [collect_eq_walk hc.ne_zero, collect_eq_walk hc'.ne_zero, hwalk]
  exact map_congr_left fun p hp => hall p ((hmem p).mp hp)

/-- Two clients send the same message exactly if the nodes are at the same addresses and all tensors
of the graph are sent the same. -/
theorem serializeGraph_eq_iff {nodes' : List UInt64} (hc : c.WellFormed nodes)
    (hc' : c'.WellFormed nodes') (hlen : (c.serializeGraph d nodes).length < 2 ^ 31)
    (hlen' : (c'.serializeGraph d nodes').length < 2 ^ 31) :
    c'.serializeGraph d nodes' = c.serializeGraph d nodes ↔
      nodes' = nodes ∧ ∀ p, c.Reaches nodes p → c'.serializeTensor p = c.serializeTensor p := by
  constructor
  · intro he
    have hread := graphMessage_serializeGraph hlen'
    rw [he, graphMessage_serializeGraph hlen] at hread
    have hm := (Prod.mk.inj (Option.some.inj hread)).1
    obtain ⟨-, hnodes, hcollect⟩ := GraphMessage.mk.inj hm
    refine ⟨hnodes.symm, fun p hp => ?_⟩
    obtain ⟨ps, hps, -, hmem⟩ := collect_eq hc
    obtain ⟨ps', hps', -, -⟩ := collect_eq hc'
    have hin : c.serializeTensor p ∈ ps'.map c'.serializeTensor := by
      rw [← hps', ← hcollect, hps]
      exact mem_map_of_mem ((hmem p).mpr hp)
    obtain ⟨q, -, hq⟩ := mem_map.mp hin
    have hid : q = p := congrArg RpcTensor.id hq
    rw [← hid, hq, hid]
  · rintro ⟨rfl, hall⟩
    rw [Client.serializeGraph, Client.serializeGraph, collect_congr hc hc' hall]

/-- What `is_cached` does not compare is as it was: where the buffers of the nodes are at the
server, and the tensors of the graph that are no nodes. -/
structure Client.Kept (c c' : Client) (nodes : List UInt64) : Prop where
  remote : ∀ p ∈ nodes, (c.tensor p).buffer ≠ 0 →
    c'.remotePtr (c.tensor p).buffer = c.remotePtr (c.tensor p).buffer
  others : ∀ p, c.Reaches nodes p → p ∉ nodes → c'.serializeTensor p = c.serializeTensor p

/-- The structs of the nodes, as `is_cached` compares them. -/
theorem tensor_eq_of_isCached (h : isCached (nodes.map c'.tensor) c nodes) :
    ∀ p ∈ nodes, c'.tensor p = c.tensor p := by
  intro p hp
  refine h.2 (c'.tensor p, p) ?_
  rw [← map_prod_right_eq_zip]
  exact mem_map_of_mem hp

/-- With the structs of the nodes unchanged, the graph is sent the same exactly if what is not
compared is unchanged too. -/
theorem kept_iff (h : isCached (nodes.map c'.tensor) c nodes) :
    (∀ p, c.Reaches nodes p → c'.serializeTensor p = c.serializeTensor p) ↔ c.Kept c' nodes := by
  have hnodes := tensor_eq_of_isCached h
  constructor
  · intro hall
    refine ⟨fun p hp hbuf => ?_, fun p hp _ => hall p hp⟩
    have hsent := congrArg RpcTensor.buffer (hall p ⟨p, hp, .refl⟩)
    simpa [Client.serializeTensor, hnodes p hp, hbuf] using hsent
  · intro hkept p hp
    by_cases hin : p ∈ nodes
    · have hremote := hkept.remote p hin
      by_cases hbuf : (c.tensor p).buffer = 0
      · simp [Client.serializeTensor, hnodes p hin, hbuf]
      · simp [Client.serializeTensor, hnodes p hin, hremote hbuf]
    · exact hkept.others p hp hin

open World in
/-- In every run, a backend that asks for the stored graph is behind a last graph that was sent for
the device, and the server has stored that graph. If the backend has sent it itself, it is the graph
that would be sent now exactly if its nodes are at the same addresses and what `is_cached` does not
compare is unchanged; if another backend has sent it, exactly if it has the same nodes and
tensors. -/
theorem recompute_exact (T : Gguf.Traits) (device : Nat → UInt32) {c : Client} {s : Server}
    {as : List Action} {w : World} {b : Nat} {nodes : List UInt64}
    (hv : Run.Meets (step T device) (Valid device) (World.init c s) (as ++ [.compute b nodes]))
    (h : Run.exec (step T device) (World.init c s) as = some w) (hn : nodes ≠ [])
    (hcached : isCached (w.lastGraph b) w.client nodes) :
    ∃ c' b' nodes', LastSent T device (device b) (World.init c s) as w c' b' nodes' ∧
      (∃ buffers g, w.server.stored (device b).toNat = some g ∧
        buildGraph T buffers
          { device := device b, nodes := nodes', tensors := c'.collect nodes' } = .ok g) ∧
      (b' = b → (c'.serializeGraph (device b) nodes' = w.client.serializeGraph (device b) nodes ↔
        nodes' = nodes ∧ w.client.Kept c' nodes)) ∧
      (b' ≠ b → (c'.serializeGraph (device b) nodes' = w.client.serializeGraph (device b) nodes ↔
        nodes' = nodes ∧ ∀ p, w.client.Reaches nodes p →
          c'.serializeTensor p = w.client.serializeTensor p)) := by
  obtain ⟨hv, hvw, -⟩ := Run.meets_append hv h
  have hlast : w.lastGraph b ≠ [] := by
    intro h0
    have hlen := hcached.1
    rw [h0] at hlen
    exact hn (length_eq_zero_iff.mp hlen.symm)
  obtain ⟨c', b', nodes', hsent, hwf, hlen, hown, hstored⟩ := exists_lastSent hv h hlast
  have hiff := serializeGraph_eq_iff hvw.1 hwf hvw.2 hlen
  refine ⟨c', b', nodes', hsent, hstored, fun hb => hiff.trans (and_congr_right fun hnodes => ?_),
    fun _ => hiff⟩
  subst hnodes
  exact kept_iff (hown hb ▸ hcached)

/-- A backend of the only device sends a graph of the diamond. -/
theorem step_diamond (hc : w.client = diamondClient) (hs : w.server.buffers = diamondServer.buffers)
    (hb : w.server.nBackends = 1) (hn : nodes ≠ []) (hin : ∀ p ∈ nodes, p ∈ diamondClient.addrs)
    (hlen : nodes.length ≤ 4) (hnew : ¬ isCached (w.lastGraph b) diamondClient nodes) :
    ∃ s : Server, s.buffers = diamondServer.buffers ∧ s.nBackends = 1 ∧
      w.step Gguf.ggmlTraits (fun _ => 0) (.compute b nodes) = some
        { client := diamondClient
          lastGraph := update w.lastGraph b (nodes.map diamondClient.tensor)
          server := s } := by
  have hdev : (0 : UInt32).toNat < w.server.nBackends := by
    rw [hb]
    exact Nat.one_pos
  obtain ⟨ctx, hrun, -, -⟩ :=
    graphCompute_builds (T := Gguf.ggmlTraits) (diamond_wellFormed hin) hdev
    (length_diamond hin hlen 0) fun p _ => hs ▸ diamond_sendable p
  let g : Graph := { tensors := ctx.tensors, nodes := nodes.map ctx.map }
  refine ⟨{ w.server with stored := update w.server.stored 0 (some g) }, hs, hb, ?_⟩
  simp only [World.step, World.graphCompute, if_neg hn, hc, if_neg hnew, Server.handle, hrun]
  rfl

/-- The diamond with the number 4 at another place. -/
def movedClient : Client :=
  { diamondClient with
    tensor := fun p => { diamondClient.tensor p with data := if p = 4 then 68 else 64 } }

/-- After the first backend has sent the graph of 2. -/
def firstWorld (s : Server) : World :=
  { client := diamondClient
    lastGraph := update (fun _ => []) 0 [diamondClient.tensor 2]
    server := s }

theorem step_first : ∃ s : Server, s.buffers = diamondServer.buffers ∧ s.nBackends = 1 ∧
    (World.init diamondClient diamondServer).step Gguf.ggmlTraits (fun _ => 0) (.compute 0 [2]) =
      some (firstWorld s) :=
  step_diamond rfl rfl rfl (by simp) (by simp [mem_diamond]) (by decide) fun h => by cases h.1

/-- After the second backend has sent the graph of 3. -/
def secondWorld (s : Server) : World :=
  { client := diamondClient
    lastGraph := update (update (fun _ => []) 0 [diamondClient.tensor 2]) 1 [diamondClient.tensor 3]
    server := s }

theorem step_second (hs : s.buffers = diamondServer.buffers) (hb : s.nBackends = 1) :
    ∃ s' : Server, (firstWorld s).step Gguf.ggmlTraits (fun _ => 0) (.compute 1 [3]) =
      some (secondWorld s') := by
  obtain ⟨s', -, -, hstep⟩ := @step_diamond [3] (firstWorld s) 1 rfl hs hb (by simp)
    (by simp [mem_diamond]) (by decide) fun h => by cases h.1
  exact ⟨s', hstep⟩

theorem valid_diamond (hc : w.client = diamondClient) (hin : ∀ p ∈ nodes, p ∈ diamondClient.addrs)
    (hlen : nodes.length ≤ 4) : w.Valid (fun _ => 0) (.compute b nodes) := by
  refine ⟨?_, ?_⟩ <;> rw [hc]
  · exact diamond_wellFormed hin
  · exact length_diamond hin hlen 0

open World in
/-- The first backend sends its graph last, and nothing changes before it computes it again. -/
theorem recompute_exact_twice :
    ∃ w c' b' nodes', LastSent Gguf.ggmlTraits (fun _ => 0) 0
        (World.init diamondClient diamondServer) [.compute 0 [2]] w c' b' nodes' ∧
      isCached (w.lastGraph 0) w.client [2] ∧
      c'.serializeGraph 0 nodes' = w.client.serializeGraph 0 [2] := by
  obtain ⟨s, -, -, hstep⟩ := step_first
  have hv : Run.Meets (step Gguf.ggmlTraits fun _ => 0) (Valid fun _ => 0)
      (World.init diamondClient diamondServer) ([.compute 0 [2]] ++ [.compute 0 [2]]) := by
    refine ⟨valid_diamond rfl (by simp [mem_diamond]) (by decide), ?_⟩
    rw [hstep]
    refine ⟨valid_diamond rfl (by simp [mem_diamond]) (by decide), ?_⟩
    split <;> trivial
  have hexec : Run.exec (step Gguf.ggmlTraits fun _ => 0) (World.init diamondClient diamondServer)
      [.compute 0 [2]] = some (firstWorld s) := by
    rw [Run.exec_cons, hstep, Option.bind_some]
    rfl
  have hcached : isCached ((firstWorld s).lastGraph 0) (firstWorld s).client [2] := by
    simp [isCached, firstWorld]
  obtain ⟨c', b', nodes', hsent, -, hown, -⟩ :=
    recompute_exact Gguf.ggmlTraits (fun _ => 0) hv hexec
    (by simp) hcached
  refine ⟨_, c', b', nodes', hsent, hcached, ?_⟩
  obtain ⟨before, after, w₁, w₂, has, hbefore, hc, -⟩ := hsent
  cases before with
  | nil =>
    cases has
    obtain rfl := Option.some.inj hbefore
    obtain rfl := hc
    exact (hown rfl).mpr ⟨rfl, fun _ _ _ => rfl, fun _ _ _ => rfl⟩
  | cons a before => exact absurd (cons.inj has).2 (by simp)

theorem movedClient_wellFormed : movedClient.WellFormed [2] :=
  ⟨by simp [movedClient, mem_diamond], by simp [movedClient, mem_diamond], fun _ _ _ hq =>
    diamond_refs hq⟩

theorem length_moved : (movedClient.serializeGraph 0 [2]).length < 2 ^ 31 := by
  obtain ⟨ps, hps, hnodup, hmem⟩ := collect_eq movedClient_wellFormed
  have hcard : ps.toFinset.card ≤ movedClient.addrs.card := Finset.card_le_card fun p hp =>
    movedClient_wellFormed.mem_addrs (fun _ _ => rfl) ((hmem p).mp (mem_toFinset.mp hp))
  have haddrs : movedClient.addrs.card = 4 := rfl
  rw [toFinset_card_of_nodup hnodup] at hcard
  rw [length_serializeGraph, hps, length_map, length_singleton]
  omega

open World in
/-- Two runs in which a backend asks for a graph that the server does not have: another backend of
the device has sent its own graph in between, or a source that is no node has moved. -/
theorem recompute_other_graph :
    (∃ w, Run.Meets (step Gguf.ggmlTraits fun _ => 0) (Valid fun _ => 0)
          (World.init diamondClient diamondServer)
          [.compute 0 [2], .compute 1 [3], .compute 0 [2]] ∧
        LastSent Gguf.ggmlTraits (fun _ => 0) 0 (World.init diamondClient diamondServer)
          [.compute 0 [2], .compute 1 [3]] w diamondClient 1 [3] ∧
        isCached (w.lastGraph 0) w.client [2] ∧
        diamondClient.serializeGraph 0 [3] ≠ w.client.serializeGraph 0 [2]) ∧
      ∃ w, Run.Meets (step Gguf.ggmlTraits fun _ => 0) (Valid fun _ => 0)
          (World.init diamondClient diamondServer)
          [.compute 0 [2], .memory movedClient, .compute 0 [2]] ∧
        LastSent Gguf.ggmlTraits (fun _ => 0) 0 (World.init diamondClient diamondServer)
          [.compute 0 [2], .memory movedClient] w diamondClient 0 [2] ∧
        isCached (w.lastGraph 0) w.client [2] ∧
        diamondClient.serializeGraph 0 [2] ≠ w.client.serializeGraph 0 [2] := by
  obtain ⟨s, hs, hb, hstep⟩ := step_first
  obtain ⟨s', hstep'⟩ := step_second hs hb
  have h2 : ∀ p ∈ [2], p ∈ diamondClient.addrs := by simp [mem_diamond]
  have h3 : ∀ p ∈ [3], p ∈ diamondClient.addrs := by simp [mem_diamond]
  have hlen2 := length_diamond h2 (by decide) 0
  constructor
  · refine ⟨secondWorld s', ?_, ?_, ?_, ?_⟩
    · refine ⟨valid_diamond rfl (by simp [mem_diamond]) (by decide), ?_⟩
      rw [hstep]
      refine ⟨valid_diamond rfl (by simp [mem_diamond]) (by decide), ?_⟩
      rw [hstep']
      refine ⟨valid_diamond rfl (by simp [mem_diamond]) (by decide), ?_⟩
      split <;> trivial
    · refine ⟨[.compute 0 [2]], [], firstWorld s, secondWorld s', rfl, ?_, rfl, ⟨rfl, fun h => ?_⟩,
        hstep', trivial, rfl⟩
      · rw [Run.exec_cons, hstep, Option.bind_some]
        rfl
      · cases h.1
    · simp [isCached, secondWorld]
    · intro he
      have hiff := serializeGraph_eq_iff (diamond_wellFormed h2) (diamond_wellFormed h3) hlen2
        (length_diamond h3 (by decide) 0)
      exact absurd (hiff.mp he).1 (by decide)
  · refine ⟨{ firstWorld s with client := movedClient }, ?_, ?_, ?_, ?_⟩
    · refine ⟨valid_diamond rfl (by simp [mem_diamond]) (by decide), ?_⟩
      rw [hstep]
      refine ⟨trivial, ⟨movedClient_wellFormed, length_moved⟩, ?_⟩
      split <;> trivial
    · exact ⟨[], [.memory movedClient], World.init diamondClient diamondServer, firstWorld s, rfl,
        rfl, rfl, ⟨rfl, fun h => by cases h.1⟩, hstep, ⟨id, trivial⟩, rfl⟩
    · simp [isCached, firstWorld, movedClient, diamondClient]
    · intro he
      have hiff := serializeGraph_eq_iff movedClient_wellFormed (diamond_wellFormed h2) length_moved
        hlen2
      have hreach : movedClient.Reaches [2] 4 :=
        ⟨2, by simp, Relation.ReflTransGen.single (by simp [Client.refs, Tensor.refs, movedClient,
          diamondClient])⟩
      exact absurd (congrArg RpcTensor.data ((hiff.mp he).2 4 hreach)) (by decide)

end Llama.Rpc
