import CardinalityTracker.Reference.Peers
import CardinalityTracker.ServerTheorems

/-!
# Sharding is transparent

A cluster whose servers have been started with one list of peers answers as a single engine
would. The abstract service is `Engine.answer`, one engine and no routing; `Shards` relates
a cluster to it: every group is at its owner, as the one engine has it, and nowhere else.
`Shards.serve` is the simulation step, at whatever server a request enters. A single server
without a router is a cluster of one, so the same step serves for both sides of
`sharding_transparent`.
-/

namespace CardinalityTracker

open Lib

variable {σ ι N : Type} {alg : Algorithm σ}

/-! ## The abstract service -/

/-- What one engine does with a request. -/
def Engine.work (e : Engine alg) : Request → Engine alg × Except Status Response
  | .add group id => ((e.add group id).1, .ok (.added true))
  | .batchAdd group ids => (ids.foldl (fun e id => (e.add group id).1) e, .ok (.added true))
  | .query group _ =>
    let card := match e.cardinality group with
      | .ok card => card
      | .error _ => 0
    (e, .ok (.cardinality group card))

/-- A request to one engine. -/
def Engine.answer (e : Engine alg) (req : Request) : Engine alg × Except Status Response :=
  if req.group = [] then (e, .error .groupRequired) else e.work req

/-- A sequence of requests to one engine. -/
def Engine.answers : Engine alg → List Request → List (Except Status Response)
  | _, [] => []
  | e, req :: reqs => (e.answer req).2 :: (e.answer req).1.answers reqs

theorem Engine.getElem?_add (e : Engine alg) (group g : GoString) (id : UInt64) :
    (e.add group id).1.groups[g]?
      = if group = g then some (alg.add (e.sketchOrNew group) id) else e.groups[g]? :=
  getElem?_insert_ite ..

/-! ## The relation -/

namespace Cluster

variable [DecidableEq ι]

/-- The servers hold the groups of `e`, each at its owner only, and route accordingly. At
every moment so far a group has been at no other server than its owner. -/
structure Shards (net : Network ι N) (addr : ι → GoString) (owner : GoString → ι)
    (rings : ι → Option Ring) (c : Cluster ι alg N) (e : Engine alg) : Prop where
  forwardTo : ∀ i g, (c.servers i).forwardTo net.sum32 g
    = if i = owner g then none else some (addr (owner g))
  node : ∀ i, (c.servers i).node = none
  groups : ∀ i g, (c.servers i).engine.groups[g]? = if i = owner g then e.groups[g]? else none
  router : ∀ i, (c.servers i).router = rings i
  moments : ∀ view ∈ c.moments, ∀ i, (view i).router = rings i ∧
    ∀ g sk, (view i).engine.groups[g]? = some sk → i = owner g

/-- What is assumed of the network: saves succeed, and so do calls between servers, which
reach the server of the address. -/
structure Works (net : Network ι N) (addr : ι → GoString) : Prop where
  save : ∀ i k, net.out i k = .ok
  call : ∀ i j, i ≠ j → net.dial (addr j) = none ∧ net.reach (addr j) = some j

namespace Shards

variable {net : Network ι N} {addr : ι → GoString} {owner : GoString → ι}
  {rings : ι → Option Ring} {c : Cluster ι alg N} {e e' : Engine alg} {i : ι}

theorem receive (h : Shards net addr owner rings c e) (i : ι) (req : Request) :
    Shards net addr owner rings (c.receive i req) e :=
  ⟨h.forwardTo, h.node, h.groups, h.router, h.moments⟩

/-- One server changes, and with it the abstract engine. -/
theorem put (h : Shards net addr owner rings c e) {s : Server alg N}
    (hrouter : s.router = (c.servers i).router) (hself : s.selfAddr = (c.servers i).selfAddr)
    (hnode : s.node = (c.servers i).node)
    (hgroups : ∀ g, s.engine.groups[g]? = if i = owner g then e'.groups[g]? else none)
    (hothers : ∀ g, owner g ≠ i → e'.groups[g]? = e.groups[g]?) :
    Shards net addr owner rings (c.put i s) e' := by
  have hroutes : (c.put i s).routes = c.routes := routes_put hrouter hself
  -- the groups of the other servers have not changed in the abstract engine either
  have hgroups' : ∀ j g, ((c.put i s).servers j).engine.groups[g]?
      = if j = owner g then e'.groups[g]? else none := by
    intro j g
    by_cases hj : j = i
    · subst hj
      rw [servers_put_self, hgroups]
    · rw [servers_put_of_ne c hj, h.groups]
      by_cases howner : j = owner g
      · rw [if_pos howner, if_pos howner, hothers g (howner ▸ hj)]
      · rw [if_neg howner, if_neg howner]
  have hrouter' : ∀ j, ((c.put i s).servers j).router = rings j := by
    intro j
    exact (congrArg Prod.fst (congrFun hroutes j)).trans (h.router j)
  refine ⟨fun j g => ?_, fun j => ?_, hgroups', hrouter', fun view hview j => ?_⟩
  · rw [forwardTo_of_routes hroutes, h.forwardTo]
  · by_cases hj : j = i
    · subst hj
      rw [servers_put_self, hnode, h.node]
    · rw [servers_put_of_ne c hj, h.node]
  · rw [moments_put, List.mem_append, List.mem_singleton] at hview
    rcases hview with hview | rfl
    · exact h.moments view hview j
    · -- the new moment
      refine ⟨hrouter' j, fun g sk hsk => ?_⟩
      rw [hgroups'] at hsk
      by_contra howner
      rw [if_neg howner] at hsk
      cases hsk

/-- Connections are no part of the relation. -/
theorem putConns (h : Shards net addr owner rings c e) (i : ι) (conns : StringMap Unit) :
    Shards net addr owner rings (c.put i { c.servers i with conns }) e :=
  h.put rfl rfl rfl (h.groups i) fun _ _ => rfl

/-! ## The simulation -/

/-- An add at the owner of its group is an add to the one engine. -/
theorem addLocal (h : Shards net addr owner rings c e) (hnet : Works net addr)
    (group : GoString) (id : UInt64) :
    ∃ c', Cluster.addLocal net (owner group) group id c = (c', none) ∧
      Shards net addr owner rings c' (e.add group id).1 := by
  have hsaved : ∀ b st, (Store.save (net.out (owner group)) group b st).2 = none := by
    intro b st
    unfold Store.save
    rw [hnet.save]
  unfold Cluster.addLocal
  simp only [h.node, Engine.addAndPersist, hsaved, Option.map_none]
  refine ⟨_, rfl, h.put rfl rfl (h.node _).symm (fun g => ?_) fun g hg => ?_⟩
  · -- the owner has the group as the one engine has it, so it installs the same sketch
    have hsame : (c.servers (owner group)).engine.sketchOrNew group = e.sketchOrNew group := by
      unfold Engine.sketchOrNew
      rw [h.groups, if_pos rfl]
    rw [getElem?_insert_ite, Engine.getElem?_add, hsame, h.groups]
    by_cases hg : group = g
    · rw [if_pos hg, if_pos hg, hg, if_pos rfl]
    · rw [if_neg hg, if_neg hg]
  · have hne : group ≠ g := fun hgroup => hg (by rw [hgroup])
    rw [Engine.getElem?_add, if_neg hne]

theorem addLocals (h : Shards net addr owner rings c e) (hnet : Works net addr)
    (group : GoString) (ids : List UInt64) :
    ∃ c', Cluster.addLocals net (owner group) group ids c = (c', none) ∧
      Shards net addr owner rings c' (ids.foldl (fun e id => (e.add group id).1) e) := by
  induction ids generalizing c e with
  | nil => exact ⟨c, rfl, h⟩
  | cons id ids ih =>
    obtain ⟨c', hadd, h'⟩ := h.addLocal hnet group id
    unfold Cluster.addLocals
    rw [hadd]
    exact ih h'

/-- A request at the owner of its group does the work of the one engine. -/
theorem handleLocal (h : Shards net addr owner rings c e) (hnet : Works net addr)
    (req : Request) :
    ∃ c', Cluster.handleLocal net (owner req.group) req c = (c', (e.work req).2) ∧
      Shards net addr owner rings c' (e.work req).1 := by
  cases req with
  | add group id =>
    obtain ⟨c', hadd, h'⟩ := h.addLocal hnet group id
    refine ⟨c', ?_, h'⟩
    simp only [Cluster.handleLocal, Request.group, hadd]
    rfl
  | batchAdd group ids =>
    obtain ⟨c', hadd, h'⟩ := h.addLocals hnet group ids
    refine ⟨c', ?_, h'⟩
    simp only [Cluster.handleLocal, Request.group, hadd]
    rfl
  | query group staleOk =>
    have hsame : (c.servers (owner group)).engine.cardinality group = e.cardinality group := by
      unfold Engine.cardinality
      rw [h.groups, if_pos rfl]
    refine ⟨c, ?_, h⟩
    simp only [Cluster.handleLocal, Request.group, hsame]
    rfl

/-- A request that reaches the owner of its group. -/
theorem serve_owner (h : Shards net addr owner rings c e) (hnet : Works net addr)
    {req : Request} (hgroup : req.group ≠ []) (hops : ℕ) :
    ∃ c', Cluster.serve net (hops + 1) (owner req.group) req c = (c', (e.work req).2) ∧
      Shards net addr owner rings c' (e.work req).1 ∧
      c'.received.length = c.received.length + 1 := by
  obtain ⟨c', hhandle, h'⟩ := (h.receive (owner req.group) req).handleLocal hnet req
  have hreceived := handleLocal_received net (owner req.group) req
    (c.receive (owner req.group) req)
  rw [hhandle] at hreceived
  rw [serve_of_local hgroup (by rw [h.forwardTo, if_pos rfl]), hhandle]
  refine ⟨c', rfl, h', ?_⟩
  rw [show c'.received = _ from hreceived, Cluster.receive, List.length_append,
    List.length_singleton]

/-- **One request**, at whatever server it enters. It is answered as by the one engine and
reaches its owner in at most one hop. -/
theorem serve (h : Shards net addr owner rings c e) (hnet : Works net addr) (i : ι)
    (req : Request) {hops : ℕ} (hhops : 2 ≤ hops) :
    ∃ c', Cluster.serve net hops i req c = (c', (e.answer req).2) ∧
      Shards net addr owner rings c' (e.answer req).1 ∧
      c'.received.length ≤ c.received.length + 2 := by
  obtain ⟨hops, rfl⟩ := Nat.exists_eq_add_of_le' hhops
  unfold Engine.answer
  by_cases hgroup : req.group = []
  · rw [serve_of_no_group hgroup, if_pos hgroup]
    refine ⟨_, rfl, h.receive i req, ?_⟩
    rw [Cluster.receive, List.length_append, List.length_singleton]
    omega
  rw [if_neg hgroup]
  by_cases howner : i = owner req.group
  · obtain ⟨c', hserve, h', hlength⟩ := h.serve_owner hnet hgroup (hops + 1)
    rw [howner, hserve]
    exact ⟨c', rfl, h', by omega⟩
  · -- forwarded once: the owner's own decision is not to forward
    obtain ⟨hdial, hreach⟩ := hnet.call i (owner req.group) howner
    obtain ⟨conns, hserve⟩ := serve_of_forward hgroup
      (by rw [h.forwardTo, if_neg howner]) hdial hreach (hops + 1)
    obtain ⟨c', howned, h', hlength⟩ :=
      ((h.receive i req).putConns i conns).serve_owner hnet hgroup hops
    rw [hserve]
    dsimp only
    rw [show Cluster.serve net (hops + 1) (owner req.group) req
      ((c.receive i req).put i { c.servers i with conns }) = _ from howned]
    refine ⟨c', ?_, h', ?_⟩
    · cases req <;> rfl
    · rw [hlength, received_put, Cluster.receive, List.length_append, List.length_singleton]

/-- **A sequence of requests**: the responses are those of the one engine, and no request is
forwarded more than once. -/
theorem submitAll (h : Shards net addr owner rings c e) (hnet : Works net addr) {hops : ℕ}
    (hhops : 2 ≤ hops) (entries : List (ι × Request)) :
    (∃ e', Shards net addr owner rings (Cluster.submitAll net hops entries c).1 e') ∧
      (Cluster.submitAll net hops entries c).2.map Reply.response
        = e.answers (entries.map Prod.snd) ∧
      ∀ reply ∈ (Cluster.submitAll net hops entries c).2, reply.received.length ≤ 2 := by
  induction entries generalizing c e with
  | nil => exact ⟨⟨e, h⟩, rfl, fun reply hreply => absurd hreply List.not_mem_nil⟩
  | cons entry entries ih =>
    -- who received the earlier requests is no part of the relation
    have hstart : Shards net addr owner rings { c with received := [] } e :=
      ⟨h.forwardTo, h.node, h.groups, h.router, h.moments⟩
    obtain ⟨c', hserve, h', hlength⟩ := hstart.serve hnet entry.1 entry.2 hhops
    obtain ⟨hend, hanswers, hreceived⟩ := ih h'
    unfold Cluster.submitAll Cluster.submit
    rw [hserve]
    refine ⟨hend, ?_, fun reply hreply => ?_⟩
    · rw [List.map_cons, hanswers]
      rfl
    · rcases List.mem_cons.mp hreply with rfl | hreply
      · exact hlength
      · exact hreceived reply hreply

end Shards

/-! ## The clusters at startup -/

/-- One server for each entry of the list, started with the list and its position, in
standalone mode. -/
def start (sum32 : Bytes → UInt32) (alg : Algorithm σ) (N : Type) (peerAddrs : List GoString) :
    Cluster (Fin peerAddrs.length) alg N :=
  ⟨fun i => Server.new (Engine.new alg) Store.empty none (some (ringOf sum32 peerAddrs))
    (selfAddrOf peerAddrs (i + 1)), [], []⟩

/-- A single server without a router. -/
def alone (alg : Algorithm σ) (N : Type) : Cluster Unit alg N :=
  ⟨fun _ => Server.new (Engine.new alg) Store.empty none none [], [], []⟩

theorem selfAddrOf_succ {peerAddrs : List GoString} (i : Fin peerAddrs.length) :
    selfAddrOf peerAddrs (i + 1) = peerAddrs.get i := by
  unfold selfAddrOf
  rw [if_pos ⟨Nat.succ_pos i, i.isLt⟩, Nat.add_sub_cancel, List.getD_eq_getElem _ _ i.isLt]
  rfl

/-- Servers with one list agree on the owner of every group. -/
theorem shards_start {peerAddrs : List GoString} (hnames : [] ∉ peerAddrs)
    (hdistinct : peerAddrs.Nodup) {net : Network (Fin peerAddrs.length) N}
    {owner : GoString → Fin peerAddrs.length}
    (howner : ∀ g, peerAddrs.get (owner g) = (ringOf net.sum32 peerAddrs).resolve net.sum32 g) :
    Shards net peerAddrs.get owner (fun _ => some (ringOf net.sum32 peerAddrs))
      (start net.sum32 alg N peerAddrs) (Engine.new alg) := by
  have hname : ∀ i, peerAddrs.get i ≠ [] := fun i hnil =>
    hnames (hnil ▸ List.get_mem peerAddrs i)
  refine ⟨fun i g => ?_, fun _ => rfl, fun i g => ?_, fun _ => rfl, fun view hview i => ?_⟩
  · -- a server forwards unless the owner is its own address
    have hself : ((start net.sum32 alg N peerAddrs).servers i).selfAddr = peerAddrs.get i :=
      selfAddrOf_succ i
    have hrouter : ((start net.sum32 alg N peerAddrs).servers i).router
        = some (ringOf net.sum32 peerAddrs) := rfl
    unfold Server.forwardTo
    simp only [hrouter, hself, if_neg (hname i), ← howner g]
    by_cases hi : i = owner g
    · rw [if_neg (fun h => h.2 (hi ▸ rfl)), if_pos hi]
    · have hne : peerAddrs.get (owner g) ≠ peerAddrs.get i := fun heq =>
        hi (hdistinct.injective_get heq).symm
      rw [if_pos ⟨hname (owner g), hne⟩, if_neg hi]
  · show (∅ : StringMap σ)[g]? = if i = owner g then (∅ : StringMap σ)[g]? else none
    simp
  · obtain rfl : view = (start net.sum32 alg N peerAddrs).servers := List.mem_singleton.mp hview
    refine ⟨rfl, fun g sk hsk => ?_⟩
    rw [show ((start net.sum32 alg N peerAddrs).servers i).engine.groups[g]? = none from
      Std.ExtTreeMap.getElem?_empty] at hsk
    cases hsk

theorem shards_alone (net : Network Unit N) :
    Shards net (fun _ => []) (fun _ => ()) (fun _ => none) (alone alg N) (Engine.new alg) := by
  refine ⟨fun _ _ => rfl, fun _ => rfl, fun _ _ => (if_pos rfl).symm, fun _ => rfl, ?_⟩
  intro view hview i
  obtain rfl : view = (alone alg N).servers := List.mem_singleton.mp hview
  exact ⟨rfl, fun _ _ _ => rfl⟩

/-- **Sharding is transparent.** Servers started with one list of non-empty, distinct
addresses, whatever the hash, answer every sequence of requests, at whatever servers they
enter, as a single server without a router does. No request is forwarded more than once, and
at every moment a group is in the engine of no other server than the one that every ring
resolves it to. -/
theorem sharding_transparent (alg : Algorithm σ) (peerAddrs : List GoString)
    (hnames : [] ∉ peerAddrs) (hdistinct : peerAddrs.Nodup)
    (net : Network (Fin peerAddrs.length) N) (hnet : Works net peerAddrs.get)
    (single : Network Unit N) (hsingle : ∀ k, single.out () k = .ok)
    (hops : ℕ) (hhops : 2 ≤ hops) (entries : List (Fin peerAddrs.length × Request)) :
    let sharded := submitAll net hops entries (start net.sum32 alg N peerAddrs)
    let alone := submitAll single hops (entries.map fun entry => ((), entry.2)) (alone alg N)
    sharded.2.map Reply.response = alone.2.map Reply.response ∧
      (∀ reply ∈ sharded.2, reply.received.length ≤ 2) ∧
      ∀ view ∈ sharded.1.moments, ∀ i g sk, (view i).engine.groups[g]? = some sk →
        ∀ j, ∃ ring, (view j).router = some ring ∧
          ring.resolve net.sum32 g = peerAddrs.get i := by
  intro sharded alone
  have hsingle' : Works single fun _ => [] := ⟨fun _ => hsingle, fun _ _ h => absurd rfl h⟩
  obtain ⟨-, halone, -⟩ := (shards_alone single).submitAll hsingle' hhops
    (entries.map fun entry => ((), entry.2))
  have hreqs : (entries.map fun entry => ((), entry.2)).map Prod.snd = entries.map Prod.snd := by
    rw [List.map_map]
    rfl
  by_cases hne : peerAddrs = []
  · -- there is no server to send a request to
    subst hne
    rcases entries with _ | ⟨entry, _⟩
    · exact ⟨rfl, fun reply hreply => absurd hreply List.not_mem_nil, fun _ _ i => i.elim0⟩
    · exact entry.1.elim0
  · have hindex : ∀ g, ∃ i, peerAddrs.get i
        = (ringOf net.sum32 peerAddrs).resolve net.sum32 g := fun g =>
      List.get_of_mem (Ring.resolve_ringOf net.sum32 hne g).1
    -- the owner of a group is the position of the address it resolves to
    choose owner howner using hindex
    obtain ⟨⟨e, hend⟩, hanswers, hreceived⟩ :=
      (shards_start hnames hdistinct howner).submitAll hnet hhops entries
    refine ⟨?_, hreceived, fun view hview i g sk hsk j => ?_⟩
    · rw [hanswers, halone, hreqs]
    · refine ⟨_, (hend.moments view hview j).1, ?_⟩
      rw [(hend.moments view hview i).2 g sk hsk, howner]

/-- Two servers: an add that enters at one, a query that enters at the other, and a batch. -/
theorem sharding_transparent_two :
    (submitAll TwoServers.net 2
        [(0, .add (str "metrics") 1), (1, .query (str "metrics") false),
          (0, .batchAdd (str "cpu") [1, 2])]
        (start Murmur3.sum32 (Hll.algorithm Murmur3.sum64) Unit
          [str "a", str "b"])).2.map Reply.response
      = (submitAll TwoServers.alone 2
        [((), .add (str "metrics") 1), ((), .query (str "metrics") false),
          ((), .batchAdd (str "cpu") [1, 2])]
        (alone (Hll.algorithm Murmur3.sum64) Unit)).2.map Reply.response := by
  have hreach : ∀ j, TwoServers.net.reach ([str "a", str "b"].get j) = some j := by decide
  have hnet : Works TwoServers.net [str "a", str "b"].get :=
    ⟨fun _ _ => rfl, fun _ j _ => ⟨rfl, hreach j⟩⟩
  exact (sharding_transparent (Hll.algorithm Murmur3.sum64) [str "a", str "b"] (by decide)
    (by decide) TwoServers.net hnet TwoServers.alone (fun _ => rfl) 2 le_rfl
    [(0, .add (str "metrics") 1), (1, .query (str "metrics") false),
      (0, .batchAdd (str "cpu") [1, 2])]).1

end Cluster
end CardinalityTracker
