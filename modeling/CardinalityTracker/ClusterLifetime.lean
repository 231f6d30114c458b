import CardinalityTracker.Reference.Peers
import CardinalityTracker.ServerTheorems
import CardinalityTracker.Standalone

/-!
# A cluster over its lifetime

`Sharding.lean` is about servers that agree on their peers in a network without failures. Here
nothing of that is assumed: every server has a ring of its own, saves fail, and servers are
restarted one at a time with other peers; from request to request other dials fail, addresses lead
nowhere or to the wrong server, and requests or their answers come too late. `acked_adds_held` says
what still holds: an add that was answered with `Ok: true` is in the engine and in the store of some
server, and no server has an id that no client has submitted to that group. What more can be said
when the peers do not change is in `ClusterReads.lean`.

A request changes at most one engine, that of the last server it reaches. The proof carries a pair
of maps for each server (`Lib.Copies`) and follows the request through its hops (`Serves`).
-/

namespace CardinalityTracker

open Lib

variable {σ ι N : Type} {alg : Algorithm σ}

/-- What a request adds. -/
def Request.adds : Request → List (GoString × UInt64)
  | .add group id => [(group, id)]
  | .batchAdd group ids => ids.map fun id => (group, id)
  | .query _ _ => []

namespace Cluster

/-! ## Events -/

/-- What a request meets on its way. -/
structure Conditions (ι : Type) where
  /-- How many servers it can reach before its deadline. -/
  hops : ℕ
  /-- The error of `grpc.Dial`, if any. -/
  dial : GoString → Option GoString
  /-- The server that a call to an address reaches. -/
  reach : GoString → Option ι
  /-- The answer does not come back in time. -/
  lost : Bool

/-- The network under these conditions. -/
def Conditions.network (cond : Conditions ι) (net : Network ι N) : Network ι N :=
  { net with dial := cond.dial, reach := cond.reach }

/-- An event in the life of the cluster. -/
inductive Event (ι : Type)
  /-- A client sends a request to a server. -/
  | request (i : ι) (req : Request) (cond : Conditions ι)
  /-- A server is started again, with this ring and this address of its own. -/
  | restart (i : ι) (router : Option Ring) (selfAddr : GoString)

/-- The cluster, and what its clients have been told. -/
structure Life (ι : Type) (alg : Algorithm σ) (N : Type) where
  cluster : Cluster ι alg N
  answered : List (Request × Except Status Response)

/-- One event. A restart that cannot rebuild the engine ends the server. -/
def live [DecidableEq ι] (net : Network ι N) (life : Life ι alg N) :
    Event ι → Option (Life ι alg N)
  | .request i req cond =>
    let (cluster, resp) := serve (cond.network net) cond.hops i req life.cluster
    some ⟨cluster, life.answered ++ [(req, if cond.lost then .error .deadlineExceeded else resp)]⟩
  | .restart i router selfAddr =>
    let store := (life.cluster.servers i).store
    match restoreAll alg store with
    | (_, some _) => none
    | ((engine, _), none) =>
      some { life with
        cluster := life.cluster.put i (Server.new engine store none router selfAddr) }

/-- Servers that have been started for the first time. -/
def fresh (alg : Algorithm σ) (N : Type) (routers : ι → Option Ring) (addrs : ι → GoString) :
    Life ι alg N :=
  ⟨⟨fun i => Server.new (Engine.new alg) Store.empty none (routers i) (addrs i), [], []⟩, []⟩

/-- The adds that clients have submitted. -/
def submittedAdds (answered : List (Request × Except Status Response)) :
    List (GoString × UInt64) :=
  answered.flatMap fun r => r.1.adds

section Join

variable [SemilatticeSup σ] [OrderBot σ]

/-! ## The servers and their pairs of maps -/

/-- A standalone server with a pair of maps, the stored one below, that hold nothing but `adds`. -/
structure Held (adds : List (GoString × UInt64)) (s : Server alg N)
    (m : Copies GoString σ compare) : Prop where
  node : s.node = none
  live : s.engine.groups = m.live
  stored : s.store.Holds alg m.stored
  below : m.Below
  bounded : m.Bounded (allowed alg adds)

/-- What is stored anywhere stays stored there. -/
def Keeps (ms ms' : ι → Copies GoString σ compare) : Prop :=
  ∀ i g v, (ms i).Durable g v → (ms' i).Durable g v

theorem Held.conns {adds : List (GoString × UInt64)} {s : Server alg N}
    {m : Copies GoString σ compare} (h : Held adds s m) (conns : StringMap Unit) :
    Held adds { s with conns } m :=
  ⟨h.node, h.live, h.stored, h.below, h.bounded⟩

/-- An add on the own server. -/
theorem Held.addAndPersist (halg : alg.IsJoin) {adds : List (GoString × UInt64)} {s : Server alg N}
    {m : Copies GoString σ compare} (h : Held adds s m) (out : ℕ → SaveOutcome) {group : GoString}
    {id : UInt64} (hadd : (group, id) ∈ adds) {engine : Engine alg} {store : Store}
    {err : Option EngineError}
    (hresult : s.engine.addAndPersist group id (Store.save out group) s.store
      = (engine, store, err)) :
    ∃ m', Held adds { s with engine, store } m' ∧ (∀ g v, m.Durable g v → m'.Durable g v) ∧
      (err = none → m'.Durable group (alg.single id)) := by
  -- the add as an event of `Standalone.lean`
  have hinv : Standalone.Inv ⟨s.engine, s.store, adds, []⟩ m :=
    ⟨h.live, h.stored, h.below, fun add hadd => absurd hadd List.not_mem_nil, h.bounded⟩
  obtain ⟨s', hstep, hinv'⟩ := Standalone.inv_add halg out hinv group id
  unfold Standalone.step at hstep
  simp only [hresult, Option.some.injEq] at hstep
  subst hstep
  refine ⟨_, ⟨h.node, hinv'.live, hinv'.stored, hinv'.below, ?_⟩, fun g v hv => hv.apply h.below _,
    fun hnil => ?_⟩
  · refine h.bounded.apply fun v hv => ?_
    obtain rfl := Option.some.inj hv
    exact single_le_allowed halg hadd
  · refine hinv'.acked (group, id) ?_
    rw [if_pos hnil]
    exact List.mem_cons_self

/-! ## One request -/

variable [DecidableEq ι] {adds : List (GoString × UInt64)} {c : Cluster ι alg N}
  {ms : ι → Copies GoString σ compare} {net : Network ι N} {i : ι}

/-- Every server of the cluster has its pair of maps. -/
def AllHeld (adds : List (GoString × UInt64)) (c : Cluster ι alg N)
    (ms : ι → Copies GoString σ compare) : Prop :=
  ∀ i, Held adds (c.servers i) (ms i)

theorem AllHeld.put (h : AllHeld adds c ms) {s : Server alg N} {m : Copies GoString σ compare}
    (hs : Held adds s m) : AllHeld adds (c.put i s) (Function.update ms i m) := by
  intro j
  by_cases hj : j = i
  · subst hj
    rw [servers_put_self, Function.update_self]
    exact hs
  · rw [servers_put_of_ne c hj, Function.update_of_ne hj]
    exact h j

omit [OrderBot σ] in
theorem keeps_update {m : Copies GoString σ compare}
    (hm : ∀ g v, (ms i).Durable g v → m.Durable g v) : Keeps ms (Function.update ms i m) := by
  intro j g v hv
  by_cases hj : j = i
  · subst hj
    rw [Function.update_self]
    exact hm g v hv
  · rw [Function.update_of_ne hj]
    exact hv

theorem AllHeld.addLocal (halg : alg.IsJoin) (h : AllHeld adds c ms) (net : Network ι N) (i : ι)
    {group : GoString} {id : UInt64} (hadd : (group, id) ∈ adds) :
    ∃ ms', AllHeld adds (addLocal net i group id c).1 ms' ∧ Keeps ms ms' ∧
      ((addLocal net i group id c).2 = none → (ms' i).Durable group (alg.single id)) := by
  unfold Cluster.addLocal
  rcases hresult : (c.servers i).engine.addAndPersist group id (Store.save (net.out i) group)
    (c.servers i).store with ⟨engine, store, err⟩
  simp only [(h i).node, hresult]
  obtain ⟨m, hm, hkeeps, hdurable⟩ := (h i).addAndPersist halg (net.out i) hadd hresult
  rw [(h i).node] at hm
  refine ⟨_, h.put hm, keeps_update hkeeps, fun hnil => ?_⟩
  rw [Function.update_self]
  exact hdurable (Option.map_eq_none_iff.mp hnil)

/-- The loop of a batch: what it has stored when it fails stays stored. -/
theorem AllHeld.addLocals (halg : alg.IsJoin) (h : AllHeld adds c ms) (net : Network ι N) (i : ι)
    {group : GoString} {ids : List UInt64} (hadds : ∀ id ∈ ids, (group, id) ∈ adds) :
    ∃ ms', AllHeld adds (addLocals net i group ids c).1 ms' ∧ Keeps ms ms' ∧
      ((addLocals net i group ids c).2 = none →
        ∀ id ∈ ids, (ms' i).Durable group (alg.single id)) := by
  induction ids generalizing c ms with
  | nil => exact ⟨ms, h, fun _ _ _ hv => hv, fun _ id hid => absurd hid List.not_mem_nil⟩
  | cons id ids ih =>
    obtain ⟨ms', h', hkeeps, hdurable⟩ := h.addLocal halg net i (hadds id List.mem_cons_self)
    unfold Cluster.addLocals
    rcases hadd : Cluster.addLocal net i group id c with ⟨c', _ | err⟩
    · rw [hadd] at h' hdurable
      obtain ⟨ms'', h'', hkeeps', hdurable'⟩ :=
        ih h' fun id hid => hadds id (List.mem_cons_of_mem _ hid)
      refine ⟨ms'', h'', fun j g v hv => hkeeps' j g v (hkeeps j g v hv), fun hnil x hx => ?_⟩
      rcases List.mem_cons.mp hx with rfl | hx
      · exact hkeeps' i group _ (hdurable rfl)
      · exact hdurable' hnil x hx
    · rw [hadd] at h'
      exact ⟨ms', h', hkeeps, (by simp)⟩

theorem added_eq_ok {err : Option Status} {resp : Response} (h : added err = .ok resp) :
    err = none := by
  cases err with
  | none => rfl
  | some err => cases h

omit [SemilatticeSup σ] [OrderBot σ] in
theorem addLocals_routes (net : Network ι N) (i : ι) (group : GoString) (ids : List UInt64)
    (c : Cluster ι alg N) : (addLocals net i group ids c).1.routes = c.routes := by
  induction ids generalizing c with
  | nil => rfl
  | cons id ids ih =>
    have hfirst := (addLocal_routes net i group id c).1
    unfold Cluster.addLocals
    rcases hadd : Cluster.addLocal net i group id c with ⟨c', _ | err⟩
    · rw [hadd] at hfirst
      exact (ih c').trans hfirst
    · rw [hadd] at hfirst
      exact hfirst

omit [SemilatticeSup σ] [OrderBot σ] in
theorem handleLocal_routes (net : Network ι N) (i : ι) (req : Request) (c : Cluster ι alg N) :
    (handleLocal net i req c).1.routes = c.routes := by
  cases req with
  | add group id => exact (addLocal_routes net i group id c).1
  | batchAdd group ids => exact addLocals_routes net i group ids c
  | query group staleOk => rfl

/-- A query is answered with what the map has of its group; an absent group reads as empty. -/
def Answers (alg : Algorithm σ) (live : StringMap σ) : Request → Response → Prop
  | .query group _, resp => resp = .cardinality group (live[group]?.elim 0 alg.cardinality)
  | _, _ => True

/-- A request that is handled here. -/
theorem AllHeld.handleLocal (halg : alg.IsJoin) (h : AllHeld adds c ms) (net : Network ι N) (i : ι)
    {req : Request} (hadds : req.adds ⊆ adds) :
    ∃ ms', AllHeld adds (handleLocal net i req c).1 ms' ∧ Keeps ms ms' ∧
      ∀ resp, (handleLocal net i req c).2 = .ok resp →
        (∀ add ∈ req.adds, (ms' i).Durable add.1 (alg.single add.2)) ∧
          Answers alg (ms' i).live req resp := by
  cases req with
  | add group id =>
    obtain ⟨ms', h', hkeeps, hdurable⟩ := h.addLocal halg net i (hadds List.mem_cons_self)
    refine ⟨ms', h', hkeeps, fun resp hresp => ⟨fun add hadd => ?_, trivial⟩⟩
    rw [List.mem_singleton.mp hadd]
    exact hdurable (added_eq_ok hresp)
  | batchAdd group ids =>
    obtain ⟨ms', h', hkeeps, hdurable⟩ :=
      h.addLocals halg net i fun id hid => hadds (List.mem_map_of_mem hid)
    refine ⟨ms', h', hkeeps, fun resp hresp => ⟨fun add hadd => ?_, trivial⟩⟩
    obtain ⟨id, hid, rfl⟩ := List.mem_map.mp hadd
    exact hdurable (added_eq_ok hresp) id hid
  | query group staleOk =>
    refine ⟨ms, h, fun _ _ _ hv => hv, fun resp hresp =>
      ⟨fun add hadd => absurd hadd List.not_mem_nil, ?_⟩⟩
    obtain rfl := Except.ok.inj hresp
    simp only [Answers, Engine.cardinality, (h i).live]
    cases (ms i).live[group]? <;> rfl

omit [SemilatticeSup σ] [OrderBot σ] in
/-- A request of another owner, whether or not it can be reached. -/
theorem handle_eq_forward (call : Call ι alg N) {req : Request} (hgroup : req.group ≠ [])
    {owner : GoString} (h : (c.servers i).forwardTo net.sum32 req.group = some owner) :
    handle net call i req c
      = ((forward net call i owner req c).1, (forward net call i owner req c).2.map req.relay) := by
  cases req with
  | add group id =>
    simp only [Request.group] at hgroup h
    simp only [handle, add, addID, h, if_neg hgroup]
    rcases forward net call i owner (.add group id) c with ⟨c', err | resp⟩ <;> rfl
  | batchAdd group ids =>
    simp only [Request.group] at hgroup h
    simp only [handle, batchAdd, h, if_neg hgroup]
    rcases forward net call i owner (.batchAdd group ids) c with ⟨c', err | resp⟩ <;> rfl
  | query group staleOk =>
    simp only [Request.group] at hgroup h
    simp only [handle, query, h, if_neg hgroup]
    rcases forward net call i owner (.query group staleOk) c with ⟨c', err | resp⟩ <;> rfl

omit [SemilatticeSup σ] [OrderBot σ] [DecidableEq ι] in
theorem exists_conns_getPeerClient (dial : GoString → Option GoString) (s : Server alg N)
    (addr : GoString) : ∃ conns, (s.getPeerClient dial addr).1 = { s with conns } := by
  unfold Server.getPeerClient
  cases s.conns[addr]? with
  | some _ => exact ⟨s.conns, rfl⟩
  | none => cases dial addr <;> exact ⟨_, rfl⟩

/-- What a call or a handler does to the servers of `c`, and what its answer promises: a server that
does not forward such a request has done the work. -/
def Serves (sum32 : Bytes → UInt32) (adds : List (GoString × UInt64)) (c : Cluster ι alg N)
    (ms : ι → Copies GoString σ compare) (req : Request)
    (result : Cluster ι alg N × Except Status Response) : Prop :=
  result.1.routes = c.routes ∧ ∃ ms', AllHeld adds result.1 ms' ∧ Keeps ms ms' ∧
    ∀ resp, result.2 = .ok resp → ∃ j, (c.servers j).forwardTo sum32 req.group = none ∧
      (∀ add ∈ req.adds, (ms' j).Durable add.1 (alg.single add.2)) ∧
      Answers alg (ms' j).live req resp

variable {sum32 : Bytes → UInt32} {c' : Cluster ι alg N} {req : Request}

omit [DecidableEq ι] in
theorem Serves.of_error {err : Status} (hroutes : c'.routes = c.routes) (h : AllHeld adds c' ms) :
    Serves sum32 adds c ms req (c', .error err) :=
  ⟨hroutes, ms, h, fun _ _ _ hv => hv, (by simp)⟩

omit [DecidableEq ι] in
theorem Serves.relay {result : Cluster ι alg N × Except Status Response}
    (h : Serves sum32 adds c ms req result) :
    Serves sum32 adds c ms req (result.1, result.2.map req.relay) := by
  obtain ⟨hroutes, ms', h', hkeeps, hdone⟩ := h
  refine ⟨hroutes, ms', h', hkeeps, fun resp hresp => ?_⟩
  cases hpeer : result.2 with
  | error err =>
    rw [hpeer] at hresp
    cases hresp
  | ok resp' =>
    rw [hpeer] at hresp
    obtain rfl := Except.ok.inj hresp
    obtain ⟨j, hhere, hdurable, hanswers⟩ := hdone resp' hpeer
    refine ⟨j, hhere, hdurable, ?_⟩
    -- the answer of a query is relayed as it is
    cases req with
    | add group id => trivial
    | batchAdd group ids => trivial
    | query group staleOk => exact hanswers

/-- Forwarding changes the connections, and then does what the peer does. -/
theorem AllHeld.forward (hroutes : c'.routes = c.routes) (h : AllHeld adds c' ms)
    {call : Call ι alg N} (owner : GoString)
    (hcall : ∀ c', c'.routes = c.routes → AllHeld adds c' ms →
      Serves sum32 adds c ms req (call owner req c')) :
    Serves sum32 adds c ms req (forward net call i owner req c') := by
  obtain ⟨conns, hconns⟩ := exists_conns_getPeerClient net.dial (c'.servers i) owner
  have hput : AllHeld adds (c'.put i { c'.servers i with conns }) ms := by
    have hsame := h.put (i := i) ((h i).conns conns)
    rwa [Function.update_eq_self] at hsame
  have hputRoutes : (c'.put i { c'.servers i with conns }).routes = c.routes := by
    rw [← hroutes]
    exact routes_put rfl rfl
  unfold Cluster.forward
  rcases hclient : (c'.servers i).getPeerClient net.dial owner with ⟨s, _ | err⟩
  · rw [hclient] at hconns
    obtain rfl := hconns
    exact hcall _ hputRoutes hput
  · rw [hclient] at hconns
    obtain rfl := hconns
    exact .of_error hputRoutes hput

/-- **One request**, through all its hops. -/
theorem AllHeld.serve (halg : alg.IsJoin) (hroutes : c'.routes = c.routes) (h : AllHeld adds c' ms)
    (net : Network ι N) (hops : ℕ) (i : ι) (hadds : req.adds ⊆ adds) :
    Serves net.sum32 adds c ms req (serve net hops i req c') := by
  induction hops generalizing i c' with
  | zero => exact .of_error hroutes h
  | succ hops ih =>
    have hreceive : AllHeld adds (c'.receive i req) ms := h
    have hreceiveRoutes : (c'.receive i req).routes = c.routes := hroutes
    unfold Cluster.serve
    by_cases hgroup : req.group = []
    · rw [handle_of_no_group hgroup]
      exact .of_error hreceiveRoutes hreceive
    cases hforward : (c'.servers i).forwardTo net.sum32 req.group with
    | none =>
      rw [handle_of_local (c := c'.receive i req) hgroup hforward]
      obtain ⟨ms', h', hkeeps, hdone⟩ := hreceive.handleLocal halg net i hadds
      rw [forwardTo_of_routes hroutes] at hforward
      exact ⟨(handleLocal_routes net i req _).trans hreceiveRoutes, ms', h', hkeeps,
        fun resp hresp => ⟨i, hforward, hdone resp hresp⟩⟩
    | some owner =>
      rw [handle_eq_forward (c := c'.receive i req) _ hgroup hforward]
      refine (hreceive.forward hreceiveRoutes owner fun c' hroutes hc' => ?_).relay
      cases net.reach owner with
      | none => exact .of_error hroutes hc'
      | some j => exact ih hroutes hc' j

/-! ## The life of a cluster -/

/-- What holds between two events. -/
structure Inv (life : Life ι alg N) (ms : ι → Copies GoString σ compare) : Prop where
  held : AllHeld (submittedAdds life.answered) life.cluster ms
  acked : ∀ req resp, (req, .ok resp) ∈ life.answered →
    ∃ j, ∀ add ∈ req.adds, (ms j).Durable add.1 (alg.single add.2)

omit [DecidableEq ι] in
theorem inv_fresh (routers : ι → Option Ring) (addrs : ι → GoString) :
    Inv (fresh alg N routers addrs) fun _ => ⟨∅, ∅⟩ := by
  refine ⟨fun i => ⟨rfl, rfl, holds_empty, fun k w hw => absurd hw (by simp), fun k => ?_⟩,
    fun req resp hmem => absurd hmem List.not_mem_nil⟩
  rw [value_empty]
  exact bot_le

omit [DecidableEq ι] in
theorem AllHeld.mono (halg : alg.IsJoin) (h : AllHeld adds c ms) {adds' : List (GoString × UInt64)}
    (hsub : adds ⊆ adds') : AllHeld adds' c ms := by
  intro i
  obtain ⟨hnode, hlive, hstored, hbelow, hbounded⟩ := h i
  exact ⟨hnode, hlive, hstored, hbelow, hbounded.mono (allowed_mono halg hsub)⟩

theorem submittedAdds_concat (answered : List (Request × Except Status Response)) (req : Request)
    (resp : Except Status Response) :
    submittedAdds (answered ++ [(req, resp)]) = submittedAdds answered ++ req.adds := by
  unfold submittedAdds
  rw [List.flatMap_append]
  exact congrArg _ (List.append_nil _)

/-- The request of a client, which from now on counts as submitted. -/
theorem AllHeld.request (halg : alg.IsJoin) {answered : List (Request × Except Status Response)}
    (h : AllHeld (submittedAdds answered) c ms) (net : Network ι N) (hops : ℕ) (i : ι)
    (req : Request) (resp : Except Status Response) :
    Serves net.sum32 (submittedAdds (answered ++ [(req, resp)])) c ms req
      (Cluster.serve net hops i req c) := by
  rw [submittedAdds_concat]
  exact (h.mono halg (List.subset_append_left _ _)).serve halg rfl net hops i
    (List.subset_append_right _ _)

theorem eq_ok_of_not_lost {lost : Bool} {result : Except Status Response} {resp : Response}
    (h : (if lost then .error .deadlineExceeded else result) = .ok resp) : result = .ok resp := by
  cases lost with
  | true => cases h
  | false => exact h

theorem inv_request (halg : alg.IsJoin) (net : Network ι N) {life : Life ι alg N}
    (h : Inv life ms) (i : ι) (req : Request) (cond : Conditions ι) :
    ∃ life', live net life (.request i req cond) = some life' ∧ ∃ ms', Inv life' ms' := by
  obtain ⟨-, ms', h', hkeeps, hdone⟩ :=
    h.held.request halg (cond.network net) cond.hops i req _
  refine ⟨_, rfl, ms', h', fun req' resp hmem => ?_⟩
  rcases List.mem_append.mp hmem with hold | hnew
  · obtain ⟨j, hj⟩ := h.acked req' resp hold
    exact ⟨j, fun add hadd => hkeeps j _ _ (hj add hadd)⟩
  · obtain ⟨rfl, hresp⟩ := Prod.mk.inj (List.mem_singleton.mp hnew)
    obtain ⟨j, -, hdurable, -⟩ := hdone resp (eq_ok_of_not_lost hresp.symm)
    exact ⟨j, hdurable⟩

/-- A server finds in its store what it has stored. -/
theorem AllHeld.restart (halg : alg.IsJoin) {life : Life ι alg N} (h : AllHeld adds life.cluster ms)
    (net : Network ι N) (i : ι) (router : Option Ring) (selfAddr : GoString) :
    ∃ s : Server alg N, s.router = router ∧ s.selfAddr = selfAddr ∧
      live net life (.restart i router selfAddr)
        = some { life with cluster := life.cluster.put i s } ∧
      ∃ ms', AllHeld adds (life.cluster.put i s) ms' ∧ Keeps ms ms' := by
  obtain ⟨hnode, hlive, hstored, hbelow, hbounded⟩ := h i
  have hheld : Held adds
      (Server.new (⟨(ms i).stored⟩ : Engine alg) (life.cluster.servers i).store (none : Option N)
        router selfAddr) (ms i).restart :=
    ⟨rfl, rfl, hstored, (ms i).below_restart, hbounded.restart hbelow⟩
  refine ⟨_, rfl, rfl, ?_, _, h.put hheld, keeps_update fun g v hv => hv⟩
  unfold live
  dsimp only
  rw [restoreAll_of_holds halg hstored]

theorem inv_restart (halg : alg.IsJoin) (net : Network ι N) {life : Life ι alg N}
    (h : Inv life ms) (i : ι) (router : Option Ring) (selfAddr : GoString) :
    ∃ life', live net life (.restart i router selfAddr) = some life' ∧ ∃ ms', Inv life' ms' := by
  obtain ⟨s, -, -, hlive, ms', h', hkeeps⟩ := h.held.restart halg net i router selfAddr
  refine ⟨_, hlive, ms', h', fun req resp hmem => ?_⟩
  obtain ⟨j, hj⟩ := h.acked req resp hmem
  exact ⟨j, fun add hadd => hkeeps j _ _ (hj add hadd)⟩

/-- **No acknowledged add is lost and none is made up, however the cluster is configured.** Over
every sequence of requests, entering at any servers and each under conditions of its own, and of
restarts with any peers, from servers that have been started for the first time with any rings: the
servers are up; an `Add` or `BatchAdd` that was answered with success is contained in the stored and
in the live sketch of its group at some server; and at every server the stored sketches are at most
the live ones, which are at most the sketches of the ids that clients have submitted to these
groups. -/
theorem acked_adds_held (halg : alg.IsJoin) (net : Network ι N)
    (routers : ι → Option Ring) (addrs : ι → GoString) (events : List (Event ι)) :
    ∃ life, run (live net) (fresh alg N routers addrs) events = some life ∧
      ∃ stored : ι → StringMap σ,
        (∀ i, (life.cluster.servers i).store.Holds alg (stored i)) ∧
        (∀ i g, value (stored i) g ≤ value (life.cluster.servers i).engine.groups g ∧
          value (life.cluster.servers i).engine.groups g
            ≤ alg.sketchOf (idsOf (submittedAdds life.answered) g)) ∧
        ∀ req resp, (req, .ok resp) ∈ life.answered →
          ∃ j, ∀ add ∈ req.adds, alg.single add.2 ≤ value (stored j) add.1 := by
  have hnext : ∀ (_ : List (Event ι)) (life : Life ι alg N) event, (∃ ms, Inv life ms) → True →
      ∃ life', live net life event = some life' ∧ ∃ ms', Inv life' ms' := by
    rintro - life event ⟨ms, h⟩ -
    cases event with
    | request i req cond => exact inv_request halg net h i req cond
    | restart i router selfAddr => exact inv_restart halg net h i router selfAddr
  obtain ⟨life, hrun, ms, h⟩ :=
    progress_of_meets ⟨_, inv_fresh routers addrs⟩ hnext (meets_true events)
  refine ⟨life, hrun, fun i => (ms i).stored, fun i => (h.held i).stored, fun i g => ⟨?_, ?_⟩,
    fun req resp hmem => ?_⟩
  · rw [(h.held i).live]
    exact (h.held i).below.value_le g
  · rw [(h.held i).live]
    exact (h.held i).bounded g
  · obtain ⟨j, hj⟩ := h.acked req resp hmem
    exact ⟨j, fun add hadd => (hj add hadd).le_value⟩

end Join

/-- Two servers with different lists of peers, the second one restarted without a ring. The answer
to the batch is lost. -/
theorem acked_adds_held_rolling :
    ∃ life, run (live TwoServers.net) (fresh (Hll.algorithm Murmur3.sum64) Unit
        (fun i => some (ringOf Murmur3.sum32 (TwoServers.rollingPeers i)))
        fun i => if i = 0 then str "a" else str "b")
        [.request 0 (.add (str "g") 5) ⟨2, TwoServers.net.dial, TwoServers.net.reach, false⟩,
          .restart 1 none [],
          .request 1 (.batchAdd (str "g") [5, 7]) ⟨1, fun _ => none, fun _ => none, true⟩]
          = some life ∧
      ∀ i g, value (life.cluster.servers i).engine.groups g
        ≤ (Hll.algorithm Murmur3.sum64).sketchOf (idsOf (submittedAdds life.answered) g) := by
  obtain ⟨life, hrun, stored, -, hsandwich, -⟩ := acked_adds_held (Hll.isJoin Murmur3.sum64)
    TwoServers.net (fun i => some (ringOf Murmur3.sum32 (TwoServers.rollingPeers i)))
    (fun i => if i = 0 then str "a" else str "b")
    [.request 0 (.add (str "g") 5) ⟨2, TwoServers.net.dial, TwoServers.net.reach, false⟩,
      .restart 1 none [],
      .request 1 (.batchAdd (str "g") [5, 7]) ⟨1, fun _ => none, fun _ => none, true⟩]
  exact ⟨life, hrun, fun i g => (hsandwich i g).2⟩

end Cluster
end CardinalityTracker
