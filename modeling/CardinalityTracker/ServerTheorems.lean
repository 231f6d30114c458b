import CardinalityTracker.Server

/-!
# What the handlers do

The three handlers route in the same way: `handle_of_forward` says what any of them does
with a request that is not its own, and `handle_of_local` reduces the others to the work on
the own server, `handleLocal`, which makes no call. Routing reads two fields of a server,
which no handler changes (`Cluster.routes`).
-/

namespace CardinalityTracker

variable {σ ι N : Type} {alg : Algorithm σ}

/-- What a handler returns for the response of the peer it forwarded to. -/
def Request.relay : Request → Response → Response
  | .add _ _, _ => .added true
  | .batchAdd _ _, resp => resp
  | .query _ _, resp => resp

/-- The response to adds that end with an error or nil. -/
def added : Option Status → Except Status Response
  | some err => .error err
  | none => .ok (.added true)

/-- When the dial succeeds, only the set of connections changes. -/
theorem Server.getPeerClient_of_dial {dial : GoString → Option GoString} {addr : GoString}
    (h : dial addr = none) (s : Server alg N) :
    ∃ conns, s.getPeerClient dial addr = ({ s with conns }, none) := by
  unfold Server.getPeerClient
  rw [h]
  cases s.conns[addr]? with
  | some _ => exact ⟨s.conns, rfl⟩
  | none => exact ⟨_, rfl⟩

/-- A server that forwards has an address of its own, and the owner is another one. -/
theorem Server.forwardTo_eq_some {sum32 : Bytes → UInt32} {s : Server alg N}
    {group owner : GoString} (h : s.forwardTo sum32 group = some owner) :
    ∃ router, s.router = some router ∧ router.resolve sum32 group = owner ∧
      s.selfAddr ≠ [] ∧ owner ≠ [] ∧ owner ≠ s.selfAddr := by
  unfold Server.forwardTo at h
  cases hrouter : s.router with
  | none => simp [hrouter] at h
  | some router =>
    simp only [hrouter] at h
    split at h
    · cases h
    · split at h
      · next hself howner =>
        obtain rfl := Option.some.inj h
        exact ⟨router, rfl, rfl, hself, howner⟩
      · cases h

namespace Cluster

/-! ## Routing state -/

/-- What the servers route by. -/
def routes (c : Cluster ι alg N) (i : ι) : Option Ring × GoString :=
  ((c.servers i).router, (c.servers i).selfAddr)

theorem forwardTo_of_routes {c c' : Cluster ι alg N} (h : c'.routes = c.routes)
    (sum32 : Bytes → UInt32) (i : ι) (group : GoString) :
    (c'.servers i).forwardTo sum32 group = (c.servers i).forwardTo sum32 group := by
  obtain ⟨hrouter, hself⟩ := Prod.mk.inj (congrFun h i)
  unfold Server.forwardTo
  rw [hrouter, hself]

variable [DecidableEq ι]

@[simp] theorem servers_put_self (c : Cluster ι alg N) (i : ι) (s : Server alg N) :
    (c.put i s).servers i = s := Function.update_self ..

theorem servers_put_of_ne (c : Cluster ι alg N) {i j : ι} (h : j ≠ i) (s : Server alg N) :
    (c.put i s).servers j = c.servers j := Function.update_of_ne h ..

@[simp] theorem received_put (c : Cluster ι alg N) (i : ι) (s : Server alg N) :
    (c.put i s).received = c.received := rfl

@[simp] theorem moments_put (c : Cluster ι alg N) (i : ι) (s : Server alg N) :
    (c.put i s).moments = c.moments ++ [(c.put i s).servers] := rfl

theorem routes_put {c : Cluster ι alg N} {i : ι} {s : Server alg N}
    (hrouter : s.router = (c.servers i).router) (hself : s.selfAddr = (c.servers i).selfAddr) :
    (c.put i s).routes = c.routes := by
  funext j
  by_cases hj : j = i
  · subst hj
    simp only [routes, servers_put_self, hrouter, hself]
  · simp only [routes, servers_put_of_ne c hj]

/-! ## The work on the own server -/

section Local

variable (net : Network ι N) (i : ι)

/-- The loop of `BatchAdd` when nothing is forwarded. -/
def addLocals (group : GoString) :
    List UInt64 → Cluster ι alg N → Cluster ι alg N × Option Status
  | [], c => (c, none)
  | id :: ids, c =>
    match addLocal net i group id c with
    | (c, some err) => (c, some err)
    | (c, none) => addLocals group ids c

/-- A request that is handled here. -/
def handleLocal : Request → Cluster ι alg N → Cluster ι alg N × Except Status Response
  | .add group id, c =>
    let r := addLocal net i group id c
    (r.1, added r.2)
  | .batchAdd group ids, c =>
    let r := addLocals net i group ids c
    (r.1, added r.2)
  | .query group _, c =>
    let card := match (c.servers i).engine.cardinality group with
      | .ok card => card
      | .error _ => 0
    (c, .ok (.cardinality group card))

/-- An add on the own server changes neither what is routed by nor what was received. -/
theorem addLocal_routes (group : GoString) (id : UInt64) (c : Cluster ι alg N) :
    (addLocal net i group id c).1.routes = c.routes ∧
      (addLocal net i group id c).1.received = c.received := by
  unfold addLocal
  -- through the Raft node, or directly to the engine and the store
  cases hnode : (c.servers i).node with
  | some node =>
    simp only [hnode]
    exact ⟨routes_put rfl rfl, rfl⟩
  | none =>
    simp only [hnode]
    exact ⟨routes_put rfl rfl, rfl⟩

theorem addLocals_received (group : GoString) (ids : List UInt64) (c : Cluster ι alg N) :
    (addLocals net i group ids c).1.received = c.received := by
  induction ids generalizing c with
  | nil => rfl
  | cons id ids ih =>
    have hfirst := (addLocal_routes net i group id c).2
    unfold addLocals
    rcases haddLocal : addLocal net i group id c with ⟨c', _ | err⟩
    · rw [haddLocal] at hfirst
      exact (ih c').trans hfirst
    · rw [haddLocal] at hfirst
      exact hfirst

theorem handleLocal_received (req : Request) (c : Cluster ι alg N) :
    (handleLocal net i req c).1.received = c.received := by
  cases req with
  | add group id => exact (addLocal_routes net i group id c).2
  | batchAdd group ids => exact addLocals_received net i group ids c
  | query group staleOk => rfl

end Local

/-! ## The three handlers as one -/

variable {net : Network ι N} {call : Call ι alg N} {i : ι} {req : Request}
  {c : Cluster ι alg N}

/-- A request without a group is refused before anything else. -/
theorem handle_of_no_group (h : req.group = []) :
    handle net call i req c = (c, .error .groupRequired) := by
  cases req <;> exact if_pos h

/-- The per-id decisions of a batch agree with the one for the whole batch. -/
theorem addIDs_of_local {group : GoString}
    (h : (c.servers i).forwardTo net.sum32 group = none) (ids : List UInt64) :
    addIDs net call i group ids c = addLocals net i group ids c := by
  induction ids generalizing c with
  | nil => rfl
  | cons id ids ih =>
    have hroutes := (addLocal_routes net i group id c).1
    unfold addIDs addLocals addID
    rw [h]
    rcases haddLocal : addLocal net i group id c with ⟨c', _ | err⟩
    · -- the next id finds the same routing state
      rw [haddLocal] at hroutes
      exact ih ((forwardTo_of_routes hroutes net.sum32 i group).trans h)
    · rfl

theorem handle_of_local (hgroup : req.group ≠ [])
    (h : (c.servers i).forwardTo net.sum32 req.group = none) :
    handle net call i req c = handleLocal net i req c := by
  cases req with
  | add group id =>
    simp only [Request.group] at hgroup h
    simp only [handle, add, addID, h, if_neg hgroup, handleLocal]
    rcases addLocal net i group id c with ⟨c', _ | err⟩ <;> rfl
  | batchAdd group ids =>
    simp only [Request.group] at hgroup h
    simp only [handle, batchAdd, h, if_neg hgroup, handleLocal, addIDs_of_local h]
    rcases addLocals net i group ids c with ⟨c', _ | err⟩ <;> rfl
  | query group staleOk =>
    simp only [Request.group] at hgroup h
    simp only [handle, query, h, if_neg hgroup]
    rfl

/-- The request is forwarded as it is, and the peer's response is relayed. -/
theorem handle_of_forward (hgroup : req.group ≠ []) {owner : GoString}
    (h : (c.servers i).forwardTo net.sum32 req.group = some owner)
    (hdial : net.dial owner = none) :
    ∃ conns, handle net call i req c
      = let r := call owner req (c.put i { c.servers i with conns })
        (r.1, r.2.map req.relay) := by
  obtain ⟨conns, hconns⟩ := Server.getPeerClient_of_dial hdial (c.servers i)
  refine ⟨conns, ?_⟩
  cases req with
  | add group id =>
    simp only [Request.group] at hgroup h
    simp only [handle, add, addID, h, if_neg hgroup, forward, hconns]
    rcases call owner (.add group id) (c.put i { c.servers i with conns }) with ⟨c', err | resp⟩
      <;> rfl
  | batchAdd group ids =>
    simp only [Request.group] at hgroup h
    simp only [handle, batchAdd, h, if_neg hgroup, forward, hconns]
    rcases call owner (.batchAdd group ids) (c.put i { c.servers i with conns })
      with ⟨c', err | resp⟩ <;> rfl
  | query group staleOk =>
    simp only [Request.group] at hgroup h
    simp only [handle, query, h, if_neg hgroup, forward, hconns]
    rcases call owner (.query group staleOk) (c.put i { c.servers i with conns })
      with ⟨c', err | resp⟩ <;> rfl

/-! ## One hop -/

/-- A server that is not to forward the request handles it. -/
theorem serve_of_local (hgroup : req.group ≠ [])
    (h : (c.servers i).forwardTo net.sum32 req.group = none) (hops : ℕ) :
    serve net (hops + 1) i req c = handleLocal net i req (c.receive i req) :=
  handle_of_local (c := c.receive i req) hgroup h

theorem serve_of_no_group (hgroup : req.group = []) (hops : ℕ) :
    serve net (hops + 1) i req c = (c.receive i req, .error .groupRequired) :=
  handle_of_no_group hgroup

/-- A server that forwards the request changes its connections only. -/
theorem serve_of_forward (hgroup : req.group ≠ []) {owner : GoString}
    (h : (c.servers i).forwardTo net.sum32 req.group = some owner)
    (hdial : net.dial owner = none) {j : ι} (hreach : net.reach owner = some j) (hops : ℕ) :
    ∃ conns, serve net (hops + 1) i req c
      = let r := serve net hops j req ((c.receive i req).put i { c.servers i with conns })
        (r.1, r.2.map req.relay) := by
  rw [show serve net (hops + 1) i req c = handle net _ i req (c.receive i req) from rfl]
  obtain ⟨conns, hhandle⟩ := handle_of_forward (c := c.receive i req) hgroup h hdial
  refine ⟨conns, ?_⟩
  rw [hhandle]
  simp only [hreach]
  rfl

end Cluster
end CardinalityTracker
