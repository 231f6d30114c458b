import CardinalityTracker.Observability

/-!
# What the counters tell

`exists_footprint` says which samples one request leaves in the whole cluster, for every network and
every state of the servers: a request runs through some servers, each of which but the last forwards
it, and every one of them counts it once as a handler and once at the transport, with the code that
it returns itself. The codes differ where an answer is lost on its way back. `counters_balance` adds
this up over any number of clients' requests.
-/

namespace CardinalityTracker

/-- The status a handler should report for a code. -/
def GrpcCode.outcome (code : GrpcCode) : Outcome := if code = .ok then .success else .error

/-- The sample counts a request of the method at its handler. -/
def Sample.isRequest (method : Method) : Sample → Bool
  | .requests method' _ => method' = method
  | _ => false

/-- The sample counts a request of the method at the transport. -/
def Sample.isGrpcRequest (method : Method) : Sample → Bool
  | .grpcRequests method' _ => method' = method
  | _ => false

/-- The sample counts a forwarded request of the method. -/
def Sample.isForwardedRequest (method : Method) : Sample → Bool
  | .forwardedRequests _ method' => method' = method
  | _ => false

/-- The sample counts a forwarded request of the method that has failed. -/
def Sample.isForwardedError (method : Method) : Sample → Bool
  | .forwardedErrors _ method' => method' = method
  | _ => false

/-- The sample is of the size of a batch. -/
def Sample.isBatchSize : Sample → Bool
  | .batchSize _ => true
  | _ => false

namespace Observed

variable {σ ι N : Type} {alg : Algorithm σ}

/-- A server that has forwarded the request: the peer it was sent to, and the code with which the
server itself has answered. -/
structure Hop (ι : Type) where
  server : ι
  peer : GoString
  code : GrpcCode

/-- The samples of a server that has received a request and answered it with a code. -/
def handled (method : Method) (visit : ι × GrpcCode) : List (ι × Sample) :=
  [(visit.1, .requests method (GrpcCode.outcome visit.2)), (visit.1, .requestDuration method),
    (visit.1, .grpcRequests method visit.2), (visit.1, .grpcDuration method visit.2)]

/-- The samples of a forwarded request. -/
def forwarded (method : Method) (hop : Hop ι) : List (ι × Sample) :=
  (hop.server, .forwardedRequests hop.peer method) ::
    if hop.code = .ok then [] else [(hop.server, .forwardedErrors hop.peer method)]

/-- The proposals of a server with or without a Raft node: `proposed` that succeeded, and then one
that failed, if one has. -/
def proposals (node : Bool) (proposed : ℕ) (failed : Bool) (j : ι) : List (ι × Sample) :=
  if node then
    List.replicate proposed (j, .raftProposals .success) ++
      if failed then [(j, .raftProposals .error)] else []
  else []

/-- The samples of the server that does the work, for a request with a group. -/
def Works (node : Bool) (code : GrpcCode) (j : ι) (work : List (ι × Sample)) : Request → Prop
  | .add _ _ => ∃ proposed, work = proposals node proposed (code ≠ .ok) j ∧
      (code = .ok → proposed = 1) ∧ (code ≠ .ok → proposed = 0)
  | .batchAdd _ ids => ∃ proposed,
      work = (j, .batchSize ids.length) :: proposals node proposed (code ≠ .ok) j ∧
      (code = .ok → proposed = ids.length) ∧ (code ≠ .ok → proposed < ids.length)
  | .query _ _ => work = [] ∧ code = .ok

theorem codeOf_relay (req : Request) (resp : Except Status Response) :
    codeOf (resp.map req.relay) = codeOf resp := by
  cases resp <;> rfl

theorem codeOf_error_ne_ok (err : Status) : codeOf (.error err) ≠ .ok := by
  cases err <;> exact nofun

theorem codeOf_added_eq_ok (err : Option Status) : codeOf (added err) = .ok ↔ err = none := by
  cases err with
  | none => exact iff_of_true rfl rfl
  | some err => exact iff_of_false (codeOf_error_ne_ok err) nofun

theorem decide_codeOf_added (err : Option Status) :
    decide (codeOf (added err) ≠ .ok) = err.isSome := by
  simp only [ne_eq, codeOf_added_eq_ok]
  cases err <;> rfl

/-- `statusStr` is set to what the code of the result asks for. -/
theorem addResult_eq (o : Observed ι alg N) (err : Option Status) :
    addResult (o, err) = (o, GrpcCode.outcome (codeOf (added err)), added err) := by
  cases err with
  | none => rfl
  | some err =>
    rw [GrpcCode.outcome, if_neg ((codeOf_added_eq_ok (some err)).not.mpr nofun)]
    rfl

theorem peerResult_eq (o : Observed ι alg N) (resp : Except Status Response) :
    peerResult (o, resp) = (o, GrpcCode.outcome (codeOf resp), resp) := by
  cases resp with
  | ok resp => rfl
  | error err =>
    rw [GrpcCode.outcome, if_neg (codeOf_error_ne_ok err)]
    rfl

theorem proposals_append (node failed : Bool) (proposed : ℕ) (j : ι) :
    proposals node 1 false j ++ proposals node proposed failed j
      = proposals node (proposed + 1) failed j := by
  unfold proposals
  cases node with
  | false => rfl
  | true => rfl

/-! ## The work on the own server -/

section Local

variable [DecidableEq ι] {net : Network ι N} {call : Call ι alg N} {i : ι} {o : Observed ι alg N}

/-- Whether the servers have a Raft node. -/
def nodes (c : Cluster ι alg N) (j : ι) : Bool := (c.servers j).node.isSome

theorem nodes_put {c : Cluster ι alg N} {s : Server alg N}
    (h : s.node.isSome = (c.servers i).node.isSome) : nodes (c.put i s) = nodes c := by
  funext j
  unfold nodes
  by_cases hj : j = i
  · subst hj
    rw [Cluster.servers_put_self, h]
  · rw [Cluster.servers_put_of_ne c hj]

/-- One add: a sample for the proposal, if there is a node to propose to. -/
theorem addLocal_samples (net : Network ι N) (i : ι) (group : GoString) (id : UInt64)
    (o : Observed ι alg N) :
    nodes (addLocal net i group id o).1.cluster = nodes o.cluster ∧
      (addLocal net i group id o).1.samples = o.samples ++
        proposals (nodes o.cluster i) (if (addLocal net i group id o).2 = none then 1 else 0)
          (addLocal net i group id o).2.isSome i := by
  unfold addLocal proposals nodes
  cases hnode : (o.cluster.servers i).node with
  | some node =>
    rcases hpropose : net.proposeAdd node group id with ⟨node', _ | err⟩
    · simp only [hnode, hpropose]
      exact ⟨nodes_put (by rw [hnode]; rfl), rfl⟩
    · simp only [hnode, hpropose]
      exact ⟨nodes_put (by rw [hnode]; rfl), rfl⟩
  | none =>
    simp only [hnode]
    exact ⟨nodes_put (by rw [hnode]), (List.append_nil _).symm⟩

/-- The loop of a batch that is handled here: every id is, and it stops at the first error. -/
theorem addIDs_samples (call : Call ι alg N) {group : GoString}
    (h : (o.cluster.servers i).forwardTo net.sum32 group = none) (ids : List UInt64) :
    nodes (addIDs net call i group ids o).1.cluster = nodes o.cluster ∧
      (addIDs net call i group ids o).1.cluster.received = o.cluster.received ∧
      ∃ proposed, (addIDs net call i group ids o).1.samples = o.samples ++
          proposals (nodes o.cluster i) proposed (addIDs net call i group ids o).2.isSome i ∧
        ((addIDs net call i group ids o).2 = none → proposed = ids.length) ∧
        ((addIDs net call i group ids o).2 ≠ none → proposed < ids.length) := by
  induction ids generalizing o with
  | nil =>
    refine ⟨rfl, rfl, 0, ?_, fun _ => rfl, fun hne => absurd rfl hne⟩
    simp [addIDs, proposals]
  | cons id ids ih =>
    have herase : erase (addLocal net i group id o) = Cluster.addLocal net i group id o.cluster :=
      erase_addLocal group id o
    obtain ⟨hroutes, hreceived⟩ := Cluster.addLocal_routes net i group id o.cluster
    rw [← herase] at hroutes hreceived
    obtain ⟨hnodes, hsamples⟩ := addLocal_samples net i group id o
    unfold addIDs addID
    rw [h]
    rcases haddLocal : addLocal net i group id o with ⟨o', _ | err⟩
    · rw [haddLocal] at hroutes hreceived hnodes hsamples
      obtain ⟨hnodes', hreceived', proposed, hsamples', hok, hfailed⟩ :=
        ih ((Cluster.forwardTo_of_routes hroutes net.sum32 i group).trans h)
      dsimp only at hnodes hsamples ⊢
      refine ⟨hnodes'.trans hnodes, hreceived'.trans hreceived, proposed + 1, ?_, fun hnone => ?_,
        fun hne => ?_⟩
      · rw [hsamples', hsamples, hnodes, List.append_assoc]
        exact congrArg _ (proposals_append ..)
      · rw [hok hnone, List.length_cons]
      · exact Nat.succ_lt_succ (hfailed hne)
    · rw [haddLocal] at hreceived hnodes hsamples
      exact ⟨hnodes, hreceived, 0, hsamples, nofun, fun _ => Nat.succ_pos _⟩

/-- What a step of the request leaves alone or adds, besides the samples. -/
structure Step (o o' : Observed ι alg N) (received : List (ι × Request))
    (samples : List (ι × Sample)) : Prop where
  nodes_eq : nodes o'.cluster = nodes o.cluster
  received_eq : o'.cluster.received = o.cluster.received ++ received
  count_eq : ∀ x, o'.samples.count x = o.samples.count x + samples.count x

/-- A request that is handled here. -/
theorem body_of_local (call : Call ι alg N) {req : Request} (hgroup : req.group ≠ [])
    (h : (o.cluster.servers i).forwardTo net.sum32 req.group = none) :
    ∃ o' resp work, body net call i req o = (o', GrpcCode.outcome (codeOf resp), resp) ∧
      Step o o' [] work ∧ Works (nodes o.cluster i) (codeOf resp) i work req := by
  cases req with
  | add group id =>
    simp only [Request.group] at hgroup h
    have herase : erase (addLocal net i group id o) = Cluster.addLocal net i group id o.cluster :=
      erase_addLocal group id o
    have hreceived := (Cluster.addLocal_routes net i group id o.cluster).2
    rw [← herase] at hreceived
    obtain ⟨hnodes, hsamples⟩ := addLocal_samples net i group id o
    simp only [body, addBody, if_neg hgroup, addID, h]
    rcases haddLocal : addLocal net i group id o with ⟨o', err⟩
    rw [haddLocal] at hreceived hnodes hsamples
    refine ⟨o', added err, _, addResult_eq o' err, ⟨hnodes, ?_, fun x => ?_⟩,
      if err = none then 1 else 0, rfl, ?_, ?_⟩
    · rw [List.append_nil]
      exact hreceived
    · rw [decide_codeOf_added]
      exact (congrArg (List.count x) hsamples).trans List.count_append
    · intro hok
      exact if_pos ((codeOf_added_eq_ok err).mp hok)
    · intro hne
      exact if_neg ((codeOf_added_eq_ok err).not.mp hne)
  | batchAdd group ids =>
    simp only [Request.group] at hgroup h
    have h' : ((o.record i (.batchSize ids.length)).cluster.servers i).forwardTo net.sum32 group
        = none := h
    obtain ⟨hnodes, hreceived, proposed, hsamples, hok, hfailed⟩ := addIDs_samples call h' ids
    simp only [body, batchAddBody, if_neg hgroup, h]
    rcases haddIDs : addIDs net call i group ids (o.record i (.batchSize ids.length)) with ⟨o', err⟩
    rw [haddIDs] at hreceived hnodes hsamples hok hfailed
    refine ⟨o', added err, _, addResult_eq o' err, ⟨hnodes, ?_, fun x => ?_⟩, proposed, rfl, ?_, ?_⟩
    · rw [List.append_nil]
      exact hreceived
    · rw [decide_codeOf_added, hsamples]
      simp only [record, List.append_assoc, List.count_append, List.singleton_append]
    · intro hcode
      exact hok ((codeOf_added_eq_ok err).mp hcode)
    · intro hcode
      exact hfailed ((codeOf_added_eq_ok err).not.mp hcode)
  | query group staleOk =>
    simp only [Request.group] at hgroup h
    simp only [body, queryBody, if_neg hgroup, h]
    refine ⟨o, .ok _, [], rfl, ⟨rfl, (List.append_nil _).symm, fun x => rfl⟩, rfl, rfl⟩

/-- A request without a group. -/
theorem body_of_no_group {req : Request} (h : req.group = []) :
    body net call i req o = (o, .error, .error .groupRequired) := by
  cases req <;> exact if_pos h

/-- A request of another owner. -/
theorem body_of_forward (call : Call ι alg N) {req : Request} (hgroup : req.group ≠ [])
    {owner : GoString}
    (h : (o.cluster.servers i).forwardTo net.sum32 req.group = some owner) :
    body net call i req o
      = ((forward net call i req.method owner req o).1,
          GrpcCode.outcome (codeOf (forward net call i req.method owner req o).2),
          (forward net call i req.method owner req o).2.map req.relay) := by
  cases req with
  | add group id =>
    simp only [Request.group] at hgroup h
    simp only [body, addBody, if_neg hgroup, addID, h, Request.method]
    rcases forward net call i .add owner (.add group id) o with ⟨o', err | resp⟩
    · rw [GrpcCode.outcome, if_neg (codeOf_error_ne_ok err)]
      rfl
    · rfl
  | batchAdd group ids =>
    simp only [Request.group] at hgroup h
    simp only [body, batchAddBody, if_neg hgroup, h, Request.method]
    rcases forward net call i .batchAdd owner (.batchAdd group ids) o with ⟨o', resp⟩
    rw [peerResult_eq]
    cases resp <;> rfl
  | query group staleOk =>
    simp only [Request.group] at hgroup h
    simp only [body, queryBody, if_neg hgroup, h, Request.method]
    rcases forward net call i .query owner (.query group staleOk) o with ⟨o', resp⟩
    rw [peerResult_eq]
    cases resp <;> rfl

end Local

/-! ## One request -/

/-- The servers that have received a request, with their codes: those that forwarded it, and the one
that worked on it, if it got that far. -/
def visits (hops : List (Hop ι)) (worker : Option (ι × GrpcCode)) : List (ι × GrpcCode) :=
  hops.map (fun hop => (hop.server, hop.code)) ++ worker.toList

/-- What the caller's `code` says of the work: nothing is done for a request that reaches no worker
or has no group; a success is one of the worker; and a success of the worker that is a failure for
the caller is a `loss`. -/
structure Settled (node : ι → Bool) (req : Request) (loss : Prop) (code : GrpcCode)
    (worker : Option (ι × GrpcCode)) (work : List (ι × Sample)) : Prop where
  unreached : worker = none → work = []
  refused : req.group = [] → work = []
  worked : ∀ j workerCode, worker = some (j, workerCode) → req.group ≠ [] →
    Works (node j) workerCode j work req
  succeeded : code = .ok → req.group ≠ [] ∧ ∃ j, worker = some (j, .ok)
  failed : code ≠ .ok → ∀ j, worker = some (j, .ok) → loss

namespace Settled

variable {node : ι → Bool} {req : Request} {loss loss' : Prop} {code : GrpcCode}
  {worker : Option (ι × GrpcCode)} {work : List (ι × Sample)}

/-- A request that reaches no server. -/
theorem unanswered (hcode : code ≠ .ok) : Settled node req loss code none [] :=
  ⟨fun _ => rfl, fun _ => rfl, nofun, fun hok => absurd hok hcode, nofun⟩

theorem mono (h : Settled node req loss code worker work) (himp : loss → loss') :
    Settled node req loss' code worker work :=
  { h with failed := fun hcode j hj => himp (h.failed hcode j hj) }

/-- An answer on its way back to the caller. -/
theorem answer {resp : Except Status Response} (h : Settled node req loss (codeOf resp) worker work)
    (lost : Bool) :
    Settled node req (loss ∨ lost = true)
      (codeOf (if lost then .error .deadlineExceeded else resp)) worker work := by
  cases lost with
  | false => exact h.mono Or.inl
  | true =>
    exact { h with
      succeeded := fun hok => absurd hok (codeOf_error_ne_ok _)
      failed := fun _ _ _ => Or.inr rfl }

/-- A request is not worked on and has failed, or is worked on with a code that is the caller's, if
that is a success. -/
theorem work_cases (h : Settled node req loss code worker work) :
    (work = [] ∧ code ≠ .ok) ∨ ∃ j workerCode, (code = .ok → workerCode = .ok) ∧
      Works (node j) workerCode j work req := by
  by_cases hgroup : req.group = []
  · exact .inl ⟨h.refused hgroup, fun hok => (h.succeeded hok).1 hgroup⟩
  · rcases hworker : worker with _ | ⟨j, workerCode⟩
    · refine .inl ⟨h.unreached hworker, fun hok => ?_⟩
      obtain ⟨-, j, hj⟩ := h.succeeded hok
      rw [hworker] at hj
      cases hj
    · refine .inr ⟨j, workerCode, fun hok => ?_, h.worked j workerCode hworker hgroup⟩
      obtain ⟨-, j', hj'⟩ := h.succeeded hok
      rw [hworker] at hj'
      exact (Prod.mk.inj (Option.some.inj hj')).2

/-- How many workers have succeeded, against what the caller has seen. -/
theorem countP_worker (h : Settled node req loss code worker work) :
    (if code = .ok then 1 else 0) ≤ worker.toList.countP (fun v => v.2 = .ok) ∧
      (worker.toList.countP (fun v => v.2 = .ok) ≤ 1) ∧
      (code ≠ .ok → 0 < worker.toList.countP (fun v => v.2 = .ok) → loss) := by
  by_cases hworker : ∃ j, worker = some (j, .ok)
  · obtain ⟨j, rfl⟩ := hworker
    refine ⟨?_, le_rfl, fun hcode _ => h.failed hcode j rfl⟩
    split
    · exact le_rfl
    · exact Nat.zero_le _
  · have hzero : worker.toList.countP (fun v => v.2 = .ok) = 0 := by
      rw [List.countP_eq_zero]
      rintro ⟨j, workerCode⟩ hmem hok
      obtain rfl : workerCode = .ok := of_decide_eq_true hok
      exact hworker ⟨j, Option.mem_toList.mp hmem⟩
    have hcode : code ≠ .ok := fun hok => hworker (h.succeeded hok).2
    rw [hzero, if_neg hcode]
    exact ⟨le_rfl, Nat.zero_le _, fun _ hpos => absurd hpos (Nat.lt_irrefl 0)⟩

end Settled

section Footprint

variable [DecidableEq ι] {net : Network ι N} {call : Call ι alg N} {i : ι} {o o' : Observed ι alg N}
  {req : Request} {loss : Prop} {code : GrpcCode} {hops : List (Hop ι)}
  {worker : Option (ι × GrpcCode)} {work : List (ι × Sample)}

/-- What a request has left that ends with `code` for its caller. -/
structure Footprint (req : Request) (loss : Prop) (code : GrpcCode) (o o' : Observed ι alg N)
    (hops : List (Hop ι)) (worker : Option (ι × GrpcCode)) (work : List (ι × Sample)) : Prop where
  step : Step o o' ((visits hops worker).map fun v => (v.1, req))
    ((visits hops worker).flatMap (handled req.method) ++ hops.flatMap (forwarded req.method)
      ++ work)
  settled : Settled (nodes o.cluster) req loss code worker work

theorem Step.refl (o : Observed ι alg N) : Step o o [] [] :=
  ⟨rfl, (List.append_nil _).symm, fun _ => rfl⟩

/-- A request that is answered by no server. -/
theorem Footprint.none (o : Observed ι alg N) (hcode : code ≠ .ok) :
    Footprint req loss code o o [] none [] :=
  ⟨.refl o, .unanswered hcode⟩

omit [DecidableEq ι] in
theorem node_getPeerClient (dial : GoString → Option GoString) (s : Server alg N)
    (addr : GoString) : (s.getPeerClient dial addr).1.node = s.node := by
  unfold Server.getPeerClient
  cases s.conns[addr]? with
  | some _ => rfl
  | none => cases dial addr <;> rfl

/-- Forwarding adds its own samples to what the peer's call leaves, if the peer can be dialled. -/
theorem footprint_forward (net : Network ι N) (i : ι) {owner : GoString}
    (hcall : ∀ o, ∃ hops worker work,
      Footprint req loss (codeOf (call owner req o).2) o (call owner req o).1 hops worker work)
    (o : Observed ι alg N) :
    ∃ o' resp hops worker work, forward net call i req.method owner req o = (o', resp) ∧
      Step o o' ((visits hops worker).map fun v => (v.1, req))
        ((visits hops worker).flatMap (handled req.method) ++
          (⟨i, owner, codeOf resp⟩ :: hops).flatMap (forwarded req.method) ++ work) ∧
      Settled (nodes o.cluster) req loss (codeOf resp) worker work := by
  have hnode := node_getPeerClient net.dial (o.cluster.servers i) owner
  unfold forward
  rcases hclient : (o.cluster.servers i).getPeerClient net.dial owner with ⟨s, _ | err⟩
  · rw [hclient] at hnode
    have hnodes : nodes (o.cluster.put i s) = nodes o.cluster := nodes_put (congrArg _ hnode)
    obtain ⟨hops, worker, work, ⟨hstepNodes, hstepReceived, hstepCount⟩, hsettled⟩ :=
      hcall ⟨o.cluster.put i s, o.samples ++ [(i, .forwardedRequests owner req.method)]⟩
    rw [hnodes] at hsettled
    simp only [record, hclient]
    rcases hpeer : call owner req
      ⟨o.cluster.put i s, o.samples ++ [(i, .forwardedRequests owner req.method)]⟩
      with ⟨o', err | resp⟩
    · rw [hpeer] at hstepNodes hstepReceived hstepCount hsettled
      refine ⟨o'.record i (.forwardedErrors owner req.method), .error err, hops, worker, work,
        by rw [hpeer]; rfl, ⟨hstepNodes.trans hnodes, hstepReceived, fun x => ?_⟩, hsettled⟩
      have hcount := hstepCount x
      dsimp only at hcount
      simp only [record, List.count_append, List.flatMap_cons, forwarded,
        if_neg (codeOf_error_ne_ok err)] at hcount ⊢
      simp only [List.count_cons, List.count_nil] at hcount ⊢
      omega
    · rw [hpeer] at hstepNodes hstepReceived hstepCount hsettled
      refine ⟨o', .ok resp, hops, worker, work, by rw [hpeer],
        ⟨hstepNodes.trans hnodes, hstepReceived, fun x => ?_⟩, hsettled⟩
      have hok : codeOf (.ok resp) = .ok := rfl
      have hcount := hstepCount x
      dsimp only at hcount
      simp only [List.count_append, List.flatMap_cons, forwarded, if_pos hok] at hcount ⊢
      simp only [List.count_cons, List.count_nil] at hcount ⊢
      omega
  · rw [hclient] at hnode
    simp only [record, hclient]
    refine ⟨_, _, [], none, [], rfl, ⟨nodes_put (congrArg _ hnode), (List.append_nil _).symm,
      fun x => ?_⟩, .unanswered (codeOf_error_ne_ok _)⟩
    simp only [List.count_append, List.flatMap_cons, forwarded, if_neg (codeOf_error_ne_ok _),
      visits]
    simp only [List.count_cons, List.count_nil, List.map_nil, Option.toList_none, List.append_nil,
      List.flatMap_nil]
    omega

/-- The request has reached server `i`. -/
def arrive (o : Observed ι alg N) (i : ι) (req : Request) : Observed ι alg N :=
  { o with cluster := o.cluster.receive i req }

/-- A handler and its interceptor count the request with the code of what its body returns. -/
theorem step_intercept {resp : Except Status Response} {received : List (ι × Request)}
    {samples : List (ι × Sample)}
    (hbody : body net call i req (o.arrive i req)
      = (o', GrpcCode.outcome (codeOf resp), resp))
    (hstep : Step (o.arrive i req) o' received samples) :
    ∃ o'', intercept net call i req (o.arrive i req) = (o'', resp) ∧
      Step o o'' ((i, req) :: received) (handled req.method (i, codeOf resp) ++ samples) := by
  simp only [intercept, handle, hbody, record]
  refine ⟨_, rfl, hstep.nodes_eq, hstep.received_eq.trans ?_, fun x => ?_⟩
  · exact List.append_assoc ..
  · have hcount := hstep.count_eq x
    simp only [arrive] at hcount
    simp only [List.append_assoc, List.count_append, hcount, handled, List.count_cons,
      List.count_nil]
    omega

/-- The call of a server to a peer, when the request can be forwarded fewer than `h` times. -/
def callPeer (net : Network ι N) (lost : ℕ → Bool) (h : ℕ) : Call ι alg N := fun owner req o =>
  match net.reach owner with
  | none => (o, .error (.unavailable owner))
  | some j => answer (lost h) (serve net lost h j req o)

theorem serve_succ (net : Network ι N) (lost : ℕ → Bool) (h : ℕ) (i : ι) (req : Request)
    (o : Observed ι alg N) :
    serve net lost (h + 1) i req o = intercept net (callPeer net lost h) i req (o.arrive i req) :=
  rfl

/-- **The footprint of one request**, for the server that it enters at. The induction is on how
often it can still be forwarded. -/
theorem exists_footprint (net : Network ι N) (lost : ℕ → Bool) (h : ℕ) (i : ι) (req : Request)
    (o : Observed ι alg N) :
    ∃ hops worker work,
      Footprint req (∃ k < h, lost k = true) (codeOf (serve net lost h i req o).2) o
        (serve net lost h i req o).1 hops worker work := by
  induction h generalizing i o with
  | zero => exact ⟨[], none, [], .none o (codeOf_error_ne_ok _)⟩
  | succ h ih =>
    rw [serve_succ]
    by_cases hgroup : req.group = []
    · have hbody : body net (callPeer net lost h) i req (o.arrive i req)
          = (o.arrive i req, (codeOf (.error .groupRequired)).outcome, .error .groupRequired) :=
        body_of_no_group hgroup
      obtain ⟨o', hintercept, hstep⟩ := step_intercept hbody (.refl _)
      rw [hintercept]
      refine ⟨[], some (i, codeOf (.error .groupRequired)), [], hstep, nofun, fun _ => rfl,
        fun _ _ _ hne => absurd hgroup hne, fun hok => absurd hok (codeOf_error_ne_ok _),
        fun _ j hj => ?_⟩
      exact absurd (Prod.mk.inj (Option.some.inj hj)).2 (codeOf_error_ne_ok _)
    cases hforward : (o.cluster.servers i).forwardTo net.sum32 req.group with
    | none =>
      obtain ⟨o', resp, work, hbody, hstep, hworks⟩ :=
        body_of_local (callPeer net lost h) (o := o.arrive i req) hgroup hforward
      obtain ⟨o'', hintercept, hstep'⟩ := step_intercept hbody hstep
      rw [hintercept]
      refine ⟨[], some (i, codeOf resp), work, ?_, nofun, fun hnil => absurd hnil hgroup,
        fun j workerCode hj _ => ?_, fun hok => ⟨hgroup, i, by rw [hok]⟩, fun hcode j hj => ?_⟩
      · simpa only [visits, List.map_nil, Option.toList_some, List.nil_append, List.map_cons,
          List.flatMap_cons, List.flatMap_nil, List.append_nil] using hstep'
      · obtain ⟨rfl, rfl⟩ := Prod.mk.inj (Option.some.inj hj)
        exact hworks
      · exact absurd (Prod.mk.inj (Option.some.inj hj)).2 hcode
    | some owner =>
      -- the peer's call, whose answer may be lost as well
      have hcall : ∀ o : Observed ι alg N, ∃ hops worker work,
          Footprint req (∃ k < h + 1, lost k = true)
            (codeOf (callPeer net lost h owner req o).2) o (callPeer net lost h owner req o).1
            hops worker work := by
        intro o
        unfold callPeer
        cases net.reach owner with
        | none => exact ⟨[], none, [], .none o (codeOf_error_ne_ok _)⟩
        | some j =>
          obtain ⟨hops, worker, work, hstep, hsettled⟩ := ih j o
          refine ⟨hops, worker, work, hstep, (hsettled.answer (lost h)).mono ?_⟩
          rintro (⟨k, hk, hlost⟩ | hlost)
          · exact ⟨k, hk.trans (Nat.lt_succ_self h), hlost⟩
          · exact ⟨h, Nat.lt_succ_self h, hlost⟩
      obtain ⟨o', resp, hops, worker, work, hresult, hstep, hsettled⟩ :=
        footprint_forward net i hcall (o.arrive i req)
      have hbody := body_of_forward (callPeer net lost h) hgroup (o := o.arrive i req) hforward
      rw [hresult] at hbody
      have hcode := codeOf_relay req resp
      obtain ⟨o'', hintercept, hstep'⟩ := step_intercept (hbody.trans (by rw [hcode])) hstep
      rw [hintercept, hcode]
      rw [hcode] at hstep'
      refine ⟨⟨i, owner, codeOf resp⟩ :: hops, worker, work, ?_, hsettled⟩
      simpa only [visits, List.map_cons, List.cons_append, List.flatMap_cons, List.append_assoc]
        using hstep'

/-- A client's call, with its answer. -/
theorem exists_footprint_submit (net : Network ι N) (sub : Submission ι) (o : Observed ι alg N) :
    ∃ hops worker work,
      Footprint sub.request (sub.conditions.lossy = true) (codeOf (submit net sub o).2) o
        (submit net sub o).1 hops worker work := by
  obtain ⟨server, req, cond⟩ := sub
  obtain ⟨hops, worker, work, hstep, hsettled⟩ :=
    exists_footprint (cond.network net) cond.lost cond.hops server req o
  refine ⟨hops, worker, work, hstep, (hsettled.answer (cond.lost cond.hops)).mono fun hloss => ?_⟩
  unfold Conditions.lossy
  rw [List.any_eq_true]
  obtain ⟨k, hk, hlost⟩ | hlost := hloss
  · exact ⟨k, List.mem_range.mpr (hk.trans (Nat.lt_succ_self _)), hlost⟩
  · exact ⟨cond.hops, List.mem_range.mpr (Nat.lt_succ_self _), hlost⟩

end Footprint

/-! ## Any number of requests -/

/-- The number of ids a request adds. -/
def ids : Request → ℕ
  | .add _ _ => 1
  | .batchAdd _ ids => ids.length
  | .query _ _ => 0

/-- A client's request with its response, and whether an answer to it may have been lost. -/
structure Served where
  request : Request
  response : Except Status Response
  lossy : Bool

/-- The counters of a cluster that has answered the requests `served`, and `node`: which of its
servers have a Raft node. -/
structure Balanced [DecidableEq ι] (node : ι → Bool) (o : Observed ι alg N) (served : List Served) :
    Prop where
  /-- A handler counts each request its server receives once. -/
  requests_eq : ∀ j method,
    o.samples.countP (fun x => x.1 = j ∧ x.2.isRequest method)
      = o.cluster.received.countP fun r => r.1 = j ∧ r.2.method = method
  /-- So does the interceptor. -/
  grpc_eq : ∀ j method,
    o.samples.countP (fun x => x.1 = j ∧ x.2.isGrpcRequest method)
      = o.cluster.received.countP fun r => r.1 = j ∧ r.2.method = method
  /-- They agree on which have succeeded. -/
  success_eq : ∀ j method,
    o.samples.countP (fun x => x = (j, .requests method .success))
      = o.samples.countP fun x => x = (j, .grpcRequests method .ok)
  /-- A forwarded request fails at most once. -/
  forwarded_le : ∀ j peer method,
    o.samples.countP (fun x => x = (j, .forwardedErrors peer method))
      ≤ o.samples.countP fun x => x = (j, .forwardedRequests peer method)
  /-- What the servers receive was sent by a client or forwarded. -/
  received_le : ∀ method,
    o.cluster.received.countP (fun r => r.2.method = method)
      ≤ served.countP (fun r => r.request.method = method)
        + o.samples.countP fun x => x.2.isForwardedRequest method
  /-- Over the cluster, the successes make up for those the clients have seen and for the forwarded
  requests that have not failed. -/
  flow_le : ∀ method,
    served.countP (fun r => r.request.method = method ∧ codeOf r.response = .ok)
        + o.samples.countP (fun x => x.2.isForwardedRequest method)
      ≤ o.samples.countP (fun x => x.2 = .requests method .success)
        + o.samples.countP fun x => x.2.isForwardedError method
  /-- There are no more of them, but for the failed requests whose network loses an answer. -/
  le_flow : ∀ method,
    o.samples.countP (fun x => x.2 = .requests method .success)
        + o.samples.countP (fun x => x.2.isForwardedError method)
      ≤ served.countP (fun r => r.request.method = method ∧ codeOf r.response = .ok)
        + o.samples.countP (fun x => x.2.isForwardedRequest method)
        + served.countP fun r =>
            r.request.method = method ∧ codeOf r.response ≠ .ok ∧ r.lossy = true
  /-- A batch is observed at most once, however often it is forwarded. -/
  batchSize_le : o.samples.countP (fun x => x.2.isBatchSize)
    ≤ served.countP fun r => r.request.method = .batchAdd
  /-- A batch that has succeeded is. -/
  le_batchSize : served.countP (fun r => r.request.method = .batchAdd ∧ codeOf r.response = .ok)
    ≤ o.samples.countP fun x => x.2.isBatchSize
  /-- Every acknowledged id was proposed, if there are Raft nodes to propose to. -/
  le_proposals : (∀ j, node j) →
    ((served.filter fun r => codeOf r.response = .ok).map fun r => ids r.request).sum
      ≤ o.samples.countP fun x => x.2 = .raftProposals .success
  /-- A failed proposal is a failed request of a client. -/
  proposals_le : o.samples.countP (fun x => x.2 = .raftProposals .error)
    ≤ served.countP fun r => codeOf r.response ≠ .ok

section Ledger

variable [DecidableEq ι] {node : ι → Bool} {o o' : Observed ι alg N} {req : Request} {loss : Prop}
  {code : GrpcCode} {hops : List (Hop ι)} {worker : Option (ι × GrpcCode)}
  {work : List (ι × Sample)} {p : ι × Sample → Bool} {served : List Served}

omit [DecidableEq ι] in
theorem countP_handled (p : ι × Sample → Bool) (method : Method) (l : List (ι × GrpcCode)) :
    (l.flatMap (handled method)).countP p =
      l.countP (fun v => p (v.1, .requests method v.2.outcome)) +
        l.countP (fun v => p (v.1, .requestDuration method)) +
        l.countP (fun v => p (v.1, .grpcRequests method v.2)) +
        l.countP (fun v => p (v.1, .grpcDuration method v.2)) := by
  induction l with
  | nil => rfl
  | cons v l ih =>
    rw [List.flatMap_cons, List.countP_append, ih]
    simp only [handled, List.countP_cons, List.countP_nil]
    omega

omit [DecidableEq ι] in
theorem countP_forwarded (p : ι × Sample → Bool) (method : Method) (l : List (Hop ι)) :
    (l.flatMap (forwarded method)).countP p =
      l.countP (fun f => p (f.server, .forwardedRequests f.peer method)) +
        l.countP fun f => f.code ≠ .ok ∧ p (f.server, .forwardedErrors f.peer method) := by
  induction l with
  | nil => rfl
  | cons f l ih =>
    rw [List.flatMap_cons, List.countP_append, ih]
    by_cases hcode : f.code = .ok
    · simp only [forwarded, hcode, if_true, List.countP_cons, List.countP_nil, ne_eq, not_true,
        false_and, decide_false, Bool.false_eq_true, if_false]
      omega
    · simp only [forwarded, hcode, if_false, List.countP_cons, List.countP_nil, ne_eq,
        not_false_eq_true, true_and, Bool.decide_eq_true]
      omega

/-- How a request changes a counter. -/
theorem Footprint.countP_eq (h : Footprint req loss code o o' hops worker work)
    (p : ι × Sample → Bool) :
    o'.samples.countP p = o.samples.countP p +
      (((visits hops worker).flatMap (handled req.method)).countP p +
        (hops.flatMap (forwarded req.method)).countP p + work.countP p) := by
  have hperm : o'.samples.Perm (o.samples ++ _) :=
    List.perm_iff_count.mpr fun x => (h.step.count_eq x).trans List.count_append.symm
  rw [hperm.countP_eq, List.countP_append, List.countP_append, List.countP_append]

omit [DecidableEq ι] in
theorem countP_proposals (p : ι × Sample → Bool) (node failed : Bool) (proposed : ℕ) (j : ι) :
    (proposals node proposed failed j).countP p =
      if node then
        (if p (j, .raftProposals .success) then proposed else 0) +
          if failed ∧ p (j, .raftProposals .error) then 1 else 0
      else 0 := by
  unfold proposals
  cases node with
  | false => rfl
  | true =>
    rw [if_pos rfl, if_pos rfl, List.countP_append, List.countP_replicate]
    cases failed <;> simp [List.countP_cons]

omit [DecidableEq ι] in
/-- A counter of neither the proposals nor the batches is not changed by the work. -/
theorem Settled.countP_work (h : Settled node req loss code worker work)
    (hproposals : ∀ j status, p (j, .raftProposals status) = false)
    (hbatch : ∀ j n, p (j, .batchSize n) = false) : work.countP p = 0 := by
  obtain ⟨rfl, -⟩ | ⟨j, workerCode, -, hworks⟩ := h.work_cases
  · rfl
  cases req with
  | add group id =>
    obtain ⟨proposed, rfl, -⟩ := hworks
    simp [countP_proposals, hproposals]
  | batchAdd group ids =>
    obtain ⟨proposed, rfl, -⟩ := hworks
    simp [countP_proposals, hproposals, hbatch]
  | query group staleOk =>
    obtain ⟨rfl, -⟩ := hworks
    rfl

/-- The two parts of a counter that is not one of the work. -/
theorem Footprint.countP_add (h : Footprint req loss code o o' hops worker work)
    (hproposals : ∀ j status, p (j, .raftProposals status) = false)
    (hbatch : ∀ j n, p (j, .batchSize n) = false) :
    o'.samples.countP p = o.samples.countP p +
      (((visits hops worker).flatMap (handled req.method)).countP p +
        (hops.flatMap (forwarded req.method)).countP p) := by
  rw [h.countP_eq, h.settled.countP_work hproposals hbatch, Nat.add_zero]

theorem Footprint.countP_isRequest (h : Footprint req loss code o o' hops worker work) (j : ι)
    (method : Method) :
    o'.samples.countP (fun x => x.1 = j ∧ x.2.isRequest method)
      = o.samples.countP (fun x => x.1 = j ∧ x.2.isRequest method) +
        (visits hops worker).countP fun v => v.1 = j ∧ req.method = method := by
  rw [h.countP_add (by simp [Sample.isRequest]) (by simp [Sample.isRequest]), countP_handled,
    countP_forwarded]
  simp [Sample.isRequest]

theorem Footprint.countP_isGrpcRequest (h : Footprint req loss code o o' hops worker work) (j : ι)
    (method : Method) :
    o'.samples.countP (fun x => x.1 = j ∧ x.2.isGrpcRequest method)
      = o.samples.countP (fun x => x.1 = j ∧ x.2.isGrpcRequest method) +
        (visits hops worker).countP fun v => v.1 = j ∧ req.method = method := by
  rw [h.countP_add (by simp [Sample.isGrpcRequest]) (by simp [Sample.isGrpcRequest]),
    countP_handled, countP_forwarded]
  simp [Sample.isGrpcRequest]

theorem outcome_eq_success (code : GrpcCode) : code.outcome = .success ↔ code = .ok := by
  cases code <;> decide

theorem Footprint.countP_success (h : Footprint req loss code o o' hops worker work) (j : ι)
    (method : Method) :
    o'.samples.countP (fun x => x = (j, .requests method .success))
      = o.samples.countP (fun x => x = (j, .requests method .success)) +
        (visits hops worker).countP fun v => v.1 = j ∧ req.method = method ∧ v.2 = .ok := by
  rw [h.countP_add (by simp) (by simp), countP_handled, countP_forwarded]
  simp [outcome_eq_success]

theorem Footprint.countP_grpcOk (h : Footprint req loss code o o' hops worker work) (j : ι)
    (method : Method) :
    o'.samples.countP (fun x => x = (j, .grpcRequests method .ok))
      = o.samples.countP (fun x => x = (j, .grpcRequests method .ok)) +
        (visits hops worker).countP fun v => v.1 = j ∧ req.method = method ∧ v.2 = .ok := by
  rw [h.countP_add (by simp) (by simp), countP_handled, countP_forwarded]
  simp

theorem Footprint.countP_forwardedRequests (h : Footprint req loss code o o' hops worker work)
    (j : ι) (peer : GoString) (method : Method) :
    o'.samples.countP (fun x => x = (j, .forwardedRequests peer method))
      = o.samples.countP (fun x => x = (j, .forwardedRequests peer method)) +
        hops.countP fun f => f.server = j ∧ f.peer = peer ∧ req.method = method := by
  rw [h.countP_add (by simp) (by simp), countP_handled, countP_forwarded]
  simp

theorem Footprint.countP_forwardedErrors (h : Footprint req loss code o o' hops worker work)
    (j : ι) (peer : GoString) (method : Method) :
    o'.samples.countP (fun x => x = (j, .forwardedErrors peer method))
      = o.samples.countP (fun x => x = (j, .forwardedErrors peer method)) +
        hops.countP fun f =>
          f.code ≠ .ok ∧ f.server = j ∧ f.peer = peer ∧ req.method = method := by
  rw [h.countP_add (by simp) (by simp), countP_handled, countP_forwarded]
  simp

/-- The successes, over the cluster. -/
theorem Footprint.countP_successes (h : Footprint req loss code o o' hops worker work)
    (method : Method) :
    o'.samples.countP (fun x => x.2 = .requests method .success)
      = o.samples.countP (fun x => x.2 = .requests method .success) +
        if req.method = method then (visits hops worker).countP (fun v => v.2 = .ok) else 0 := by
  rw [h.countP_add (by simp) (by simp), countP_handled, countP_forwarded]
  by_cases hmethod : req.method = method
  · simp [outcome_eq_success, hmethod]
  · simp [hmethod]

theorem Footprint.countP_isForwardedRequest (h : Footprint req loss code o o' hops worker work)
    (method : Method) :
    o'.samples.countP (fun x => x.2.isForwardedRequest method)
      = o.samples.countP (fun x => x.2.isForwardedRequest method) +
        if req.method = method then hops.length else 0 := by
  rw [h.countP_add (by simp [Sample.isForwardedRequest]) (by simp [Sample.isForwardedRequest]),
    countP_handled, countP_forwarded]
  by_cases hmethod : req.method = method
  · simp [Sample.isForwardedRequest, hmethod]
  · simp [Sample.isForwardedRequest, hmethod]

theorem Footprint.countP_isForwardedError (h : Footprint req loss code o o' hops worker work)
    (method : Method) :
    o'.samples.countP (fun x => x.2.isForwardedError method)
      = o.samples.countP (fun x => x.2.isForwardedError method) +
        if req.method = method then hops.countP (fun f => f.code ≠ .ok) else 0 := by
  rw [h.countP_add (by simp [Sample.isForwardedError]) (by simp [Sample.isForwardedError]),
    countP_handled, countP_forwarded]
  by_cases hmethod : req.method = method
  · simp [Sample.isForwardedError, hmethod]
  · simp [Sample.isForwardedError, hmethod]

omit [DecidableEq ι] in
/-- Every server that forwards a request counts a success or a forwarding error. -/
theorem countP_visits (hops : List (Hop ι)) (worker : Option (ι × GrpcCode)) :
    (visits hops worker).countP (fun v => v.2 = .ok) + hops.countP (fun f => f.code ≠ .ok)
      = hops.length + worker.toList.countP fun v => v.2 = .ok := by
  have hsplit : hops.length = hops.countP (fun f => f.code = .ok)
      + hops.countP fun f => f.code ≠ .ok := by
    simpa using List.length_eq_countP_add_countP (l := hops) fun f => decide (f.code = .ok)
  unfold visits
  rw [List.countP_append, List.countP_map, hsplit]
  simp only [Function.comp_def]
  omega

/-- One batch is one observation, made where it is worked on. -/
theorem Footprint.countP_isBatchSize (h : Footprint req loss code o o' hops worker work) :
    ∃ observed, o'.samples.countP (fun x => x.2.isBatchSize)
        = o.samples.countP (fun x => x.2.isBatchSize) + observed ∧
      (observed ≤ if req.method = .batchAdd then 1 else 0) ∧
      (if req.method = .batchAdd ∧ code = .ok then 1 else 0) ≤ observed := by
  rw [h.countP_eq, countP_handled, countP_forwarded]
  obtain ⟨rfl, hcode⟩ | ⟨j, workerCode, -, hworks⟩ := h.settled.work_cases
  · refine ⟨0, ?_, Nat.zero_le _, ?_⟩
    · simp [Sample.isBatchSize]
    · rw [if_neg fun hand => hcode hand.2]
  cases req with
  | add group id =>
    obtain ⟨proposed, rfl, -⟩ := hworks
    exact ⟨0, by simp [Sample.isBatchSize, countP_proposals], Nat.zero_le _, le_refl _⟩
  | batchAdd group ids =>
    obtain ⟨proposed, rfl, -⟩ := hworks
    refine ⟨1, by simp [Sample.isBatchSize, countP_proposals], le_refl _, ?_⟩
    split <;> omega
  | query group staleOk =>
    obtain ⟨rfl, -⟩ := hworks
    exact ⟨0, by simp [Sample.isBatchSize], Nat.zero_le _, le_refl _⟩

omit [DecidableEq ι] in
/-- A request that has succeeded has proposed each of its ids. -/
theorem Works.countP_success {j : ι} (h : Works true .ok j work req) :
    work.countP (fun x => x.2 = .raftProposals .success) = ids req := by
  cases req with
  | add group id =>
    obtain ⟨proposed, rfl, hok, -⟩ := h
    simp [countP_proposals, hok rfl, ids]
  | batchAdd group ids =>
    obtain ⟨proposed, rfl, hok, -⟩ := h
    simp [countP_proposals, hok rfl, Observed.ids]
  | query group staleOk =>
    obtain ⟨rfl, -⟩ := h
    rfl

omit [DecidableEq ι] in
/-- At most one proposal fails, and none of a request that has succeeded. -/
theorem Works.countP_error {server : Bool} {j : ι} (h : Works server code j work req) :
    work.countP (fun x => x.2 = .raftProposals .error) ≤ if code ≠ .ok then 1 else 0 := by
  cases req with
  | add group id =>
    obtain ⟨proposed, rfl, -⟩ := h
    cases server <;> simp [countP_proposals]
  | batchAdd group ids =>
    obtain ⟨proposed, rfl, -⟩ := h
    cases server <;> simp [countP_proposals]
  | query group staleOk =>
    obtain ⟨rfl, -⟩ := h
    exact Nat.zero_le _

theorem Footprint.countP_raftProposals (h : Footprint req loss code o o' hops worker work)
    (status : Outcome) :
    o'.samples.countP (fun x => x.2 = .raftProposals status)
      = o.samples.countP (fun x => x.2 = .raftProposals status) +
        work.countP fun x => x.2 = .raftProposals status := by
  rw [h.countP_eq, countP_handled, countP_forwarded]
  simp

omit [DecidableEq ι] in
theorem length_visits_le (hops : List (Hop ι)) (worker : Option (ι × GrpcCode)) :
    (visits hops worker).length ≤ hops.length + 1 := by
  cases worker <;> simp [visits]

theorem Balanced.step {resp : Except Status Response} {lossy : Bool}
    (hnode : nodes o.cluster = node) (hb : Balanced node o served)
    (h : Footprint req (lossy = true) (codeOf resp) o o' hops worker work) :
    Balanced node o' (served ++ [⟨req, resp, lossy⟩]) where
  requests_eq j method := by
    rw [h.countP_isRequest, hb.requests_eq, h.step.received_eq, List.countP_append, List.countP_map]
    rfl
  grpc_eq j method := by
    rw [h.countP_isGrpcRequest, hb.grpc_eq, h.step.received_eq, List.countP_append, List.countP_map]
    rfl
  success_eq j method := by
    rw [h.countP_success, hb.success_eq, h.countP_grpcOk]
  forwarded_le j peer method := by
    rw [h.countP_forwardedErrors, h.countP_forwardedRequests]
    refine Nat.add_le_add (hb.forwarded_le j peer method) (List.countP_mono_left fun f _ hf => ?_)
    simp only [decide_eq_true_eq] at hf ⊢
    exact hf.2
  received_le method := by
    have hle := hb.received_le method
    rw [h.countP_isForwardedRequest, h.step.received_eq, List.countP_append, List.countP_append,
      List.countP_map, List.countP_singleton]
    by_cases hmethod : req.method = method
    · have hlength := length_visits_le hops worker
      simp only [Function.comp_def, hmethod, decide_true, List.countP_true, if_true]
      omega
    · simpa [Function.comp_def, hmethod] using hle
  flow_le method := by
    have hle := hb.flow_le method
    have hvisits := countP_visits hops worker
    obtain ⟨hworker, -⟩ := h.settled.countP_worker
    rw [h.countP_successes, h.countP_isForwardedError, h.countP_isForwardedRequest,
      List.countP_append, List.countP_singleton]
    by_cases hmethod : req.method = method
    · simp only [hmethod, true_and, decide_eq_true_eq, if_true]
      omega
    · simpa [hmethod] using hle
  le_flow method := by
    have hle := hb.le_flow method
    have hvisits := countP_visits hops worker
    obtain ⟨-, hone, hloss⟩ := h.settled.countP_worker
    rw [h.countP_successes, h.countP_isForwardedError, h.countP_isForwardedRequest,
      List.countP_append, List.countP_append, List.countP_singleton, List.countP_singleton]
    by_cases hmethod : req.method = method
    · simp only [hmethod, true_and, decide_eq_true_eq, if_true]
      by_cases hok : codeOf resp = .ok
      · rw [if_pos hok, if_neg fun hfailed => hfailed.1 hok]
        omega
      · rw [if_neg hok]
        by_cases hpos : 0 < worker.toList.countP fun v => v.2 = .ok
        · -- the worker has succeeded, and the answer was lost
          rw [if_pos ⟨hok, hloss hok hpos⟩]
          omega
        · omega
    · simpa [hmethod] using hle
  batchSize_le := by
    have hle := hb.batchSize_le
    obtain ⟨observed, hcount, hobserved, -⟩ := h.countP_isBatchSize
    rw [hcount, List.countP_append, List.countP_singleton]
    simp only [decide_eq_true_eq]
    omega
  le_batchSize := by
    have hle := hb.le_batchSize
    obtain ⟨observed, hcount, -, hobserved⟩ := h.countP_isBatchSize
    rw [hcount, List.countP_append, List.countP_singleton]
    simp only [decide_eq_true_eq]
    omega
  le_proposals hnodes := by
    have hle := hb.le_proposals hnodes
    rw [h.countP_raftProposals, List.filter_append, List.map_append, List.sum_append]
    refine Nat.add_le_add hle ?_
    by_cases hok : codeOf resp = .ok
    · obtain ⟨-, hne⟩ | ⟨j, workerCode, hworker, hworks⟩ := h.settled.work_cases
      · exact absurd hok hne
      · rw [hnode, hnodes j, hworker hok] at hworks
        rw [hworks.countP_success]
        simp [hok]
    · simp [hok]
  proposals_le := by
    have hle := hb.proposals_le
    rw [h.countP_raftProposals, List.countP_append, List.countP_singleton]
    simp only [decide_eq_true_eq]
    obtain ⟨rfl, -⟩ | ⟨j, workerCode, hworker, hworks⟩ := h.settled.work_cases
    · exact Nat.add_le_add hle (Nat.zero_le _)
    · refine Nat.add_le_add hle (hworks.countP_error.trans ?_)
      by_cases hok : codeOf resp = .ok
      · rw [if_neg (not_not.mpr (hworker hok))]
        exact Nat.zero_le _
      · rw [if_pos hok]
        split
        · exact le_rfl
        · exact Nat.zero_le _

/-- Processes that have just started: nothing is received and nothing counted yet. -/
def started (c : Cluster ι alg N) : Observed ι alg N := ⟨{ c with received := [] }, []⟩

/-- The requests that have been submitted, with their responses. -/
def servedOf (subs : List (Submission ι)) (resps : List (Except Status Response)) : List Served :=
  subs.zipWith (fun sub resp => ⟨sub.request, resp, sub.conditions.lossy⟩) resps

theorem Balanced.submitAll (net : Network ι N) (subs : List (Submission ι))
    (hnode : nodes o.cluster = node) (hb : Balanced node o served) :
    Balanced node (submitAll net subs o).1
      (served ++ servedOf subs (submitAll net subs o).2) := by
  induction subs generalizing o served with
  | nil => simpa [Observed.submitAll, servedOf] using hb
  | cons sub subs ih =>
    obtain ⟨hops, worker, work, hfoot⟩ := exists_footprint_submit net sub o
    have hrest := ih (hfoot.step.nodes_eq.trans hnode) (hb.step hnode hfoot)
    rw [List.append_assoc] at hrest
    exact hrest

/-- **The counters of a cluster add up.** From processes that have just started, over any clients'
requests, each in a network of its own, whichever of them fail and whichever answers are lost. -/
theorem counters_balance (net : Network ι N) (subs : List (Submission ι)) (c : Cluster ι alg N) :
    Balanced (nodes c) (submitAll net subs (started c)).1
      (servedOf subs (submitAll net subs (started c)).2) := by
  have hstarted : Balanced (nodes c) (started c) [] :=
    ⟨fun _ _ => rfl, fun _ _ => rfl, fun _ _ => rfl, fun _ _ _ => le_refl _,
      fun _ => le_refl _, fun _ => le_refl _, fun _ => le_refl _, le_refl _, le_refl _,
      fun _ => le_refl _, le_refl _⟩
  have hnodes : nodes (started c).cluster = nodes c := rfl
  exact hstarted.submitAll net subs hnodes

end Ledger

end Observed
end CardinalityTracker
