import CardinalityTracker.ServerTheorems

/-!
# What the metrics count (`internal/server/grpc.go`, `metrics.go`, `interceptor.go`)

The handlers of `Server.lean` with the counters they increment. A counter is the number of times it
was incremented with its labels, so the metrics of a process are a list of samples, and those of a
cluster a list of samples each with the server that took it; how long a call took is left out, that
it was observed is not. A handler sets its `statusStr` by hand in each branch and the deferred
function reads it; `UnaryMetricsInterceptor` wraps the handler and records the status code of what
it returned.

The answer to a call can be lost when the server that was called has worked on it and has counted
it: the caller, a client or a server that forwarded the request, then gets an error.

`erase_serve` says that the counters change nothing else: without them, and when no answer is lost,
these handlers are those of `Server.lean`.
-/

namespace CardinalityTracker

variable {σ ι N : Type} {alg : Algorithm σ}

/-- The methods of the service, the values of the label `method`. -/
inductive Method
  | add
  | batchAdd
  | query
deriving DecidableEq, Repr

def Request.method : Request → Method
  | .add _ _ => .add
  | .batchAdd _ _ => .batchAdd
  | .query _ _ => .query

/-- The values of the label `status`. -/
inductive Outcome
  | success
  | error
deriving DecidableEq, Repr

/-- The gRPC status codes a call can end with, the values of the label `code`. -/
inductive GrpcCode
  | ok
  | invalidArgument
  | internal
  | unavailable
  | deadlineExceeded
deriving DecidableEq, Repr

/-- `status.Code` of an error. -/
def Status.code : Status → GrpcCode
  | .groupRequired => .invalidArgument
  | .dialPeer _ _ => .internal
  | .raftPropose _ => .internal
  | .engineAdd _ => .internal
  | .unavailable _ => .unavailable
  | .deadlineExceeded => .deadlineExceeded

/-- `status.Code` of what a call returned; nil is `OK`. -/
def codeOf : Except Status Response → GrpcCode
  | .ok _ => .ok
  | .error err => err.code

/-- One increment of a counter, or one observation of a histogram. -/
inductive Sample
  /-- `metricRequestsTotal`. -/
  | requests (method : Method) (status : Outcome)
  /-- `metricRequestDurationSeconds`. -/
  | requestDuration (method : Method)
  /-- `metricRaftProposalsTotal`. -/
  | raftProposals (status : Outcome)
  /-- `metricForwardedRequestsTotal`. -/
  | forwardedRequests (peer : GoString) (method : Method)
  /-- `metricForwardedErrorsTotal`. -/
  | forwardedErrors (peer : GoString) (method : Method)
  /-- `metricBatchSize`, with the number of ids. -/
  | batchSize (ids : ℕ)
  /-- `metricGRPCRequestsTotal`. -/
  | grpcRequests (method : Method) (code : GrpcCode)
  /-- `metricGRPCDurationSeconds`. -/
  | grpcDuration (method : Method) (code : GrpcCode)
deriving DecidableEq, Repr

/-- A cluster and the samples its servers have taken. -/
structure Observed (ι : Type) (alg : Algorithm σ) (N : Type) where
  cluster : Cluster ι alg N
  samples : List (ι × Sample)

namespace Observed

/-- Server `i` takes a sample. -/
def record (o : Observed ι alg N) (i : ι) (sample : Sample) : Observed ι alg N :=
  { o with samples := o.samples ++ [(i, sample)] }

/-- A call to the server at an address. -/
abbrev Call (ι : Type) (alg : Algorithm σ) (N : Type) :=
  GoString → Request → Observed ι alg N → Observed ι alg N × Except Status Response

section Handlers

variable [DecidableEq ι] (net : Network ι N) (call : Call ι alg N) (i : ι)

/-- Forward a request to its owner, counted under `method`. -/
def forward (method : Method) (owner : GoString) (req : Request) (o : Observed ι alg N) :
    Observed ι alg N × Except Status Response :=
  let o := o.record i (.forwardedRequests owner method)
  match (o.cluster.servers i).getPeerClient net.dial owner with
  | (s, some err) =>
    ({ o with cluster := o.cluster.put i s }.record i (.forwardedErrors owner method),
      .error (.dialPeer owner err))
  | (s, none) =>
    match call owner req { o with cluster := o.cluster.put i s } with
    | (o, .error err) => (o.record i (.forwardedErrors owner method), .error err)
    | (o, .ok resp) => (o, .ok resp)

/-- The part of `addID` that does the work here. -/
def addLocal (group : GoString) (id : UInt64) (o : Observed ι alg N) :
    Observed ι alg N × Option Status :=
  let s := o.cluster.servers i
  match s.node with
  | some node =>
    match net.proposeAdd node group id with
    | (node, some err) =>
      ({ o with cluster := o.cluster.put i { s with node := some node } }.record i
        (.raftProposals .error), some (.raftPropose err))
    | (node, none) =>
      ({ o with cluster := o.cluster.put i { s with node := some node } }.record i
        (.raftProposals .success), none)
  | none =>
    let (engine, store, err) := s.engine.addAndPersist group id (Store.save (net.out i) group)
      s.store
    ({ o with cluster := o.cluster.put i { s with engine, store } }, err.map .engineAdd)

/-- `addID`; `method` is the label of the request it is part of. -/
def addID (method : Method) (group : GoString) (id : UInt64) (o : Observed ι alg N) :
    Observed ι alg N × Option Status :=
  match (o.cluster.servers i).forwardTo net.sum32 group with
  | some owner =>
    match forward net call i method owner (.add group id) o with
    | (o, .error err) => (o, some err)
    | (o, .ok _) => (o, none)
  | none => addLocal net i group id o

/-- `statusStr` and the result when the adds have ended with an error or nil. -/
def addResult : Observed ι alg N × Option Status →
    Observed ι alg N × Outcome × Except Status Response
  | (o, some err) => (o, .error, .error err)
  | (o, none) => (o, .success, .ok (.added true))

/-- `statusStr` and the result when a peer has answered. -/
def peerResult : Observed ι alg N × Except Status Response →
    Observed ι alg N × Outcome × Except Status Response
  | (o, .error err) => (o, .error, .error err)
  | (o, .ok resp) => (o, .success, .ok resp)

/-- The body of `Add`; the second component is `statusStr` when it returns. -/
def addBody (group : GoString) (id : UInt64) (o : Observed ι alg N) :
    Observed ι alg N × Outcome × Except Status Response :=
  if group = [] then (o, .error, .error .groupRequired)
  else addResult (addID net call i .add group id o)

/-- The loop of `BatchAdd`. -/
def addIDs (group : GoString) : List UInt64 → Observed ι alg N → Observed ι alg N × Option Status
  | [], o => (o, none)
  | id :: ids, o =>
    match addID net call i .batchAdd group id o with
    | (o, some err) => (o, some err)
    | (o, none) => addIDs group ids o

/-- The body of `BatchAdd`. -/
def batchAddBody (group : GoString) (ids : List UInt64) (o : Observed ι alg N) :
    Observed ι alg N × Outcome × Except Status Response :=
  if group = [] then (o, .error, .error .groupRequired)
  else
    match (o.cluster.servers i).forwardTo net.sum32 group with
    | some owner => peerResult (forward net call i .batchAdd owner (.batchAdd group ids) o)
    | none => addResult (addIDs net call i group ids (o.record i (.batchSize ids.length)))

/-- The body of `Query`. -/
def queryBody (group : GoString) (staleOk : Bool) (o : Observed ι alg N) :
    Observed ι alg N × Outcome × Except Status Response :=
  if group = [] then (o, .error, .error .groupRequired)
  else
    match (o.cluster.servers i).forwardTo net.sum32 group with
    | some owner => peerResult (forward net call i .query owner (.query group staleOk) o)
    | none =>
      let card := match (o.cluster.servers i).engine.cardinality group with
        | .ok card => card
        | .error _ => 0
      (o, .success, .ok (.cardinality group card))

def body : Request → Observed ι alg N → Observed ι alg N × Outcome × Except Status Response
  | .add group id => addBody net call i group id
  | .batchAdd group ids => batchAddBody net call i group ids
  | .query group staleOk => queryBody net call i group staleOk

/-- A handler: its body, then its deferred function. -/
def handle (req : Request) (o : Observed ι alg N) : Observed ι alg N × Except Status Response :=
  let (o, statusStr, resp) := body net call i req o
  ((o.record i (.requests req.method statusStr)).record i (.requestDuration req.method), resp)

/-- `UnaryMetricsInterceptor` around a handler. -/
def intercept (req : Request) (o : Observed ι alg N) : Observed ι alg N × Except Status Response :=
  let (o, resp) := handle net call i req o
  ((o.record i (.grpcRequests req.method (codeOf resp))).record i
    (.grpcDuration req.method (codeOf resp)), resp)

end Handlers

variable [DecidableEq ι]

/-- What the caller gets of an answer, which may be lost on its way back. -/
def answer (lost : Bool) (r : Observed ι alg N × Except Status Response) :
    Observed ι alg N × Except Status Response :=
  (r.1, if lost then .error .deadlineExceeded else r.2)

/-- A request that server `i` receives and that can be forwarded fewer than `hops` times. `lost`
says of the call that can still be forwarded fewer than `h` times whether its answer is lost. -/
def serve (net : Network ι N) (lost : ℕ → Bool) :
    ℕ → ι → Request → Observed ι alg N → Observed ι alg N × Except Status Response
  | 0, _, _, o => (o, .error .deadlineExceeded)
  | hops + 1, i, req, o =>
    intercept net
      (fun owner req o =>
        match net.reach owner with
        | none => (o, .error (.unavailable owner))
        | some j => answer (lost hops) (serve net lost hops j req o))
      i req { o with cluster := o.cluster.receive i req }

/-- What a request meets on its way. -/
structure Conditions (ι : Type) where
  /-- How many servers it can reach before its deadline. -/
  hops : ℕ
  /-- The error of `grpc.Dial`, if any. -/
  dial : GoString → Option GoString
  /-- The server that a call to an address reaches. -/
  reach : GoString → Option ι
  /-- The answers that do not come back: of the client's call at `hops`, and of the calls of the
  servers that forward it below. -/
  lost : ℕ → Bool

/-- The network under these conditions. -/
def Conditions.network (cond : Conditions ι) (net : Network ι N) : Network ι N :=
  { net with dial := cond.dial, reach := cond.reach }

/-- Some answer may be lost. -/
def Conditions.lossy (cond : Conditions ι) : Bool := (List.range (cond.hops + 1)).any cond.lost

/-- A client's request: the server it is sent to, and what it meets. -/
structure Submission (ι : Type) where
  server : ι
  request : Request
  conditions : Conditions ι

/-- A client's call. -/
def submit (net : Network ι N) (sub : Submission ι) (o : Observed ι alg N) :
    Observed ι alg N × Except Status Response :=
  let cond := sub.conditions
  answer (cond.lost cond.hops)
    (serve (cond.network net) cond.lost cond.hops sub.server sub.request o)

/-- A sequence of clients' requests, with their responses. -/
def submitAll (net : Network ι N) :
    List (Submission ι) → Observed ι alg N → Observed ι alg N × List (Except Status Response)
  | [], o => (o, [])
  | sub :: subs, o =>
    let (o, resp) := submit net sub o
    let (o, resps) := submitAll net subs o
    (o, resp :: resps)

/-! ## Without the counters -/

section Erasure

variable {net : Network ι N} {call : Call ι alg N} {call' : Cluster.Call ι alg N} {i : ι}

/-- What is left of a result without the samples. -/
def erase {α : Type} (r : Observed ι alg N × α) : Cluster ι alg N × α := (r.1.cluster, r.2)

variable (hcall : ∀ owner req o, erase (call owner req o) = call' owner req o.cluster)
include hcall

theorem erase_forward (method : Method) (owner : GoString) (req : Request) (o : Observed ι alg N) :
    erase (forward net call i method owner req o)
      = Cluster.forward net call' i owner req o.cluster := by
  unfold forward Cluster.forward
  simp only [record]
  rcases (o.cluster.servers i).getPeerClient net.dial owner with ⟨s, _ | err⟩
  · have hpeer := hcall owner req
      ⟨o.cluster.put i s, o.samples ++ [(i, .forwardedRequests owner method)]⟩
    dsimp only at hpeer ⊢
    rw [← hpeer]
    rcases call owner req _ with ⟨o', err | resp⟩ <;> rfl
  · rfl

omit hcall in
theorem erase_addLocal (group : GoString) (id : UInt64) (o : Observed ι alg N) :
    erase (addLocal net i group id o) = Cluster.addLocal net i group id o.cluster := by
  unfold addLocal Cluster.addLocal
  cases hnode : (o.cluster.servers i).node with
  | some node =>
    rcases hpropose : net.proposeAdd node group id with ⟨node', _ | err⟩
    · simp only [hnode, hpropose]
      rfl
    · simp only [hnode, hpropose]
      rfl
  | none =>
    simp only [hnode]
    rfl

theorem erase_addID (method : Method) (group : GoString) (id : UInt64) (o : Observed ι alg N) :
    erase (addID net call i method group id o)
      = Cluster.addID net call' i group id o.cluster := by
  unfold addID Cluster.addID
  cases (o.cluster.servers i).forwardTo net.sum32 group with
  | some owner =>
    dsimp only
    rw [← erase_forward hcall method]
    rcases forward net call i method owner (.add group id) o with ⟨o', err | resp⟩ <;> rfl
  | none => exact erase_addLocal group id o

theorem erase_addIDs (group : GoString) (ids : List UInt64) (o : Observed ι alg N) :
    erase (addIDs net call i group ids o) = Cluster.addIDs net call' i group ids o.cluster := by
  induction ids generalizing o with
  | nil => rfl
  | cons id ids ih =>
    unfold addIDs Cluster.addIDs
    rw [← erase_addID hcall .batchAdd]
    rcases addID net call i .batchAdd group id o with ⟨o', _ | err⟩
    · exact ih o'
    · rfl

theorem erase_intercept (req : Request) (o : Observed ι alg N) :
    erase (intercept net call i req o) = Cluster.handle net call' i req o.cluster := by
  -- the deferred function and the interceptor only take samples
  have herase : erase (intercept net call i req o)
      = ((body net call i req o).1.cluster, (body net call i req o).2.2) := rfl
  rw [herase]
  cases req with
  | add group id =>
    simp only [body, addBody, Cluster.handle, Cluster.add]
    by_cases hgroup : group = []
    · rw [if_pos hgroup, if_pos hgroup]
    · rw [if_neg hgroup, if_neg hgroup, ← erase_addID hcall .add]
      rcases addID net call i .add group id o with ⟨o', _ | err⟩ <;> rfl
  | batchAdd group ids =>
    simp only [body, batchAddBody, Cluster.handle, Cluster.batchAdd]
    by_cases hgroup : group = []
    · rw [if_pos hgroup, if_pos hgroup]
    · rw [if_neg hgroup, if_neg hgroup]
      cases (o.cluster.servers i).forwardTo net.sum32 group with
      | some owner =>
        dsimp only
        rw [← erase_forward hcall .batchAdd]
        rcases forward net call i .batchAdd owner (.batchAdd group ids) o with ⟨o', err | resp⟩
          <;> rfl
      | none =>
        have hids : erase (addIDs net call i group ids (o.record i (.batchSize ids.length)))
            = Cluster.addIDs net call' i group ids o.cluster := erase_addIDs hcall group ids _
        dsimp only
        rw [← hids]
        rcases addIDs net call i group ids _ with ⟨o', _ | err⟩ <;> rfl
  | query group staleOk =>
    simp only [body, queryBody, Cluster.handle, Cluster.query]
    by_cases hgroup : group = []
    · rw [if_pos hgroup, if_pos hgroup]
    · rw [if_neg hgroup, if_neg hgroup]
      cases (o.cluster.servers i).forwardTo net.sum32 group with
      | some owner =>
        dsimp only
        rw [← erase_forward hcall .query]
        rcases forward net call i .query owner (.query group staleOk) o with ⟨o', err | resp⟩
          <;> rfl
      | none => rfl

omit hcall in
/-- **The counters change nothing else.** -/
theorem erase_serve (net : Network ι N) (hops : ℕ) (i : ι) (req : Request)
    (o : Observed ι alg N) :
    erase (serve net (fun _ => false) hops i req o) = Cluster.serve net hops i req o.cluster := by
  induction hops generalizing i req o with
  | zero => rfl
  | succ hops ih =>
    unfold serve Cluster.serve
    refine erase_intercept (fun owner req o => ?_) req _
    cases net.reach owner with
    | none => rfl
    | some j => exact ih j req o

end Erasure

end Observed
end CardinalityTracker
