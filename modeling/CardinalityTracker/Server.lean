import CardinalityTracker.Engine
import CardinalityTracker.Router
import CardinalityTracker.Store

/-!
# The server and its peers (`internal/server/grpc.go`)

A handler either does the work on its own engine or forwards the request to the peer that
owns the group, and a peer's handler may forward it again. Handlers are therefore written
over the whole cluster: a family of servers indexed by `ι`, of which the handler changes the
one it runs on. A call to a peer is a parameter `call` of the handlers; `serve` closes the
recursion, for requests that are forwarded fewer than `hops` times before their deadline.

`Cluster` also records what an observer of the cluster would see: the requests the servers
have received, and what the servers were before each change. Metrics are left out.
-/

namespace CardinalityTracker

variable {σ ι N : Type} {alg : Algorithm σ}

/-- The requests of the service. The handlers do not read `staleOk`. -/
inductive Request
  | add (group : GoString) (id : UInt64)
  | batchAdd (group : GoString) (ids : List UInt64)
  | query (group : GoString) (staleOk : Bool)
deriving DecidableEq, Repr

def Request.group : Request → GoString
  | .add group _ => group
  | .batchAdd group _ => group
  | .query group _ => group

/-- `pb.AddResponse` and `pb.QueryResponse`. -/
inductive Response
  | added (ok : Bool)
  | cardinality (group : GoString) (cardinality : UInt64)
deriving DecidableEq, Repr

/-- The errors a call returns, with what their texts are formatted from. -/
inductive Status
  /-- `InvalidArgument`, `group required`. -/
  | groupRequired
  /-- `Internal`, `dial peer %s: %v`. -/
  | dialPeer (owner err : GoString)
  /-- `Internal`, `raft propose: %v`. -/
  | raftPropose (err : GoString)
  /-- `Internal`, `engine add: %v`. -/
  | engineAdd (err : EngineError)
  /-- gRPC's own error when no server answers at an address. -/
  | unavailable (addr : GoString)
  /-- gRPC's own error when the request is not answered in time. -/
  | deadlineExceeded
deriving DecidableEq, Repr

/-- `Server`. `N` is the state of a `RaftNode`, absent in standalone mode; `conns` are the
addresses it has a connection to. -/
structure Server (alg : Algorithm σ) (N : Type) where
  engine : Engine alg
  store : Store
  node : Option N
  router : Option Ring
  selfAddr : GoString
  conns : StringMap Unit

/-- `New`. -/
def Server.new (engine : Engine alg) (store : Store) (node : Option N) (router : Option Ring)
    (selfAddr : GoString) : Server alg N :=
  ⟨engine, store, node, router, selfAddr, ∅⟩

/-- What the servers of a cluster are given. -/
structure Network (ι N : Type) where
  /-- `murmur3.Sum32`. -/
  sum32 : Bytes → UInt32
  /-- How the saves of each server's store end. -/
  out : ι → ℕ → SaveOutcome
  /-- `ProposeAdd`, with its error. -/
  proposeAdd : N → GoString → UInt64 → N × Option GoString
  /-- The error of `grpc.Dial`, if any. -/
  dial : GoString → Option GoString
  /-- The server that a call to an address reaches. -/
  reach : GoString → Option ι

/-- The servers, the requests they have received, and what they were before each change. -/
structure Cluster (ι : Type) (alg : Algorithm σ) (N : Type) where
  servers : ι → Server alg N
  received : List (ι × Request)
  past : List (ι → Server alg N)

/-- Every moment of the cluster so far. -/
def Cluster.moments (c : Cluster ι alg N) : List (ι → Server alg N) := c.past ++ [c.servers]

/-! ## Routing -/

/-- The decision at the head of `addID`, `BatchAdd` and `Query`: the peer that the request
has to be forwarded to, if any. An empty owner means that the request is handled here. -/
def Server.forwardTo (sum32 : Bytes → UInt32) (s : Server alg N) (group : GoString) :
    Option GoString :=
  match s.router with
  | none => none
  | some router =>
    if s.selfAddr = [] then none
    else
      let owner := router.resolve sum32 group
      if owner ≠ [] ∧ owner ≠ s.selfAddr then some owner else none

/-- `getPeerClient`: dial the address, unless there is a connection to it already. -/
def Server.getPeerClient (dial : GoString → Option GoString) (s : Server alg N)
    (addr : GoString) : Server alg N × Option GoString :=
  match s.conns[addr]? with
  | some _ => (s, none)
  | none =>
    match dial addr with
    | some err => (s, some err)
    | none => ({ s with conns := s.conns.insert addr () }, none)

namespace Cluster

variable [DecidableEq ι]

/-- Server `i` changes. -/
def put (c : Cluster ι alg N) (i : ι) (s : Server alg N) : Cluster ι alg N :=
  { c with servers := Function.update c.servers i s, past := c.past ++ [c.servers] }

/-- Server `i` receives a request. -/
def receive (c : Cluster ι alg N) (i : ι) (req : Request) : Cluster ι alg N :=
  { c with received := c.received ++ [(i, req)] }

/-! ## The handlers -/

/-- A call to the server at an address. -/
abbrev Call (ι : Type) (alg : Algorithm σ) (N : Type) :=
  GoString → Request → Cluster ι alg N → Cluster ι alg N × Except Status Response

section Handlers

variable (net : Network ι N) (call : Call ι alg N) (i : ι)

/-- Forward a request to its owner. -/
def forward (owner : GoString) (req : Request) (c : Cluster ι alg N) :
    Cluster ι alg N × Except Status Response :=
  match (c.servers i).getPeerClient net.dial owner with
  | (s, some err) => (c.put i s, .error (.dialPeer owner err))
  | (s, none) => call owner req (c.put i s)

/-- The part of `addID` that does the work here: through the Raft log when the server has a
node, otherwise on the engine and the store. -/
def addLocal (group : GoString) (id : UInt64) (c : Cluster ι alg N) :
    Cluster ι alg N × Option Status :=
  let s := c.servers i
  match s.node with
  | some node =>
    let (node, err) := net.proposeAdd node group id
    (c.put i { s with node := some node }, err.map .raftPropose)
  | none =>
    let (engine, store, err) := s.engine.addAndPersist group id (Store.save (net.out i) group)
      s.store
    (c.put i { s with engine, store }, err.map .engineAdd)

/-- `addID`. The response of a peer is dropped. -/
def addID (group : GoString) (id : UInt64) (c : Cluster ι alg N) :
    Cluster ι alg N × Option Status :=
  match (c.servers i).forwardTo net.sum32 group with
  | some owner =>
    match forward net call i owner (.add group id) c with
    | (c, .error err) => (c, some err)
    | (c, .ok _) => (c, none)
  | none => addLocal net i group id c

/-- `Add`. -/
def add (group : GoString) (id : UInt64) (c : Cluster ι alg N) :
    Cluster ι alg N × Except Status Response :=
  if group = [] then (c, .error .groupRequired)
  else
    match addID net call i group id c with
    | (c, some err) => (c, .error err)
    | (c, none) => (c, .ok (.added true))

/-- The loop of `BatchAdd`. It stops at the first error. -/
def addIDs (group : GoString) : List UInt64 → Cluster ι alg N → Cluster ι alg N × Option Status
  | [], c => (c, none)
  | id :: ids, c =>
    match addID net call i group id c with
    | (c, some err) => (c, some err)
    | (c, none) => addIDs group ids c

/-- `BatchAdd`: a request of another owner is forwarded as a whole. -/
def batchAdd (group : GoString) (ids : List UInt64) (c : Cluster ι alg N) :
    Cluster ι alg N × Except Status Response :=
  if group = [] then (c, .error .groupRequired)
  else
    match (c.servers i).forwardTo net.sum32 group with
    | some owner => forward net call i owner (.batchAdd group ids) c
    | none =>
      match addIDs net call i group ids c with
      | (c, some err) => (c, .error err)
      | (c, none) => (c, .ok (.added true))

/-- `Query`. An unknown group reads as empty. -/
def query (group : GoString) (staleOk : Bool) (c : Cluster ι alg N) :
    Cluster ι alg N × Except Status Response :=
  if group = [] then (c, .error .groupRequired)
  else
    match (c.servers i).forwardTo net.sum32 group with
    | some owner => forward net call i owner (.query group staleOk) c
    | none =>
      let card := match (c.servers i).engine.cardinality group with
        | .ok card => card
        | .error _ => 0
      (c, .ok (.cardinality group card))

/-- The handler of a request. -/
def handle : Request → Cluster ι alg N → Cluster ι alg N × Except Status Response
  | .add group id => add net call i group id
  | .batchAdd group ids => batchAdd net call i group ids
  | .query group staleOk => query net call i group staleOk

end Handlers

/-- A request that server `i` receives and that can be forwarded fewer than `hops` times. -/
def serve (net : Network ι N) :
    ℕ → ι → Request → Cluster ι alg N → Cluster ι alg N × Except Status Response
  | 0, _, _, c => (c, .error .deadlineExceeded)
  | hops + 1, i, req, c =>
    handle net
      (fun owner req c =>
        match net.reach owner with
        | none => (c, .error (.unavailable owner))
        | some j => serve net hops j req c)
      i req (c.receive i req)

/-- What a client and an observer see of one request: the response, and who received it. -/
structure Reply (ι : Type) where
  response : Except Status Response
  received : List (ι × Request)

/-- A client's request to the server `entry.1`. -/
def submit (net : Network ι N) (hops : ℕ) (entry : ι × Request) (c : Cluster ι alg N) :
    Cluster ι alg N × Reply ι :=
  let (c, response) := serve net hops entry.1 entry.2 { c with received := [] }
  (c, ⟨response, c.received⟩)

/-- A sequence of clients' requests. -/
def submitAll (net : Network ι N) (hops : ℕ) :
    List (ι × Request) → Cluster ι alg N → Cluster ι alg N × List (Reply ι)
  | [], c => (c, [])
  | entry :: entries, c =>
    let (c, reply) := submit net hops entry c
    let (c, replies) := submitAll net hops entries c
    (c, reply :: replies)

end Cluster

end CardinalityTracker
