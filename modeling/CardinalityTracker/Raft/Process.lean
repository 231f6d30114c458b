import CardinalityTracker.Raft.Node
import CardinalityTracker.Recovery
import CardinalityTracker.Server

/-!
# The process in Raft mode (`cmd/server/main.go`)

`cmd/server` always starts a Raft node, so an add goes through the node's log: a handler
calls `ProposeAdd`, which queues a proposal for the `Run` loop and waits for the result of
`Propose`; the library puts accepted proposals into its log, commits them, and hands them to
the loop in `Ready` batches. Handlers, proposals and the loop are concurrent, so the process
is a transition system: a label says what happens next and carries the environment's choices
(the arrival of requests, the library's decisions, expired contexts), and `step` is what the
program does then.

A restart may happen in any state. It keeps the store, rebuilds the engine from it, and
starts a node with an empty log; requests and proposals in flight are gone. Requests that are
forwarded to another server are not part of this one.
-/

namespace CardinalityTracker
namespace RaftMode

variable {σ τ : Type} {alg : Algorithm σ}

/-! ## States -/

/-- Where the handler of a request is. -/
inductive Phase
  /-- Before the `addID` call of the next id, or at the end of the handler. -/
  | running
  /-- In `ProposeAdd`, waiting for the result of a proposal. -/
  | waiting (proposal : ℕ)
  /-- It has returned: an error, or nil for the response with `Ok: true`. -/
  | returned (err : Option Status)
deriving DecidableEq, Repr

/-- An `Add` (one id) or a `BatchAdd`, and for how many of its ids `ProposeAdd` has returned
nil. -/
structure Write where
  group : GoString
  ids : List UInt64
  done : ℕ
  phase : Phase
deriving DecidableEq, Repr

/-- Where a proposal is. -/
inductive ProposalState
  /-- In the channel `proposeC`. -/
  | queued
  /-- Taken by the loop: its goroutine is in `Propose`. -/
  | proposed
  /-- The result is in `resultC`. -/
  | answered (err : Option GoString)
deriving DecidableEq, Repr

/-- `propose`. -/
structure Proposal where
  data : Bytes
  state : ProposalState
deriving DecidableEq, Repr

/-- The process and its store, with what its clients have been told. -/
structure State (alg : Algorithm σ) (τ : Type) where
  node : Node alg τ
  /-- Everything that has been put into the log of the library since the process started: how much
  of it has been handed out in `Ready.Entries`, how much is committed, and how much has been handed
  out in `Ready.CommittedEntries`. It is a history: a snapshot drops entries from the storage of the
  node and not from here, so that `ready` can hand out an entry at which the library would panic.
  A panic is a `restart`. -/
  log : List Entry
  stable : ℕ
  committed : ℕ
  applied : ℕ
  proposals : List Proposal
  writes : List Write
  /-- The adds that this process has acknowledged. -/
  acked : List (GoString × UInt64)
  /-- The adds that were acknowledged before the last restart. -/
  owed : List (GoString × UInt64)

/-- A first start, with an empty store. -/
def init (env : Env τ) (alg : Algorithm σ) : State alg τ :=
  ⟨Node.new env (Engine.new alg) Store.empty, [], 0, 0, 0, [], [], [], []⟩

/-! ## Steps -/

/-- What happens next. -/
inductive Label
  /-- A request arrives. -/
  | submit (group : GoString) (ids : List UInt64)
  /-- A handler submits its next id. -/
  | propose (write : ℕ)
  /-- The loop takes the oldest proposal from `proposeC`. -/
  | receive
  /-- `Propose` puts the proposal into the log and returns nil. -/
  | accept (proposal term : ℕ)
  /-- `Propose` returns an error. -/
  | refuse (proposal : ℕ) (err : GoString)
  /-- `ProposeAdd` returns the result of its proposal. -/
  | result (write : ℕ)
  /-- `ProposeAdd` returns the error of its context. -/
  | cancel (write : ℕ) (err : GoString)
  /-- A handler returns `Ok: true`. -/
  | respond (write : ℕ)
  /-- The library appends an entry of its own. -/
  | internal (type : EntryType) (term : ℕ) (data : Bytes)
  /-- The library commits its log up to this length. -/
  | commit (length : ℕ)
  /-- The loop handles a `Ready` batch with this many committed entries. -/
  | ready (count : ℕ)
  /-- The process ends, in whatever way, and is started again. -/
  | restart
deriving DecidableEq, Repr

/-- The capacity of `proposeC`. -/
def proposeCap : ℕ := 128

/-- The handler of write `r` moves on. -/
def State.setWrite (s : State alg τ) (r : ℕ) (w : Write) : State alg τ :=
  { s with writes := s.writes.set r w }

/-- The state of proposal `k` changes. -/
def State.setProposal (s : State alg τ) (k : ℕ) (p : Proposal) : State alg τ :=
  { s with proposals := s.proposals.set k p }

/-- An entry is put at the end of the log. -/
def State.append (s : State alg τ) (type : EntryType) (term : ℕ) (data : Bytes) :
    State alg τ :=
  { s with log := s.log ++ [⟨type, term, s.log.length + 1, data⟩] }

/-- The start of `Add` and `BatchAdd`. -/
def submit (group : GoString) (ids : List UInt64) (s : State alg τ) : State alg τ :=
  let phase := if group = [] then .returned (some .groupRequired) else .running
  { s with writes := s.writes ++ [⟨group, ids, 0, phase⟩] }

/-- `ProposeAdd` up to its second `select`, for the next id of the write. A full channel
blocks. -/
def propose (proto : Proto) (r : ℕ) (s : State alg τ) : Option (State alg τ) := do
  let w ← s.writes[r]?
  let id ← w.ids[w.done]?
  guard (w.phase = .running)
  match proto.marshal (addCommand w.group id) with
  | .error err => return s.setWrite r { w with phase := .returned (some (.raftPropose err)) }
  | .ok data =>
    guard (s.proposals.countP (fun p => p.state = .queued) < proposeCap)
    let s := s.setWrite r { w with phase := .waiting s.proposals.length }
    return { s with proposals := s.proposals ++ [⟨data, .queued⟩] }

/-- The loop receives from `proposeC`. -/
def receive (s : State alg τ) : Option (State alg τ) := do
  let k ← s.proposals.findIdx? fun p => p.state = .queued
  let p ← s.proposals[k]?
  return s.setProposal k { p with state := .proposed }

/-- `Propose` returns nil. -/
def accept (k term : ℕ) (s : State alg τ) : Option (State alg τ) := do
  let p ← s.proposals[k]?
  guard (p.state = .proposed)
  return (s.setProposal k { p with state := .answered none }).append .normal term p.data

/-- `Propose` returns an error. -/
def refuse (k : ℕ) (err : GoString) (s : State alg τ) : Option (State alg τ) := do
  let p ← s.proposals[k]?
  guard (p.state = .proposed)
  return s.setProposal k { p with state := .answered (some err) }

/-- `ProposeAdd` returns the result of its proposal, and `addID` goes on with it. -/
def result (r : ℕ) (s : State alg τ) : Option (State alg τ) := do
  let w ← s.writes[r]?
  match w.phase with
  | .waiting k =>
    let p ← s.proposals[k]?
    match p.state with
    | .answered none => return s.setWrite r { w with done := w.done + 1, phase := .running }
    | .answered (some err) =>
      return s.setWrite r { w with phase := .returned (some (.raftPropose err)) }
    | _ => none
  | _ => none

/-- The handler is in `ProposeAdd`. -/
def Write.inProposeAdd (w : Write) : Bool :=
  match w.phase with
  | .running => w.done < w.ids.length
  | .waiting _ => true
  | .returned _ => false

/-- `ProposeAdd` returns the error of its context, from either `select`. A proposal that has
been sent stays on its way. -/
def cancel (r : ℕ) (err : GoString) (s : State alg τ) : Option (State alg τ) := do
  let w ← s.writes[r]?
  guard w.inProposeAdd
  return s.setWrite r { w with phase := .returned (some (.raftPropose err)) }

/-- The end of `Add` and `BatchAdd`: all their ids are acknowledged. -/
def respond (r : ℕ) (s : State alg τ) : Option (State alg τ) := do
  let w ← s.writes[r]?
  guard (w.phase = .running ∧ w.done = w.ids.length)
  let s := s.setWrite r { w with phase := .returned none }
  return { s with acked := s.acked ++ w.ids.map fun id => (w.group, id) }

/-- The entries the library appends by itself carry no command. -/
def internal (type : EntryType) (term : ℕ) (data : Bytes) (s : State alg τ) :
    Option (State alg τ) := do
  guard (type ≠ .normal ∨ data = [])
  return s.append type term data

/-- The library commits. -/
def commit (length : ℕ) (s : State alg τ) : Option (State alg τ) := do
  guard (s.committed ≤ length ∧ length ≤ s.log.length)
  return { s with committed := length }

/-- The loop handles a `Ready` batch. When it panics there is no next state but a restart. -/
def ready (env : Env τ) (count : ℕ) (s : State alg τ) : Option (State alg τ) := do
  guard (s.applied + count ≤ s.committed)
  let node ← s.node.ready env ⟨s.log.drop s.stable, (s.log.drop s.applied).take count⟩
  return { s with node, stable := s.log.length, applied := s.applied + count }

/-- `run` of `main.go`: the engine is rebuilt from the store, and a failure to do so ends the
process. -/
def restart (env : Env τ) (s : State alg τ) : Option (State alg τ) :=
  match restoreAll alg s.node.store with
  | (_, some _) => none
  | ((engine, _), none) =>
    some ⟨Node.new env engine s.node.store, [], 0, 0, 0, [], [], [], s.owed ++ s.acked⟩

/-- One step; `none` when it cannot be taken. -/
def step (env : Env τ) (s : State alg τ) : Label → Option (State alg τ)
  | .submit group ids => some (submit group ids s)
  | .propose r => propose env.proto r s
  | .receive => receive s
  | .accept k term => accept k term s
  | .refuse k err => refuse k err s
  | .result r => result r s
  | .cancel r err => cancel r err s
  | .respond r => respond r s
  | .internal type term data => internal type term data s
  | .commit length => commit length s
  | .ready count => ready env count s
  | .restart => restart env s

end RaftMode
end CardinalityTracker
