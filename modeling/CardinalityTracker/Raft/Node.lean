import CardinalityTracker.Handler
import CardinalityTracker.Store

/-!
# The Raft node (`internal/raft/node.go`)

The part of a node that the program itself is: what its `Run` loop does with one `Ready`
batch. The consensus library that produces the batches is the environment; so are its
`MemoryStorage`, protobuf, gob and the outcomes of the store's saves. They are gathered in
`Env`, and what is relied on about them is stated in `Proto.Lawful` and
`MemoryStorage.Lawful`.

A Go panic has no handler in the loop, so it ends the process: steps that may panic return
`none` for it.
-/

namespace CardinalityTracker

/-! ## What the node is given -/

/-- `raftpb.EntryType`. -/
inductive EntryType
  | normal
  | confChange
  | confChangeV2
deriving DecidableEq, Repr

/-- `raftpb.Entry`. -/
structure Entry where
  type : EntryType
  term : ℕ
  index : ℕ
  data : Bytes
deriving DecidableEq, Repr

/-- `raftpb.Snapshot`, with the two fields of its metadata that are set. -/
structure Snapshot where
  data : Bytes
  index : ℕ
  term : ℕ
deriving DecidableEq, Repr

/-- The two fields of `etcdraft.Ready` that the loop reads. -/
structure Ready where
  entries : List Entry
  committedEntries : List Entry

/-- `proto.Marshal` and `proto.Unmarshal` at `pb.Command`. -/
structure Proto where
  marshal : Command → Except GoString Bytes
  unmarshal : Bytes → Except GoString Command

/-- `Unmarshal` inverts `Marshal`, and no bytes are the message with no field set. -/
structure Proto.Lawful (proto : Proto) : Prop where
  unmarshal_marshal : ∀ cmd data, proto.marshal cmd = .ok data → proto.unmarshal data = .ok cmd
  unmarshal_nil : proto.unmarshal [] = .ok ⟨[], [], []⟩

/-- The errors of `MemoryStorage` that `maybeSnapshot` can see. -/
inductive StorageError
  | compacted
  | snapOutOfDate
deriving DecidableEq, Repr

/-- The operations of `etcdraft.MemoryStorage` on its state `τ`. `ents` is its entry slice,
whose first element is a dummy that records a position only, and `snapshotIndex` the index
of the snapshot it holds. `none` is a panic. -/
structure MemoryStorage (τ : Type) where
  new : τ
  ents : τ → List Entry
  snapshotIndex : τ → ℕ
  append : τ → List Entry → Option (τ × Option StorageError)
  applySnapshot : τ → Snapshot → τ × Option StorageError
  compact : τ → ℕ → Option (τ × Option StorageError)

/-- The dummy entry that records a position of the log. -/
def dummyEntry (index term : ℕ) : Entry := ⟨.normal, term, index, []⟩

/-- `MemoryStorage.lastIndex`, counted from the dummy entry. -/
def lastIndex : List Entry → ℕ
  | [] => 0
  | d :: rest => d.index + rest.length

/-- What is relied on about `MemoryStorage`. -/
structure MemoryStorage.Lawful {τ : Type} (ms : MemoryStorage τ) : Prop where
  ents_new : ms.ents ms.new = [dummyEntry 0 0]
  snapshotIndex_new : ms.snapshotIndex ms.new = 0
  append_nil : ∀ s, ms.append s [] = some (s, none)
  /-- Entries that start right after the last one are appended. -/
  append_next : ∀ s e es, e.index = lastIndex (ms.ents s) + 1 → ∃ s',
    ms.append s (e :: es) = some (s', none) ∧ ms.ents s' = ms.ents s ++ e :: es ∧
      ms.snapshotIndex s' = ms.snapshotIndex s
  /-- `missing log entry`. -/
  append_gap : ∀ s e es, lastIndex (ms.ents s) + 1 < e.index → ms.append s (e :: es) = none
  /-- A newer snapshot replaces the whole slice by its position. -/
  applySnapshot_newer : ∀ s snap, ms.snapshotIndex s < snap.index → ∃ s',
    ms.applySnapshot s snap = (s', none) ∧ ms.ents s' = [dummyEntry snap.index snap.term] ∧
      ms.snapshotIndex s' = snap.index
  applySnapshot_older : ∀ s snap, snap.index ≤ ms.snapshotIndex s →
    ms.applySnapshot s snap = (s, some .snapOutOfDate)
  /-- There is nothing to compact at or below the dummy entry. -/
  compact_old : ∀ s i, (∃ d, (ms.ents s).head? = some d ∧ i ≤ d.index) →
    ms.compact s i = some (s, some .compacted)

/-- The environment of a node: the libraries it calls and how the store's saves end. -/
structure Env (τ : Type) where
  proto : Proto
  gob : Gob
  order : RangeOrder
  memory : MemoryStorage τ
  out : ℕ → SaveOutcome

/-! ## The node -/

def snapshotThreshold : ℕ := 10000

variable {σ τ : Type}

/-- `Node`: the fields its loop works on. The registry is always `DefaultRegistry`. -/
structure Node (alg : Algorithm σ) (τ : Type) where
  storage : τ
  engine : Engine alg
  store : Store
  appliedIdx : ℕ
  snapCount : ℕ

namespace Node

variable {alg : Algorithm σ}

/-- `NewNode`, over an engine and a store. -/
def new (env : Env τ) (engine : Engine alg) (store : Store) : Node alg τ :=
  ⟨env.memory.new, engine, store, 0, 0⟩

/-- The body of the loop of `applyEntries`. Each `continue` is a branch of its own: what has
been done by then stays done. -/
def applyEntry (env : Env τ) (n : Node alg τ) (e : Entry) : Node alg τ :=
  if e.type ≠ .normal ∨ e.data.length = 0 then n
  else
    match env.proto.unmarshal e.data with
    | .error _ => n
    | .ok cmd =>
      match defaultRegistry.dispatch (some cmd) (some (Engine.adder alg)) n.engine with
      | (engine, some _) => { n with engine }
      | (engine, none) =>
        -- an error of `Persist` is only logged
        let (store, _) := engine.persist cmd.group (Store.save env.out cmd.group) n.store
        { n with engine, store, appliedIdx := e.index, snapCount := n.snapCount + 1 }

/-- `applyEntries`. -/
def applyEntries (env : Env τ) (n : Node alg τ) (entries : List Entry) : Node alg τ :=
  entries.foldl (applyEntry env) n

/-- The snapshot `maybeSnapshot` builds, if it gets that far. -/
def snapshotOf (env : Env τ) (n : Node alg τ) : Option Snapshot :=
  if n.snapCount < snapshotThreshold then none
  else
    match n.engine.marshal env.gob env.order with
    | .error _ => none
    | .ok data => some ⟨data, n.appliedIdx, 1⟩

/-- `maybeSnapshot`. -/
def maybeSnapshot (env : Env τ) (n : Node alg τ) : Option (Node alg τ) :=
  match n.snapshotOf env with
  | none => some n
  | some snap =>
    match env.memory.applySnapshot n.storage snap with
    | (storage, some _) => some { n with storage }
    | (storage, none) =>
      match env.memory.compact storage n.appliedIdx with
      | none => none
      | some (storage, _) => some { n with storage, snapCount := 0 }

/-- What `Run` does with one `Ready` batch. -/
def ready (env : Env τ) (n : Node alg τ) (rd : Ready) : Option (Node alg τ) :=
  match env.memory.append n.storage rd.entries with
  | none => none
  | some (storage, _) =>
    ({ n with storage }.applyEntries env rd.committedEntries).maybeSnapshot env

end Node

/-- The command that `ProposeAdd` submits. -/
def addCommand (group : GoString) (id : UInt64) : Command :=
  ⟨typeAdd, group, Lib.Uvarint.appendUvarint [] id⟩

end CardinalityTracker
