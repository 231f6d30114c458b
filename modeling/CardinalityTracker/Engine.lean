import CardinalityTracker.Sketch
import CardinalityTracker.Lib.OrderedMap

/-!
# The cardinality engine (`internal/cardinality/engine.go`)

An engine is a map from group names to live sketches of one algorithm, which `NewEngine`
fixes: here it is the type index `alg`. Every method holds the engine's lock for its whole
body, so a method is one step from map to map. A `save` callback acts on a state `W` of its
own and returns an error or nil; that state is threaded through the methods that call it.

`Gob` stands for `encoding/gob` on `map[string][]byte`, and `RangeOrder` for the order in
which Go ranges over a map, which may be any order.
-/

namespace CardinalityTracker

/-- The errors of the engine's methods, with what their texts are formatted from. -/
inductive EngineError
  /-- `ErrUnknownGroup`, from `Cardinality` and `Persist`. -/
  | unknownGroup (group : GoString)
  /-- `ErrAlgoMismatch`, from `Merge` and `MergeBytes`. -/
  | algoMismatch (engine got : GoString)
  /-- The nil remote sketch of `Merge`. -/
  | nilRemote
  /-- A `Parse` error of a group's bytes. -/
  | parse (group err : GoString)
  /-- The error of a `save` callback, returned as it is. -/
  | save (err : GoString)
  /-- A gob encoding or decoding error, returned as it is. -/
  | gob (err : GoString)
deriving DecidableEq, Repr

/-- `encoding/gob` at the type `map[string][]byte`. -/
structure Gob where
  encode : StringMap Bytes → Except GoString Bytes
  decode : Bytes → Except GoString (StringMap Bytes)

/-- Gob decoding inverts gob encoding, whenever encoding succeeds. -/
def Gob.RoundTrips (gob : Gob) : Prop := ∀ wire data, gob.encode wire = .ok data →
  gob.decode data = .ok wire

/-- The order in which Go ranges over a map: each binding once, in some order. -/
structure RangeOrder where
  range : {ν : Type} → StringMap ν → List (GoString × ν)
  perm : ∀ {ν : Type} (m : StringMap ν), (range m).Perm m.toList

variable {σ : Type}

/-- `Engine`, over the algorithm it was made with. -/
structure Engine (alg : Algorithm σ) where
  groups : StringMap σ

/-- A sketch passed to `Merge`: nil, one of the engine's algorithm, or one of another, whose
name then differs (`AlgoName` must equal its own algorithm's `Name`). -/
inductive Remote (alg : Algorithm σ)
  | nil
  | own (sk : σ)
  | foreign (algoName : GoString) (h : algoName ≠ alg.name)

namespace Engine

variable {alg : Algorithm σ}

/-- `NewEngine`. -/
def new (alg : Algorithm σ) : Engine alg := ⟨∅⟩

/-- The sketch of `group`, created empty when the group is absent: the first lines of `Add`
and of `AddAndPersist`. -/
def sketchOrNew (e : Engine alg) (group : GoString) : σ := e.groups[group]?.getD alg.new

/-- `Add`; it never fails. -/
def add (e : Engine alg) (group : GoString) (id : UInt64) : Engine alg × Option EngineError :=
  (⟨e.groups.insert group (alg.add (e.sketchOrNew group) id)⟩, none)

/-- `Cardinality`. -/
def cardinality (e : Engine alg) (group : GoString) : Except EngineError UInt64 :=
  match e.groups[group]? with
  | none => .error (.unknownGroup group)
  | some sk => .ok (alg.cardinality sk)

/-- `AddAndPersist`: insert, then hand the serialised sketch to `save`. -/
def addAndPersist {W : Type} (e : Engine alg) (group : GoString) (id : UInt64)
    (save : Bytes → W → W × Option GoString) (w : W) : Engine alg × W × Option EngineError :=
  let sk := alg.add (e.sketchOrNew group) id
  let (w', err) := save (alg.bytes sk) w
  (⟨e.groups.insert group sk⟩, w', err.map .save)

/-- `Persist`: hand the serialised sketch to `save`; the engine does not change. -/
def persist {W : Type} (e : Engine alg) (group : GoString)
    (save : Bytes → W → W × Option GoString) (w : W) : W × Option EngineError :=
  match e.groups[group]? with
  | none => (w, some (.unknownGroup group))
  | some sk =>
    let (w', err) := save (alg.bytes sk) w
    (w', err.map .save)

/-- `Restore`: parse the bytes and install the result, replacing what was there. -/
def restore (e : Engine alg) (group : GoString) (b : Bytes) : Engine alg × Option EngineError :=
  match alg.parse b with
  | .error err => (e, some (.parse group err))
  | .ok sk => (⟨e.groups.insert group sk⟩, none)

/-- `Merge`. An absent group is seeded with a clone of the remote sketch. -/
def merge (e : Engine alg) (group : GoString) : Remote alg → Engine alg × Option EngineError
  | .nil => (e, some .nilRemote)
  | .foreign algoName _ => (e, some (.algoMismatch alg.name algoName))
  | .own remote =>
    if alg.algoName remote ≠ alg.name then
      (e, some (.algoMismatch alg.name (alg.algoName remote)))
    else
      match e.groups[group]? with
      | none => (⟨e.groups.insert group (alg.clone remote)⟩, none)
      | some sk => (⟨e.groups.insert group (alg.merge sk remote)⟩, none)

/-- `MergeBytes`, the wire-facing entry point of `Merge`. -/
def mergeBytes (e : Engine alg) (group algoName : GoString) (b : Bytes) :
    Engine alg × Option EngineError :=
  if algoName ≠ alg.name then (e, some (.algoMismatch alg.name algoName))
  else
    match alg.parse b with
    | .error err => (e, some (.parse group err))
    | .ok remote => e.merge group (.own remote)

/-- `Marshal`: each group's bytes, gob-encoded. -/
def marshal (gob : Gob) (order : RangeOrder) (e : Engine alg) : Except EngineError Bytes :=
  let wire := (order.range e.groups).foldl (fun w p => w.insert p.1 (alg.bytes p.2)) ∅
  match gob.encode wire with
  | .error err => .error (.gob err)
  | .ok data => .ok data

/-- The loop of `Unmarshal`: parse each group's bytes into a fresh map. -/
def unmarshalLoop (alg : Algorithm σ) : List (GoString × Bytes) → StringMap σ →
    Except EngineError (StringMap σ)
  | [], groups => .ok groups
  | (g, b) :: rest, groups =>
    match alg.parse b with
    | .error err => .error (.parse g err)
    | .ok sk => unmarshalLoop alg rest (groups.insert g sk)

/-- `Unmarshal`: replace all state; any failure leaves the engine alone. -/
def unmarshal (gob : Gob) (order : RangeOrder) (e : Engine alg) (data : Bytes) :
    Engine alg × Option EngineError :=
  match gob.decode data with
  | .error err => (e, some (.gob err))
  | .ok wire =>
    match unmarshalLoop alg (order.range wire) ∅ with
    | .error err => (e, some err)
    | .ok groups => (⟨groups⟩, none)

end Engine

end CardinalityTracker
