import CardinalityTracker.Engine
import CardinalityTracker.Lib.Uvarint

/-!
# Raft commands (`internal/raft/handler`)

The command registry and its three built-in handlers. Handlers are written against the
interface `Adder`, here a record of operations on a state `S` whose errors are `ε`: an
operation returns the new state and an error or nil, and what it did before it failed stays
done. `Engine.adder` is the engine seen through that interface.
-/

namespace CardinalityTracker

open Lib.Uvarint

/-- `pb.Command`. -/
structure Command where
  type : GoString
  group : GoString
  payload : Bytes
deriving DecidableEq, Repr

/-- The errors of `Dispatch` and the handlers. `ε` is the error type of the adder. -/
inductive HandlerError (ε : Type)
  /-- `ErrUnknownCommand`, with the type no handler is registered for (nil command: none). -/
  | unknownCommand (type : Option GoString)
  /-- `ErrBadPayload`, with the text that follows it. -/
  | badPayload (detail : GoString)
  /-- `raft: nil adder`. -/
  | nilAdder
  /-- An error of the adder, passed through. -/
  | adder (err : ε)
deriving DecidableEq, Repr

/-- The interface `Adder`, the part of an engine that handlers need. -/
structure Adder (S ε : Type) where
  add : S → GoString → UInt64 → S × Option ε
  mergeBytes : S → GoString → GoString → Bytes → S × Option ε

/-- `Handler` applies a single command type to an adder. -/
abbrev Handler (S ε : Type) := Command → Adder S ε → S → S × Option (HandlerError ε)

/-- `Registry` maps command types to their handlers. -/
abbrev Registry (S ε : Type) := StringMap (Handler S ε)

variable {S ε : Type}

/-! ## `ADD` -/

def typeAdd : GoString := str "ADD"

/-- `applyAdd`: the payload is one varint, with nothing after it. -/
def applyAdd : Handler S ε := fun cmd apply s =>
  let (id, n) := uvarint cmd.payload
  if n ≤ 0 ∨ n ≠ cmd.payload.length then
    (s, some (.badPayload (str "payload not a single varint")))
  else
    match apply.add s cmd.group id with
    | (s', err) => (s', err.map .adder)

/-! ## `BATCH_ADD` -/

def typeBatchAdd : GoString := str "BATCH_ADD"

/-- The loop of `applyBatchAdd`: `todo` of the `n` ids remain to be read from `buf`. -/
def batchLoop (apply : Adder S ε) (group : GoString) (n : ℕ) :
    ℕ → Bytes → S → S × Option (HandlerError ε)
  | 0, _, s => (s, none)
  | todo + 1, buf, s =>
    let (id, m) := uvarint buf
    if m ≤ 0 then
      (s, some (.badPayload (str "id " ++ decimal (n - todo) ++ str "/" ++ decimal n
        ++ str " truncated")))
    else
      match apply.add s group id with
      | (s', some err) => (s', some (.adder err))
      | (s', none) => batchLoop apply group n todo (buf.drop m.toNat) s'

/-- `applyBatchAdd`: a count, then that many varints. -/
def applyBatchAdd : Handler S ε := fun cmd apply s =>
  let (n, k) := uvarint cmd.payload
  if k ≤ 0 then (s, some (.badPayload (str "missing count varint")))
  else batchLoop apply cmd.group n.toNat n.toNat (cmd.payload.drop k.toNat) s

/-! ## `MERGE_SKETCH` -/

def typeMergeSketch : GoString := str "MERGE_SKETCH"

/-- `applyMergeSketch`: a length, an algorithm name of that length, and the sketch bytes. -/
def applyMergeSketch : Handler S ε := fun cmd apply s =>
  let (algoLen, n) := uvarint cmd.payload
  if n ≤ 0 then (s, some (.badPayload (str "missing algo_len varint")))
  else
    let buf := cmd.payload.drop n.toNat
    if buf.length < algoLen.toNat then
      (s, some (.badPayload (str "algo_len " ++ decimal algoLen.toNat ++ str " exceeds payload "
        ++ decimal buf.length)))
    else
      match apply.mergeBytes s cmd.group (buf.take algoLen.toNat) (buf.drop algoLen.toNat) with
      | (s', err) => (s', err.map .adder)

/-! ## The registry -/

/-- `Register`. -/
def Registry.register (r : Registry S ε) (t : GoString) (h : Handler S ε) : Registry S ε :=
  r.insert t h

/-- `DefaultRegistry`: every built-in command handler. -/
def defaultRegistry : Registry S ε :=
  let r : Registry S ε := ∅
  let r := r.register typeAdd applyAdd
  let r := r.register typeBatchAdd applyBatchAdd
  r.register typeMergeSketch applyMergeSketch

/-- `Dispatch` routes a command to its registered handler. -/
def Registry.dispatch (r : Registry S ε) (cmd : Option Command) (apply : Option (Adder S ε))
    (s : S) : S × Option (HandlerError ε) :=
  match cmd with
  | none => (s, some (.unknownCommand none))
  | some cmd =>
    match r[cmd.type]? with
    | none => (s, some (.unknownCommand (some cmd.type)))
    | some h =>
      match apply with
      | none => (s, some .nilAdder)
      | some apply => h cmd apply s

/-- The engine as an `Adder`. -/
def Engine.adder {σ : Type} (alg : Algorithm σ) : Adder (Engine alg) EngineError where
  add := Engine.add
  mergeBytes := Engine.mergeBytes

end CardinalityTracker
