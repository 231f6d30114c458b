import CardinalityTracker.Reference.Entries

/-!
# The write paths agree

An add reaches the engine and the store in one of three ways: through the Raft log as an
`ADD` entry, directly through `AddAndPersist` (a server without a node), or as part of a
`BATCH_ADD` entry. `write_paths_agree` says that they leave the same engine and the same
store. It holds for every algorithm, since all three run the same `Add` calls, and for every
pattern of save outcomes, since the Raft path and the direct one save at the same calls.
-/

namespace CardinalityTracker

open Lib Lib.Uvarint EtcdStorage

variable {σ τ : Type} {alg : Algorithm σ}

/-- The command with the documented `BATCH_ADD` payload: the count, then the ids. -/
def batchCommand (group : GoString) (ids : List UInt64) : Command :=
  ⟨typeBatchAdd, group, appendMany (appendUvarint [] (UInt64.ofNat ids.length)) ids⟩

/-- A committed entry that carries the encoding of a command. -/
def Entry.Carries (proto : Proto) (e : Entry) (cmd : Command) : Prop :=
  e.type = .normal ∧ proto.marshal cmd = .ok e.data

/-- The standalone write path: `AddAndPersist` with `store.Save` for each add in turn. -/
def addAll (out : ℕ → SaveOutcome) (adds : List (GoString × UInt64)) (s : Engine alg × Store) :
    Engine alg × Store :=
  adds.foldl (fun s add =>
    let r := s.1.addAndPersist add.1 add.2 (Store.save out add.1) s.2
    (r.1, r.2.1)) s

/-! ## Decoding -/

/-- An entry that carries a command with a type decodes to it: its data cannot be empty,
since no bytes decode to a command without one. -/
theorem Entry.command_of_carries {proto : Proto} (hproto : proto.Lawful) {e : Entry}
    {cmd : Command} (h : e.Carries proto cmd) (htype : cmd.type ≠ []) :
    e.command proto = some cmd := by
  obtain ⟨hnormal, hdata⟩ := h
  have hdecode := hproto.unmarshal_marshal cmd e.data hdata
  have hne : e.data.length ≠ 0 := by
    intro hlen
    rw [List.length_eq_zero_iff.mp hlen, hproto.unmarshal_nil, Except.ok.injEq] at hdecode
    exact htype (by rw [← hdecode])
  unfold Entry.command
  rw [if_neg (by simp [hnormal, hne]), hdecode]
  rfl

/-- The payload of an add is one varint. -/
theorem encodes_addCommand (group : GoString) (id : UInt64) :
    Encodes (addCommand group id).payload id :=
  encodes_appendUvarint id

theorem effect_addCommand (group : GoString) (id : UInt64) :
    (addCommand group id).effect alg = ⟨some (alg.single id), true⟩ := by
  unfold Command.effect
  rw [if_pos (show (addCommand group id).type = typeAdd from rfl),
    addEffect_encodes alg (encodes_addCommand group id)]

/-- The update of an entry that carries an add. -/
theorem Entry.update_of_carries {proto : Proto} (hproto : proto.Lawful) {e : Entry}
    {group : GoString} {id : UInt64} (h : e.Carries proto (addCommand group id)) :
    e.update proto alg = ⟨group, some (alg.single id), true⟩ := by
  have hcommand := Entry.command_of_carries hproto h (show typeAdd ≠ [] by decide)
  rw [Entry.update_of_command alg hcommand, effect_addCommand]
  rfl

theorem dispatch_addCommand (e : Engine alg) (group : GoString) (id : UInt64) :
    defaultRegistry.dispatch (some (addCommand group id)) (some (Engine.adder alg)) e
      = ((e.add group id).1, none) := by
  have hhandler : (defaultRegistry : Registry (Engine alg) EngineError)[(addCommand group id).type]?
      = some applyAdd := by
    rw [getElem?_defaultRegistry]
    rfl
  rw [dispatch_of_handler hhandler, applyAdd_encodes (encodes_addCommand group id)]
  rfl

theorem dispatch_batchCommand (e : Engine alg) (group : GoString) {ids : List UInt64}
    (hlen : ids.length < 2 ^ 64) :
    defaultRegistry.dispatch (some (batchCommand group ids)) (some (Engine.adder alg)) e
      = (ids.foldl (fun e id => (e.add group id).1) e, none) := by
  have hhandler :
      (defaultRegistry : Registry (Engine alg) EngineError)[(batchCommand group ids).type]?
        = some applyBatchAdd := by
    rw [getElem?_defaultRegistry]
    rfl
  have hids : batchIds (batchCommand group ids).payload = some (ids.length, ids) :=
    batchIds_batchPayload hlen
  rw [dispatch_of_handler hhandler, applyBatchAdd_of_some hids, addUntilError_engine]
  exact Prod.ext rfl ((batchError_eq_none_iff _ _ _).mpr ⟨rfl, rfl⟩)

/-! ## One entry -/

/-- An accepted command: the engine it leaves, and the group persisted from it. -/
theorem applyEntry_of_dispatch (env : Env τ) (n : Node alg τ) {e : Entry} {cmd : Command}
    (hcmd : e.command env.proto = some cmd) {engine : Engine alg}
    (hdispatch : defaultRegistry.dispatch (some cmd) (some (Engine.adder alg)) n.engine
      = (engine, none)) :
    (n.applyEntry env e).engine = engine ∧
      (n.applyEntry env e).store
        = (engine.persist cmd.group (Store.save env.out cmd.group) n.store).1 := by
  rw [Node.applyEntry_of_command env n hcmd, hdispatch]
  exact ⟨rfl, rfl⟩

/-- An `ADD` entry does what `AddAndPersist` does. -/
theorem applyEntry_addCommand {env : Env τ} (hproto : env.proto.Lawful) (n : Node alg τ)
    {e : Entry} {group : GoString} {id : UInt64}
    (h : e.Carries env.proto (addCommand group id)) :
    ((n.applyEntry env e).engine, (n.applyEntry env e).store)
      = addAll env.out [(group, id)] (n.engine, n.store) := by
  have hcmd := Entry.command_of_carries hproto h (show typeAdd ≠ [] by decide)
  obtain ⟨hengine, hstore⟩ :=
    applyEntry_of_dispatch env n hcmd (dispatch_addCommand n.engine group id)
  unfold addAll
  simp only [List.foldl_cons, List.foldl_nil, Engine.addAndPersist_eq]
  exact Prod.ext hengine hstore

/-- So does a list of them, call by call. -/
theorem applyEntries_addCommands {env : Env τ} (hproto : env.proto.Lawful) (n : Node alg τ)
    {es : List Entry} {adds : List (GoString × UInt64)}
    (h : List.Forall₂ (fun e add => e.Carries env.proto (addCommand add.1 add.2)) es adds) :
    ((n.applyEntries env es).engine, (n.applyEntries env es).store)
      = addAll env.out adds (n.engine, n.store) := by
  induction h generalizing n with
  | nil => rfl
  | @cons e add es adds hhead _ ih =>
    have hstep := applyEntry_addCommand hproto n hhead
    have hrest := ih (n.applyEntry env e)
    unfold addAll at hstep hrest ⊢
    rw [List.foldl_cons]
    rw [List.foldl_cons, List.foldl_nil] at hstep
    rw [← hstep]
    exact hrest

/-! ## A batch -/

/-- Adds to one group change the database at the key of that group only. -/
theorem addAll_db_insert (out : ℕ → SaveOutcome) (group : GoString) (ids : List UInt64)
    (s : Engine alg × Store) (b : Bytes) :
    (addAll out (ids.map fun id => (group, id)) s).2.db.insert (key group) b
      = s.2.db.insert (key group) b := by
  unfold addAll
  induction ids generalizing s with
  | nil => rfl
  | cons id ids ih =>
    rw [List.map_cons, List.foldl_cons, ih]
    show (Store.save out group _ s.2).1.db.insert (key group) b = _
    -- a save that wrote is overwritten, and one that did not leaves nothing
    rw [save_db_eq]
    split
    · exact insert_insert_self _ _ _ _
    · rfl

/-- Adds to one group that are all saved leave the folded engine, and in the database its
last state of the group. -/
theorem addAll_one_group {out : ℕ → SaveOutcome} (hok : ∀ k, out k = .ok) (group : GoString)
    (ids : List UInt64) (id : UInt64) (e : Engine alg) (st : Store) :
    (addAll out ((ids ++ [id]).map fun id => (group, id)) (e, st)).1
        = (ids ++ [id]).foldl (fun e id => (e.add group id).1) e ∧
      (addAll out ((ids ++ [id]).map fun id => (group, id)) (e, st)).2.db
        = (((ids ++ [id]).foldl (fun e id => (e.add group id).1) e).persist group
            (Store.save out group) st).1.db := by
  -- the engine of the earlier adds, whatever they saved
  have hengine : ∀ ids : List UInt64, (addAll out (ids.map fun id => (group, id)) (e, st)).1
      = ids.foldl (fun e id => (e.add group id).1) e := by
    intro ids
    unfold addAll
    induction ids using List.reverseRecOn with
    | nil => rfl
    | append_singleton ids id ih =>
      rw [List.map_append, List.foldl_append, List.foldl_append, ← ih]
      rfl
  refine ⟨hengine (ids ++ [id]), ?_⟩
  have hlast : addAll out ((ids ++ [id]).map fun id => (group, id)) (e, st)
      = addAll out [(group, id)] (addAll out (ids.map fun id => (group, id)) (e, st)) := by
    unfold addAll
    rw [List.map_append, List.foldl_append]
    rfl
  have hdb := addAll_db_insert out group ids (e, st)
  rw [hlast, List.foldl_append, ← hengine ids]
  generalize addAll out (ids.map fun id => (group, id)) (e, st) = s at hdb
  -- the last call saves the final sketch over whatever the earlier ones left
  have hsk : (s.1.add group id).1.groups[group]? = some (alg.add (s.1.sketchOrNew group) id) :=
    Std.ExtTreeMap.getElem?_insert_self
  rw [List.foldl_cons, List.foldl_nil, Engine.persist_of_some hsk]
  show (Store.save out group _ s.2).1.db = _
  rw [save_db_eq, save_db_eq, hok, hok]
  exact hdb _

/-- **The three write paths agree.** Entries that carry adds as `ProposeAdd` encodes them
leave the engine and the store that the same calls of `AddAndPersist` leave, for every
pattern of save outcomes; and a `BATCH_ADD` entry with the documented payload leaves the
engine and the database that one `ADD` entry for each id leaves, when saves succeed. -/
theorem write_paths_agree (env : Env τ) (hproto : env.proto.Lawful) (n : Node alg τ) :
    (∀ (es : List Entry) (adds : List (GoString × UInt64)),
      List.Forall₂ (fun e add => e.Carries env.proto (addCommand add.1 add.2)) es adds →
      ((n.applyEntries env es).engine, (n.applyEntries env es).store)
        = addAll env.out adds (n.engine, n.store)) ∧
    (∀ (group : GoString) (ids : List UInt64) (e : Entry) (es : List Entry),
      (∀ k, env.out k = .ok) → ids ≠ [] → ids.length < 2 ^ 64 →
      e.Carries env.proto (batchCommand group ids) →
      List.Forall₂ (fun e id => e.Carries env.proto (addCommand group id)) es ids →
      (n.applyEntries env [e]).engine = (n.applyEntries env es).engine ∧
        (n.applyEntries env [e]).store.db = (n.applyEntries env es).store.db) := by
  refine ⟨fun es adds h => applyEntries_addCommands hproto n h, ?_⟩
  intro group ids e es hok hne hlen hbatch hadds
  have hcmd := Entry.command_of_carries hproto hbatch (show typeBatchAdd ≠ [] by decide)
  obtain ⟨hengine, hstore⟩ :=
    applyEntry_of_dispatch env n hcmd (dispatch_batchCommand n.engine group hlen)
  have hforall : List.Forall₂ (fun e add => e.Carries env.proto (addCommand add.1 add.2)) es
      (ids.map fun id => (group, id)) := by
    rw [List.forall₂_map_right_iff]
    exact hadds
  have hsingle := applyEntries_addCommands hproto n hforall
  -- the batch saves once, after its last id
  obtain ⟨pre, last, rfl⟩ : ∃ pre last, ids = pre ++ [last] := by
    obtain hnil | ⟨pre, last, h⟩ := List.eq_nil_or_concat ids
    · exact absurd hnil hne
    · exact ⟨pre, last, by rw [h, List.concat_eq_append]⟩
  obtain ⟨hengine', hstore'⟩ := addAll_one_group hok group pre last n.engine n.store
  rw [← hsingle] at hengine' hstore'
  exact ⟨hengine.trans hengine'.symm, (congrArg Store.db hstore).trans hstore'.symm⟩

/-- Two adds, the second of the largest id, whose varint takes ten bytes: as entries under
failing saves, and as a batch under succeeding ones. -/
theorem write_paths_agree_largest_id :
    ((freshNode.applyEntries failingEnv
          [entryFor typeAdd [5] 2 3, entryFor typeAdd (List.replicate 9 0xff ++ [1]) 2 4]).engine,
        (freshNode.applyEntries failingEnv
          [entryFor typeAdd [5] 2 3, entryFor typeAdd (List.replicate 9 0xff ++ [1]) 2 4]).store)
      = addAll failingEnv.out [(str "g", 5), (str "g", 2 ^ 64 - 1)]
          (freshNode.engine, freshNode.store) ∧
    (freshNode.applyEntries savingEnv
          [entryFor typeBatchAdd (2 :: 5 :: (List.replicate 9 0xff ++ [1])) 2 3]).engine
        = (freshNode.applyEntries savingEnv
          [entryFor typeAdd [5] 2 3, entryFor typeAdd (List.replicate 9 0xff ++ [1]) 2 4]).engine ∧
      (freshNode.applyEntries savingEnv
          [entryFor typeBatchAdd (2 :: 5 :: (List.replicate 9 0xff ++ [1])) 2 3]).store.db
        = (freshNode.applyEntries savingEnv
          [entryFor typeAdd [5] 2 3,
            entryFor typeAdd (List.replicate 9 0xff ++ [1]) 2 4]).store.db := by
  have hfive : (entryFor typeAdd [5] 2 3).Carries Protobuf.codec (addCommand (str "g") 5) :=
    ⟨rfl, by decide +kernel⟩
  have hmax : (entryFor typeAdd (List.replicate 9 0xff ++ [1]) 2 4).Carries Protobuf.codec
      (addCommand (str "g") (2 ^ 64 - 1)) := ⟨rfl, by decide +kernel⟩
  have hbatch : (entryFor typeBatchAdd (2 :: 5 :: (List.replicate 9 0xff ++ [1])) 2 3).Carries
      Protobuf.codec (batchCommand (str "g") [5, 2 ^ 64 - 1]) := ⟨rfl, by decide +kernel⟩
  refine ⟨?_, ?_⟩
  · exact (write_paths_agree failingEnv Protobuf.codec_lawful freshNode).1 _
      [(str "g", 5), (str "g", 2 ^ 64 - 1)] (.cons hfive (.cons hmax .nil))
  · exact (write_paths_agree savingEnv Protobuf.codec_lawful freshNode).2 (str "g")
      [5, 2 ^ 64 - 1] _ _ (fun _ => rfl) (by decide) (by decide) hbatch
      (.cons hfive (.cons hmax .nil))

end CardinalityTracker
