import CardinalityTracker.HllTheorems
import CardinalityTracker.Recovery

/-!
# A standalone server over its lifetime

Without a Raft node, an add is one call of `AddAndPersist` under the engine's lock, and a
restart replaces the engine by what `LoadAll` and `Restore` rebuild from the store. Clients
interleave at the granularity of calls, so a history of the server is a list of these two
events. The outcomes of the saves are any.

`durability_sandwich` is what holds after every history, for every group: the acknowledged
ids are below the stored sketch, which is below the live one, which is below all ids ever
submitted. It is obtained from `Lib.Copies`: an add is an update of the pair of maps, flushed
when the save writes its bytes, and a restart is `Copies.restart`.
-/

namespace CardinalityTracker

open Lib

variable {σ : Type}

/-- The ids of a group among some adds, in their order. -/
def idsOf (adds : List (GoString × UInt64)) (group : GoString) : List UInt64 :=
  (adds.filter fun add => add.1 = group).map Prod.snd

theorem mem_idsOf {adds : List (GoString × UInt64)} {group : GoString} {id : UInt64} :
    id ∈ idsOf adds group ↔ (group, id) ∈ adds := by
  unfold idsOf
  rw [List.mem_map]
  constructor
  · intro ⟨add, hadd, hid⟩
    obtain ⟨hmem, hgroup⟩ := List.mem_filter.mp hadd
    rwa [← hid, ← of_decide_eq_true hgroup]
  · intro hmem
    exact ⟨(group, id), List.mem_filter.mpr ⟨hmem, decide_eq_true rfl⟩, rfl⟩

theorem idsOf_concat (adds : List (GoString × UInt64)) (group g : GoString) (id : UInt64) :
    idsOf (adds ++ [(group, id)]) g
      = if group = g then idsOf adds g ++ [id] else idsOf adds g := by
  unfold idsOf
  rw [List.filter_append, List.map_append]
  by_cases h : group = g <;> simp [h]

/-- What the sketch of a group may hold. -/
def allowed (alg : Algorithm σ) (adds : List (GoString × UInt64)) (group : GoString) : σ :=
  alg.sketchOf (idsOf adds group)

section Allowed

variable [SemilatticeSup σ] [OrderBot σ] {alg : Algorithm σ}

theorem single_le_allowed (halg : alg.IsJoin) {adds : List (GoString × UInt64)} {group : GoString}
    {id : UInt64} (h : (group, id) ∈ adds) : alg.single id ≤ allowed alg adds group :=
  (halg.sketchOf_le_iff _ _).mp le_rfl id (mem_idsOf.mpr h)

theorem allowed_mono (halg : alg.IsJoin) {adds adds' : List (GoString × UInt64)}
    (h : adds ⊆ adds') (group : GoString) : allowed alg adds group ≤ allowed alg adds' group :=
  (halg.sketchOf_le_iff _ _).mpr fun _ hid => single_le_allowed halg (h (mem_idsOf.mp hid))

end Allowed

namespace Standalone

/-- The server, and what its clients have seen: the adds that have been submitted, and those
whose call returned nil. -/
structure State (alg : Algorithm σ) where
  engine : Engine alg
  store : Store
  attempted : List (GoString × UInt64)
  acked : List (GoString × UInt64)

/-- An event in the life of the server. -/
inductive Event
  | add (group : GoString) (id : UInt64)
  | restart
deriving DecidableEq, Repr

/-- An empty engine and an empty store. -/
def init (alg : Algorithm σ) : State alg := ⟨Engine.new alg, Store.empty, [], []⟩

/-- One event. A restart that cannot rebuild the engine ends the process. -/
def step {alg : Algorithm σ} (out : ℕ → SaveOutcome) (s : State alg) : Event → Option (State alg)
  | .add group id =>
    match s.engine.addAndPersist group id (Store.save out group) s.store with
    | (engine, store, err) =>
      some
        { engine
          store
          attempted := s.attempted ++ [(group, id)]
          acked := if err = none then s.acked ++ [(group, id)] else s.acked }
  | .restart =>
    match restoreAll alg s.store with
    | (_, some _) => none
    | ((engine, _), none) => some { s with engine }

section Join

variable [SemilatticeSup σ] [OrderBot σ] {alg : Algorithm σ}

/-- What one add does to the live groups and the stored ones. -/
def addUpdate (alg : Algorithm σ) (outcome : SaveOutcome) (group : GoString) (id : UInt64) :
    Update GoString σ :=
  ⟨group, some (alg.single id), outcome.written⟩

/-- The server represents a pair of maps with the stored one below, in which the acknowledged
adds are durable and the live groups hold nothing but submitted ids. -/
structure Inv (s : State alg) (c : Copies GoString σ compare) : Prop where
  live : s.engine.groups = c.live
  stored : s.store.Holds alg c.stored
  below : c.Below
  acked : ∀ add ∈ s.acked, c.Durable add.1 (alg.single add.2)
  attempted : ∀ g, value c.live g ≤ alg.sketchOf (idsOf s.attempted g)

theorem inv_init : Inv (init alg) ⟨∅, ∅⟩ := by
  refine ⟨rfl, holds_empty, fun k w hw => ?_, fun add hadd => ?_, fun g => ?_⟩
  · exact absurd hw (by simp)
  · exact absurd hadd List.not_mem_nil
  · rw [value_empty]
    exact bot_le

/-- An add joins its id, and makes it durable if it is acknowledged. -/
theorem inv_add (halg : alg.IsJoin) (out : ℕ → SaveOutcome) {s : State alg}
    {c : Copies GoString σ compare} (h : Inv s c) (group : GoString) (id : UInt64) :
    ∃ s', step out s (.add group id) = some s' ∧
      Inv s' (c.apply (addUpdate alg (out s.store.saves) group id)) := by
  set u := addUpdate alg (out s.store.saves) group id with hu
  have hlive : joinAt s.engine.groups group (alg.single id) = (c.apply u).live := by
    rw [h.live]
    rfl
  have hstored : ((⟨joinAt s.engine.groups group (alg.single id)⟩ : Engine alg).persist group
      (Store.save out group) s.store).1.Holds alg (c.apply u).stored := by
    rw [h.live]
    exact h.stored.persist ⟨joinAt c.live group (alg.single id)⟩ out group
  have hsketch : (⟨joinAt s.engine.groups group (alg.single id)⟩ : Engine alg).groups[group]?
      = some (value s.engine.groups group ⊔ alg.single id) := getElem?_joinAt_self ..
  unfold step
  dsimp only
  rw [Engine.addAndPersist_eq, Engine.add_eq halg]
  refine ⟨_, rfl, hlive, hstored, Copies.below_apply h.below u, fun add hadd => ?_, fun g => ?_⟩
  · -- the earlier acknowledgements stay durable; a new one comes with a save that has written
    split at hadd
    · next hnil =>
      rcases List.mem_append.mp hadd with hold | hnew
      · exact (h.acked add hold).apply h.below u
      · rw [Engine.persist_of_some hsketch] at hnil
        rw [List.mem_singleton.mp hnew]
        exact Copies.durable_of_flush (written_of_save (Option.map_eq_none_iff.mp hnil)) rfl
    · exact (h.acked add hadd).apply h.below u
  · -- both sides grow by the same id, or neither does
    rw [← hlive, h.live, idsOf_concat]
    by_cases hg : group = g
    · rw [if_pos hg, ← hg, value_joinAt_self, halg.sketchOf_concat]
      exact sup_le_sup_right (h.attempted group) _
    · rw [if_neg hg, value_joinAt_of_ne _ hg]
      exact h.attempted g

/-- A restart rebuilds the stored groups. -/
theorem inv_restart (halg : alg.IsJoin) (out : ℕ → SaveOutcome) {s : State alg}
    {c : Copies GoString σ compare} (h : Inv s c) :
    ∃ s', step out s .restart = some s' ∧ Inv s' c.restart := by
  unfold step
  rw [restoreAll_of_holds halg h.stored]
  -- the live groups are rolled back, which only lowers them
  refine ⟨_, rfl, rfl, h.stored, c.below_restart, h.acked, fun g => ?_⟩
  exact (h.below.value_le g).trans (h.attempted g)

/-- Every event is possible. -/
theorem exists_step (halg : alg.IsJoin) (out : ℕ → SaveOutcome) {s : State alg}
    (h : ∃ c, Inv s c) (event : Event) : ∃ s', step out s event = some s' ∧ ∃ c, Inv s' c := by
  obtain ⟨c, h⟩ := h
  cases event with
  | add group id =>
    obtain ⟨s', hstep, h'⟩ := inv_add halg out h group id
    exact ⟨s', hstep, _, h'⟩
  | restart =>
    obtain ⟨s', hstep, h'⟩ := inv_restart halg out h
    exact ⟨s', hstep, _, h'⟩

end Join

/-- **The durability sandwich.** After every history of a standalone server, with any
outcomes of its saves, the process is up and, for every group: the sketch of the acknowledged
ids is at most the stored sketch, the stored sketch is at most the live one, and the live one
is at most the sketch of the ids that have been submitted. An absent group counts as the
empty sketch. -/
theorem durability_sandwich (sum64 : Bytes → UInt64) (out : ℕ → SaveOutcome)
    (history : List Event) :
    ∃ s, run (step out) (init (Hll.algorithm sum64)) history = some s ∧
      ∃ stored, s.store.Holds (Hll.algorithm sum64) stored ∧ ∀ g,
        (Hll.algorithm sum64).sketchOf (idsOf s.acked g) ≤ value stored g ∧
        value stored g ≤ value s.engine.groups g ∧
        value s.engine.groups g ≤ (Hll.algorithm sum64).sketchOf (idsOf s.attempted g) := by
  have halg := Hll.isJoin sum64
  have hnext : ∀ (hist : List Event) (s : State (Hll.algorithm sum64)) event,
      (∃ c, Inv s c) → True → ∃ s', step out s event = some s' ∧ ∃ c, Inv s' c :=
    fun _ _ event h _ => exists_step halg out h event
  obtain ⟨s, hrun, c, h⟩ := progress_of_meets ⟨_, inv_init⟩ hnext (meets_true history)
  refine ⟨s, hrun, c.stored, h.stored, fun g => ⟨?_, ?_, ?_⟩⟩
  · rw [halg.sketchOf_le_iff]
    intro id hid
    exact (h.acked (g, id) (mem_idsOf.mp hid)).le_value
  · rw [h.live]
    exact h.below.value_le g
  · rw [h.live]
    exact h.attempted g

end Standalone
end CardinalityTracker
