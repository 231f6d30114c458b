import CardinalityTracker.Concurrent
import CardinalityTracker.Reference.Murmur3
import CardinalityTracker.Standalone

/-!
# A standalone server that may stop at any statement

`Standalone.lean` takes an add as one event. Here the adds of a server run concurrently with each
other and with the queries and scrapes, one statement at a time, and the process may be killed
between any two statements: also after a sketch has changed in memory and before it is saved, or
after it is saved and before the client has an answer. The next life of the process starts from
what the store then has.

Each statement of an add is an update of `Lib.Copies`, so at every statement the stored sketches
are below the live ones, and no statement makes a stored sketch smaller: the order of the saves is
the order of the changes, because both happen under the lock. `acked_survive_crashes` is what that
gives over any number of lives.
-/

namespace CardinalityTracker
namespace Crashes

open Lib Lib.RwMutex Concurrent

variable {σ : Type} {adds : List (GoString × UInt64)}

/-- What is asked of a standalone server whose clients submit `adds`. -/
inductive Request (adds : List (GoString × UInt64))
  | add (i : Fin adds.length)
  | query (group : GoString)
  | scrape (order : RangeOrder)

/-- The method of the engine that serves the request: `addLocal` hands the store to
`AddAndPersist`, `Query` calls `Cardinality` and the collector `CardinalityAll`. -/
def Request.op (alg : Algorithm σ) (out : ℕ → SaveOutcome) :
    Request adds → Op alg Store ([] : List σ).length
  | .add i => .addAndPersist (adds.get i).1 (adds.get i).2 (Store.save out (adds.get i).1)
  | .query group => .cardinality group
  | .scrape order => .cardinalityAll order

def requestCode (alg : Algorithm σ) (out : ℕ → SaveOutcome) (request : Request adds) :
    Code (Memory σ Store) Result := code alg (request.op alg out)

/-- The memory of a process that has just rebuilt its engine. -/
def rebuilt {alg : Algorithm σ} (e : Engine alg) (store : Store) : Memory σ Store :=
  (Memory.initial [] store).replace e.groups

/-- The adds whose call has left with nil. -/
def ackedIn (st : State (Request adds) (Memory σ Store) Result) : List (GoString × UInt64) :=
  st.calls.filterMap fun c =>
    match c.outcome with
    | some (.add i, .err none) => some (adds.get i)
    | _ => none

/-- What is left of the process between two lives, and what its clients have been told. -/
structure Lifetime where
  store : Store
  acked : List (GoString × UInt64)

/-- One life: rebuild the engine from the store, then serve in the interleaving `labels`, up to the
statement at which the process is killed. -/
def life (alg : Algorithm σ) (out : ℕ → SaveOutcome) (t : Lifetime)
    (labels : List (Label (Request adds))) : Option Lifetime :=
  match restoreAll alg t.store with
  | (_, some _) => none
  | ((e, _), none) =>
    match run (step (requestCode alg out)) (State.initial (rebuilt e t.store)) labels with
    | none => none
    | some st => some ⟨st.shared.world, t.acked ++ ackedIn st⟩

theorem readOnly_requestCode (alg : Algorithm σ) (out : ℕ → SaveOutcome) :
    ReadOnly (requestCode alg out : Request adds → Code (Memory σ Store) Result) :=
  fun request body hcode => readOnly_code alg (request.op alg out) body hcode

theorem mem_ackedIn {st : State (Request adds) (Memory σ Store) Result}
    {add : GoString × UInt64} (h : add ∈ ackedIn st) :
    ∃ k i, st.outcome k = some (.add i, .err none) ∧ adds.get i = add := by
  obtain ⟨c, hc, hadd⟩ := List.mem_filterMap.mp h
  obtain ⟨k, hk⟩ := List.mem_iff_getElem?.mp hc
  split at hadd
  · next i hout =>
    refine ⟨k, i, ?_, Option.some.inj hadd⟩
    rw [outcome_of_getElem? hk, hout]
  · cases hadd

/-! ## At every statement -/

section Statements

variable [SemilatticeSup σ] [OrderBot σ] {alg : Algorithm σ} {m m' : Memory σ Store}

/-- The store has a sketch of the group that is at least `v`. -/
def StoredAbove (alg : Algorithm σ) (store : Store) (g : GoString) (v : σ) : Prop :=
  ∃ w, store.db[key g]? = some (alg.bytes w) ∧ v ≤ w

/-- The memory is well formed, what is stored is below what is live, and the live sketches hold
nothing but submitted ids. -/
structure Sound (alg : Algorithm σ) (adds : List (GoString × UInt64)) (m : Memory σ Store) :
    Prop where
  wf : WellFormed [] m
  below : ∃ stored, m.world.Holds alg stored ∧
    (Copies.mk (m.engine alg).groups stored).Below
  bound : ∀ g, value (m.engine alg).groups g ≤ alg.sketchOf (idsOf adds g)

/-- No stored sketch becomes smaller. -/
def Grows (alg : Algorithm σ) (m m' : Memory σ Store) : Prop :=
  ∀ g v, StoredAbove alg m.world g v → StoredAbove alg m'.world g v

omit [OrderBot σ] in
theorem Grows.refl (m : Memory σ Store) : Grows alg m m := fun _ _ h => h

theorem storedAbove_iff (halg : alg.IsJoin) {store : Store} {stored : StringMap σ}
    (h : store.Holds alg stored) (live : StringMap σ) (g : GoString) (v : σ) :
    StoredAbove alg store g v ↔ (Copies.mk live stored).Durable g v := by
  unfold StoredAbove Copies.Durable
  simp only [h g, Option.map_eq_some_iff]
  constructor
  · rintro ⟨w, ⟨w', hw', hbytes⟩, hv⟩
    exact ⟨w', hw', halg.bytes_injective hbytes ▸ hv⟩
  · rintro ⟨w, hw, hv⟩
    exact ⟨w, ⟨w, hw, rfl⟩, hv⟩

/-- A statement that is an update of the pair of maps keeps both. -/
theorem Sound.apply (halg : alg.IsJoin) (h : Sound alg adds m) (hwf : WellFormed [] m')
    (u : Update GoString σ)
    (hlive : (m'.engine alg).groups = joinOpt (m.engine alg).groups u.joins)
    (hstored : ∀ stored, m.world.Holds alg stored →
      m'.world.Holds alg ((Copies.mk (m.engine alg).groups stored).apply u).stored)
    (hbound : ∀ v, u.content = some v → v ≤ alg.sketchOf (idsOf adds u.key)) :
    Sound alg adds m' ∧ Grows alg m m' := by
  obtain ⟨stored, hholds, hbelow⟩ := h.below
  have hholds' := hstored stored hholds
  have hbelow' := Copies.below_apply hbelow u
  refine ⟨⟨hwf, ⟨_, hholds', ?_⟩, fun g => ?_⟩, fun g v hv => ?_⟩
  · rw [hlive]
    exact hbelow'
  · have hbounded : (Copies.mk (m.engine alg).groups stored).Bounded fun g =>
        alg.sketchOf (idsOf adds g) := h.bound
    rw [hlive]
    exact hbounded.apply hbound g
  · rw [storedAbove_iff halg hholds (m.engine alg).groups] at hv
    rw [storedAbove_iff halg hholds' ((Copies.mk (m.engine alg).groups stored).apply u).live]
    exact hv.apply hbelow u

/-- `e.groups[group] = e.alg.New()`, for a group that is absent. -/
theorem Sound.install_new (halg : alg.IsJoin) (h : Sound alg adds m) {group : GoString}
    (hg : m.groups[group]? = none) :
    Sound alg adds (m.install group alg.new) ∧ Grows alg m (m.install group alg.new) := by
  have hnone : (m.engine alg).groups[group]? = none := by
    rw [getElem?_engine, hg, Option.map_none]
  refine h.apply halg (h.wf.install group alg.new) ⟨group, some ⊥, false⟩ ?_ (fun _ hs => hs) ?_
  · rw [h.wf.engine_install]
    show _ = joinAt _ group ⊥
    rw [joinAt, value_of_none hnone, halg.new_eq, sup_idem]
  · rintro v ⟨⟩
    exact bot_le

/-- `sk.Add(id)`. -/
theorem Sound.update_add (halg : alg.IsJoin) (h : Sound alg adds m) {group : GoString}
    {id : UInt64} (hadd : (group, id) ∈ adds) {ref : ℕ} (hg : m.groups[group]? = some ref) :
    Sound alg adds (m.update ref (alg.add · id)) ∧ Grows alg m (m.update ref (alg.add · id)) := by
  have hsome : (m.engine alg).groups[group]? = some (m.object alg ref) := by
    rw [getElem?_engine, hg, Option.map_some]
  refine h.apply halg (h.wf.update hg _) ⟨group, some (alg.single id), false⟩ ?_
    (fun _ hs => hs) ?_
  · rw [h.wf.engine_update hg]
    show _ = joinAt _ group (alg.single id)
    rw [joinAt, value_of_getElem? hsome, halg.add_eq]
  · rintro v ⟨⟩
    exact (halg.sketchOf_le_iff _ _).mp le_rfl id (mem_idsOf.mpr hadd)

/-- `save(sk.Bytes())`. -/
theorem Sound.save (halg : alg.IsJoin) (h : Sound alg adds m) (out : ℕ → SaveOutcome)
    {group : GoString} {ref : ℕ} (hg : m.groups[group]? = some ref) :
    Sound alg adds
        { m with world := (m.world.save out group (alg.bytes (m.object alg ref))).1 } ∧
      Grows alg m
        { m with world := (m.world.save out group (alg.bytes (m.object alg ref))).1 } := by
  have hsome : (m.engine alg).groups[group]? = some (m.object alg ref) := by
    rw [getElem?_engine, hg, Option.map_some]
  refine h.apply halg (h.wf.world _) ⟨group, none, (out m.world.saves).written⟩ rfl ?_ ?_
  · intro stored hholds
    have hsaved := hholds.persist (m.engine alg) out group
    rwa [Engine.persist_of_some hsome] at hsaved
  · rintro v ⟨⟩

/-- The section of an add, statement by statement. -/
theorem along_add (halg : alg.IsJoin) (out : ℕ → SaveOutcome) (h : Sound alg adds m)
    {group : GoString} {id : UInt64} (hadd : (group, id) ∈ adds) :
    (sketchOrNew alg group fun ref => Concurrent.set (·.update ref (alg.add · id))
      (saveBytes alg ref (Store.save out group))).Along (Sound alg adds) (Grows alg) m := by
  -- from the change of the sketch on
  have hrest : ∀ m : Memory σ Store, Sound alg adds m → ∀ ref, m.groups[group]? = some ref →
      (Concurrent.set (·.update ref (alg.add · id))
        (saveBytes alg ref (Store.save out group))).Along (Sound alg adds) (Grows alg) m := by
    intro m h ref hg
    obtain ⟨hsound, hgrows⟩ := h.update_add halg hadd hg
    obtain ⟨hsound', hgrows'⟩ := hsound.save halg out hg
    exact ⟨h, hgrows, hsound, .refl _, hsound, hgrows', hsound'⟩
  refine ⟨h, .refl m, ?_⟩
  dsimp only [id_eq]
  cases hg : m.groups[group]? with
  | some ref => exact hrest m h ref hg
  | none =>
    obtain ⟨hsound, hgrows⟩ := h.install_new halg hg
    exact ⟨h, hgrows, hrest _ hsound _ Std.ExtTreeMap.getElem?_insert_self⟩

theorem keeps_sound (halg : alg.IsJoin) (out : ℕ → SaveOutcome) :
    Keeps (requestCode alg out : Request adds → Code (Memory σ Store) Result) (Sound alg adds)
      (Grows alg) := by
  intro request mode body hcode m h
  cases request with
  | add i =>
    cases hcode
    exact along_add halg out h (List.get_mem adds i)
  | query group =>
    cases hcode
    exact (readOnly_requestCode alg out (Request.query group : Request adds) _ rfl).along
      Grows.refl h
  | scrape order =>
    cases hcode
    exact (readOnly_requestCode alg out (Request.scrape order : Request adds) _ rfl).along
      Grows.refl h

/-- An add that is acknowledged has stored its id. -/
theorem stored_of_acked (halg : alg.IsJoin) (out : ℕ → SaveOutcome) (h : Sound alg adds m)
    {i : Fin adds.length}
    (halone : (requestCode alg out (.add i)).alone m = (m', .err none)) :
    StoredAbove alg m'.world (adds.get i).1 (alg.single (adds.get i).2) := by
  have happly := apply_of_alone halg.algoName_eq h.wf halone
  have hadd : (m.engine alg).addAndPersist (adds.get i).1 (adds.get i).2
      (Store.save out (adds.get i).1) m.world = (m'.engine alg, m'.world, none) := by
    simp only [Request.op, Op.apply, Prod.mk.injEq, Result.err.injEq] at happly
    exact Prod.ext happly.1.1 (Prod.ext happly.1.2 happly.2)
  obtain ⟨stored, hholds, hbelow⟩ := h.below
  -- the add as an event of `Standalone.lean`
  have hinv : Standalone.Inv ⟨m.engine alg, m.world, adds, []⟩
      (Copies.mk (m.engine alg).groups stored) :=
    ⟨rfl, hholds, hbelow, fun add hadd => absurd hadd List.not_mem_nil, h.bound⟩
  obtain ⟨s', hstep, hinv'⟩ := Standalone.inv_add halg out hinv (adds.get i).1 (adds.get i).2
  unfold Standalone.step at hstep
  simp only [hadd, if_true, Option.some.injEq] at hstep
  subst hstep
  rw [storedAbove_iff halg hinv'.stored]
  exact hinv'.acked _ List.mem_cons_self

end Statements

/-! ## Over the lives of the process -/

section Lives

variable [SemilatticeSup σ] [OrderBot σ] {alg : Algorithm σ}

/-- A process that has just rebuilt its engine is sound. -/
theorem sound_rebuilt {store : Store} {stored : StringMap σ} (h : store.Holds alg stored)
    (hbound : ∀ g, value stored g ≤ alg.sketchOf (idsOf adds g)) :
    Sound alg adds (rebuilt (⟨stored⟩ : Engine alg) store) ∧
      (rebuilt (⟨stored⟩ : Engine alg) store).world = store := by
  obtain ⟨hwf, hengine, hworld⟩ := (wellFormed_initial ([] : List σ) store).replace alg stored
  have hgroups := congrArg Engine.groups hengine
  refine ⟨⟨hwf, ⟨stored, ?_, ?_⟩, fun g => ?_⟩, hworld⟩
  · rw [rebuilt, hworld]
    exact h
  · rw [rebuilt, hgroups]
    exact (Copies.mk stored stored).below_restart
  · rw [rebuilt, hgroups]
    exact hbound g

/-- Between two lives: the store holds sketches of submitted ids, and every acknowledged one. -/
structure Survives (alg : Algorithm σ) (adds : List (GoString × UInt64)) (t : Lifetime) : Prop where
  stored : ∃ stored, t.store.Holds alg stored ∧
    ∀ g, value stored g ≤ alg.sketchOf (idsOf adds g)
  acked : ∀ add ∈ t.acked, StoredAbove alg t.store add.1 (alg.single add.2)

theorem survives_life (halg : alg.IsJoin) (out : ℕ → SaveOutcome) {t t' : Lifetime}
    (h : Survives alg adds t) {labels : List (Label (Request adds))}
    (hlife : life alg out t labels = some t') : Survives alg adds t' := by
  obtain ⟨stored, hholds, hbound⟩ := h.stored
  obtain ⟨hsound, hworld⟩ := sound_rebuilt hholds hbound
  unfold life at hlife
  rw [restoreAll_of_holds halg hholds] at hlife
  dsimp only at hlife
  cases hrun : run (step (requestCode alg out))
      (State.initial (rebuilt (⟨stored⟩ : Engine alg) t.store)) labels with
  | none =>
    rw [hrun] at hlife
    cases hlife
  | some st =>
    rw [hrun] at hlife
    cases hlife
    have hread : ReadOnly (requestCode alg out : Request adds → _) := readOnly_requestCode alg out
    have hkeeps : Keeps (requestCode alg out : Request adds → _) _ _ := keeps_sound halg out
    refine ⟨?_, fun add hadd => ?_⟩
    · have hend := invariant_of_sections hread hkeeps Grows.refl hsound hrun
      obtain ⟨stored', hholds', hbelow'⟩ := hend.below
      exact ⟨stored', hholds', fun g => (hbelow'.value_le g).trans (hend.bound g)⟩
    · rcases List.mem_append.mp hadd with hold | hnew
      · -- acknowledged in an earlier life
        refine guarantee_of_sections hread hkeeps Grows.refl hsound (fun a b c hab hbc g v hv =>
          hbc g v (hab g v hv)) run_nil hrun add.1 _ ?_
        show StoredAbove alg (rebuilt (⟨stored⟩ : Engine alg) t.store).world _ _
        rw [hworld]
        exact h.acked add hold
      · obtain ⟨k, i, hout, rfl⟩ := mem_ackedIn hnew
        refine established_of_sections hread hkeeps Grows.refl hsound
          (fun m => StoredAbove alg m.world (adds.get i).1 (alg.single (adds.get i).2))
          (fun op r => op = .add i ∧ r = .err none) (fun m m' hgrows => hgrows _ _)
          (fun op r hdone hest => ?_) (fun op m m' r hm halone hest => ?_) hrun hout ⟨rfl, rfl⟩
        · rw [hest.1] at hdone
          cases hdone
        · rw [hest.1, hest.2] at halone
          exact stored_of_acked halg out hm halone

/-- **No acknowledged add is lost, at whatever statement the process is killed.** Over any number
of lives, each serving its requests in any interleaving up to any statement, with any outcomes of
the saves: the next startup succeeds, and the groups it rebuilds hold every id whose add was ever
acknowledged and nothing that was not submitted. -/
theorem acked_survive_crashes (halg : alg.IsJoin) (out : ℕ → SaveOutcome)
    (adds : List (GoString × UInt64)) (lives : List (List (Label (Request adds)))) {t : Lifetime}
    (h : run (life alg out) ⟨Store.empty, []⟩ lives = some t) :
    ∃ stored, (restoreAll alg t.store).1.1 = ⟨stored⟩ ∧ (restoreAll alg t.store).2 = none ∧
      ∀ g, alg.sketchOf (idsOf t.acked g) ≤ value stored g ∧
        value stored g ≤ alg.sketchOf (idsOf adds g) := by
  have hinit : Survives alg adds ⟨Store.empty, []⟩ := by
    refine ⟨⟨∅, holds_empty, fun g => ?_⟩, fun add hadd => absurd hadd List.not_mem_nil⟩
    rw [value_empty]
    exact bot_le
  have hend := invariant_of_run (P := Survives alg adds) hinit
    (fun t labels t' ht hlife => survives_life halg out ht hlife) h
  obtain ⟨stored, hholds, hbound⟩ := hend.stored
  refine ⟨stored, ?_, ?_, fun g => ⟨?_, hbound g⟩⟩
  · rw [restoreAll_of_holds halg hholds]
  · rw [restoreAll_of_holds halg hholds]
  · rw [halg.sketchOf_le_iff]
    intro id hid
    have habove := hend.acked (g, id) (mem_idsOf.mp hid)
    rw [storedAbove_iff halg hholds stored] at habove
    exact habove.le_value

/-- The process is killed between the change of the sketch and its save; in the next life the
client tries again and gets its answer. -/
theorem acked_survive_crashes_retry :
    ∃ t, run (life (Hll.algorithm Murmur3.sum64) fun _ => .ok) ⟨Store.empty, []⟩
        ([[.invoke (.add ⟨0, Nat.one_pos⟩), .lock 0, .exec 0, .exec 0, .exec 0],
          [.invoke (.add ⟨0, Nat.one_pos⟩), .lock 0, .exec 0, .exec 0, .exec 0, .exec 0, .exec 0,
            .unlock 0, .ret 0]] : List (List (Label (Request [(str "g", 7)])))) = some t ∧
      ∃ stored, (restoreAll (Hll.algorithm Murmur3.sum64) t.store).1.1 = ⟨stored⟩ ∧
        (Hll.algorithm Murmur3.sum64).sketchOf (idsOf t.acked (str "g"))
          ≤ value stored (str "g") := by
  refine (exists_congr fun t => and_iff_left_of_imp fun h => ?_).mpr ⟨_, rfl⟩
  obtain ⟨stored, hrebuilt, -, hsandwich⟩ :=
    acked_survive_crashes (Hll.isJoin Murmur3.sum64) (fun _ => .ok) [(str "g", 7)] _ h
  exact ⟨stored, hrebuilt, (hsandwich (str "g")).1⟩

end Lives

end Crashes
end CardinalityTracker
