import CardinalityTracker.EngineTheorems
import CardinalityTracker.Lib.WriteThrough
import CardinalityTracker.Store

/-!
# Recovery at startup (`cmd/server/main.go`)

Before it serves, `run` rebuilds the engine from disk with `LoadAll` and `Restore`. The file
also states what a store is to an engine: `Store.Holds alg st m` says that the stored groups
are those of `m`, each as the bytes of its sketch. A store that holds `m` is rebuilt into an
engine with exactly the groups `m`.
-/

namespace CardinalityTracker

open Lib

variable {σ : Type} {alg : Algorithm σ}

/-- The callback that `run` hands to `LoadAll`. The state is the engine and the counter
`restored`. -/
def restoreGroup (alg : Algorithm σ) (group : GoString) (b : Bytes) :
    Engine alg × ℕ → (Engine alg × ℕ) × Option EngineError
  | (eng, restored) =>
    match eng.restore group b with
    | (eng', some err) => ((eng', restored), some err)
    | (eng', none) => ((eng', restored + 1), none)

/-- The restore step of `run`: a fresh engine filled by `LoadAll`. An error ends the process
with `restore engine state failed`. -/
def restoreAll (alg : Algorithm σ) (st : Store) : (Engine alg × ℕ) × Option EngineError :=
  st.loadAll (restoreGroup alg) (Engine.new alg, 0)

/-! ## What a store holds -/

/-- The stored groups are those of `m`, each under its key as the bytes of its sketch. -/
def Store.Holds (alg : Algorithm σ) (st : Store) (m : StringMap σ) : Prop :=
  ∀ g : GoString, st.db[key g]? = m[g]?.map alg.bytes

theorem holds_empty : Store.empty.Holds alg ∅ := by
  intro g
  unfold Store.empty
  rw [Std.ExtTreeMap.getElem?_empty, Std.ExtTreeMap.getElem?_empty, Option.map_none]

/-- Whether a save with this outcome wrote its bytes. -/
def SaveOutcome.written : SaveOutcome → Bool
  | .ok => true
  | .fail _ written => written

theorem save_db_eq (out : ℕ → SaveOutcome) (group : GoString) (b : Bytes) (st : Store) :
    (st.save out group b).1.db
      = if (out st.saves).written then st.db.insert (key group) b else st.db := by
  unfold Store.save SaveOutcome.written
  cases out st.saves with
  | ok => rfl
  | fail err written => cases written <;> rfl

/-- A save that returns nil has written. -/
theorem written_of_save {out : ℕ → SaveOutcome} {group : GoString} {b : Bytes} {st : Store}
    (h : (st.save out group b).2 = none) : (out st.saves).written = true := by
  unfold Store.save at h
  cases hout : out st.saves with
  | ok => rfl
  | fail err written =>
    rw [hout] at h
    cases written <;> cases h

/-- A save of a sketch stores it, if it writes at all. -/
theorem Store.Holds.save {st : Store} {m : StringMap σ} (h : st.Holds alg m)
    (out : ℕ → SaveOutcome) (group : GoString) (sk : σ) :
    (st.save out group (alg.bytes sk)).1.Holds alg
      (if (out st.saves).written then m.insert group sk else m) := by
  intro g
  rw [save_db_eq]
  cases (out st.saves).written with
  | false => exact h g
  | true =>
    by_cases hg : group = g
    · subst hg
      simp only [if_true, Std.ExtTreeMap.getElem?_insert_self, Option.map_some]
    · -- another group has another key
      have hkey : key group ≠ key g := key_injective.ne hg
      simp only [if_true, getElem?_insert_ite, if_neg hg, if_neg hkey]
      exact h g

/-- `Persist` copies the group to the store, if the save writes. -/
theorem Store.Holds.persist {st : Store} {stored : StringMap σ} (h : st.Holds alg stored)
    (e : Engine alg) (out : ℕ → SaveOutcome) (group : GoString) :
    (e.persist group (Store.save out group) st).1.Holds alg
      (if (out st.saves).written then flushInto e.groups stored group else stored) := by
  unfold flushInto
  cases hg : e.groups[group]? with
  | none =>
    rw [Engine.persist_of_none hg, ite_self]
    exact h
  | some sk =>
    rw [Engine.persist_of_some hg]
    exact h.save out group sk

/-! ## Rebuilding -/

/-- The restore loop succeeds when every item parses, and installs what the items parse to. -/
theorem loadLoop_restoreGroup {l : List (Bytes × Bytes)} {parsed : Bytes × Bytes → σ}
    (h : ∀ p ∈ l, alg.parse p.2 = .ok (parsed p)) (eng : Engine alg) (restored : ℕ) :
    loadLoop (restoreGroup alg) l (eng, restored)
      = ((⟨fill eng.groups (l.map fun p => (trimPrefix p.1 keyPrefix, parsed p))⟩,
          restored + l.length), none) := by
  induction l generalizing eng restored with
  | nil => rfl
  | cons p l ih =>
    obtain ⟨k, b⟩ := p
    have hb : alg.parse b = .ok (parsed (k, b)) := h (k, b) List.mem_cons_self
    have hstep : restoreGroup alg (trimPrefix k keyPrefix) b (eng, restored)
        = ((⟨eng.groups.insert (trimPrefix k keyPrefix) (parsed (k, b))⟩, restored + 1), none) := by
      unfold restoreGroup Engine.restore
      simp only [hb]
    rw [loadLoop, hstep]
    have hrest := ih (fun q hq => h q (List.mem_cons_of_mem _ hq))
      ⟨eng.groups.insert (trimPrefix k keyPrefix) (parsed (k, b))⟩ (restored + 1)
    simp only [hrest, List.map_cons, fill_cons, List.length_cons, Nat.add_assoc, Nat.add_comm 1]

/-- An item the scan visits is a group of `m`. -/
theorem Store.Holds.of_mem_scan {st : Store} {m : StringMap σ} (h : st.Holds alg m)
    {p : Bytes × Bytes} (hp : p ∈ scan keyPrefix st.db.toList) :
    m[trimPrefix p.1 keyPrefix]?.map alg.bytes = some p.2 := by
  obtain ⟨k, b⟩ := p
  obtain ⟨hpre, hdb⟩ := (mem_scan_iff st k b).mp hp
  rw [← h, key_trimPrefix hpre, hdb]

/-- **Startup rebuilds what the store holds**, each sketch as its bytes parse, and counts the items
it visited. -/
theorem restoreAll_of_parse {reparse : σ → σ}
    (hbytes : ∀ sk, alg.parse (alg.bytes sk) = .ok (reparse sk)) {st : Store} {m : StringMap σ}
    (h : st.Holds alg m) :
    restoreAll alg st
      = ((⟨m.map fun _ => reparse⟩, (scan keyPrefix st.db.toList).length), none) := by
  set items := scan keyPrefix st.db.toList with hitems
  set parsed : Bytes × Bytes → σ := fun p =>
    (m[trimPrefix p.1 keyPrefix]?.map reparse).getD alg.new with hparsed
  -- `Restore` accepts every item
  have hparse : ∀ p ∈ items, alg.parse p.2 = .ok (parsed p) := by
    intro p hp
    obtain ⟨sk, hsk, hb⟩ := Option.map_eq_some_iff.mp (h.of_mem_scan hp)
    rw [← hb, hbytes, hparsed]
    dsimp only
    rw [hsk, Option.map_some, Option.getD_some]
  -- and no two items restore the same group
  have hdist : (items.map fun p => (trimPrefix p.1 keyPrefix, parsed p)).Pairwise
      fun p q => p.1 ≠ q.1 := by
    rw [List.pairwise_map]
    exact pairwise_group_ne_scan st
  unfold restoreAll Store.loadAll
  rw [loadLoop_restoreGroup hparse, Nat.zero_add]
  refine Prod.ext (Prod.ext (Engine.ext (Std.ExtTreeMap.ext_getElem? fun g => ?_)) rfl) rfl
  rw [Std.ExtTreeMap.getElem?_map]
  cases hg : m[g]? with
  | some sk =>
    have hmem : (key g, alg.bytes sk) ∈ items := by
      rw [hitems, mem_scan_iff, h, hg]
      exact ⟨keyPrefix_isPrefixOf_key g, rfl⟩
    refine getElem?_fill_of_mem hdist (List.mem_map.mpr ⟨_, hmem, ?_⟩) _
    rw [hparsed]
    dsimp only
    rw [trimPrefix_key, hg, Option.map_some, Option.getD_some]
  | none =>
    rw [getElem?_fill_of_notMem]
    · exact Std.ExtTreeMap.getElem?_empty
    · intro p hp hpg
      obtain ⟨q, hq, rfl⟩ := List.mem_map.mp hp
      have hq' := h.of_mem_scan hq
      rw [show trimPrefix q.1 keyPrefix = g from hpg, hg] at hq'
      cases hq'

/-- Sketches whose bytes parse back are rebuilt as they were. -/
theorem restoreAll_of_holds [SemilatticeSup σ] [OrderBot σ] (halg : alg.IsJoin) {st : Store}
    {m : StringMap σ} (h : st.Holds alg m) :
    restoreAll alg st = ((⟨m⟩, (scan keyPrefix st.db.toList).length), none) := by
  have hmap : (m.map fun _ sk => sk) = m := by
    refine Std.ExtTreeMap.ext_getElem? fun g => ?_
    rw [Std.ExtTreeMap.getElem?_map, Option.map_id']
  rw [restoreAll_of_parse halg.parse_bytes h, hmap]

end CardinalityTracker
