import CardinalityTracker.Standalone

/-!
# Sketches that stand for other sketches

A library's sketch can have several representations of the same contents: what its bytes parse to
need not be the sketch that was serialised, only one that holds the same. `Algorithm.Denotes alg ref
den` says that a sketch of `alg` stands for the sketch of `ref` that `den` gives. The methods of an
engine then commute with `den` (`Engine.denote_add`, `Engine.denote_merge`) and its counts are the
same (`Engine.cardinality_denote`), and a standalone server goes through every history in lockstep
with the one over `ref` (`Standalone.simulates`).
-/

namespace CardinalityTracker

open Lib

variable {σ ρ : Type}

/-- A sketch of `alg` stands for a sketch of `ref`, and the operations respect it. -/
structure Algorithm.Denotes (alg : Algorithm σ) (ref : Algorithm ρ) (den : σ → ρ) : Prop where
  new_eq : den alg.new = ref.new
  add_eq : ∀ sk id, den (alg.add sk id) = ref.add (den sk) id
  merge_eq : ∀ sk o, den (alg.merge sk o) = ref.merge (den sk) (den o)
  clone_eq : ∀ sk, den (alg.clone sk) = ref.clone (den sk)
  cardinality_eq : ∀ sk, alg.cardinality sk = ref.cardinality (den sk)
  algoName_eq : ∀ sk, alg.algoName sk = alg.name
  ref_algoName_eq : ∀ sk, ref.algoName sk = ref.name
  parse_bytes : ∀ sk, ∃ sk', alg.parse (alg.bytes sk) = .ok sk' ∧ den sk' = den sk

/-! ## Engines -/

namespace Engine

variable {alg : Algorithm σ} {ref : Algorithm ρ} {den : σ → ρ}

/-- The engine that `e` stands for. -/
def denote (ref : Algorithm ρ) (den : σ → ρ) (e : Engine alg) : Engine ref :=
  ⟨e.groups.map fun _ => den⟩

theorem getElem?_denote (e : Engine alg) (g : GoString) :
    (e.denote ref den).groups[g]? = e.groups[g]?.map den :=
  Std.ExtTreeMap.getElem?_map

theorem sketchOrNew_denote (h : alg.Denotes ref den) (e : Engine alg) (group : GoString) :
    (e.denote ref den).sketchOrNew group = den (e.sketchOrNew group) := by
  unfold sketchOrNew
  rw [getElem?_denote]
  cases e.groups[group]? with
  | none => exact h.new_eq.symm
  | some sk => rfl

/-- `Cardinality` depends on what the sketches stand for only. -/
theorem cardinality_denote (h : alg.Denotes ref den) (e : Engine alg) (group : GoString) :
    (e.denote ref den).cardinality group = e.cardinality group := by
  unfold cardinality
  rw [getElem?_denote]
  cases e.groups[group]? with
  | none => rfl
  | some sk => exact congrArg Except.ok (h.cardinality_eq sk).symm

theorem denote_add (h : alg.Denotes ref den) (e : Engine alg) (group : GoString) (id : UInt64) :
    (e.add group id).1.denote ref den = ((e.denote ref den).add group id).1 := by
  unfold add
  rw [sketchOrNew_denote h, ← h.add_eq]
  exact Engine.ext (map_insert ..)

/-- What `Merge` leaves in the group, whether it was there or not. -/
theorem merge_own {e : Engine alg} {group : GoString} {remote : σ}
    (h : alg.algoName remote = alg.name) :
    e.merge group (.own remote) = (⟨e.groups.insert group
      ((e.groups[group]?.map (alg.merge · remote)).getD (alg.clone remote))⟩, none) := by
  unfold merge
  dsimp only
  rw [if_neg (not_not_intro h)]
  cases e.groups[group]? <;> rfl

/-- Merging a remote sketch merges what it stands for. -/
theorem denote_merge (h : alg.Denotes ref den) (e : Engine alg) (group : GoString) (remote : σ) :
    (e.merge group (.own remote)).1.denote ref den
      = ((e.denote ref den).merge group (.own (den remote))).1 := by
  rw [merge_own (h.algoName_eq remote), merge_own (h.ref_algoName_eq (den remote)),
    getElem?_denote]
  refine Engine.ext ((map_insert ..).trans (congrArg _ ?_))
  cases e.groups[group]? with
  | none => exact h.clone_eq remote
  | some sk => exact h.merge_eq sk remote

end Engine

/-! ## What one event does -/

/-- The error that `Save` returns. -/
def SaveOutcome.error : SaveOutcome → Option GoString
  | .ok => none
  | .fail err _ => some err

theorem save_seen (out : ℕ → SaveOutcome) (group : GoString) (b : Bytes) (st : Store) :
    (st.save out group b).1.saves = st.saves + 1 ∧
      (st.save out group b).2 = (out st.saves).error := by
  unfold Store.save SaveOutcome.error
  cases out st.saves with
  | ok => exact ⟨rfl, rfl⟩
  | fail err written => cases written <;> exact ⟨rfl, rfl⟩

namespace Standalone

variable {alg : Algorithm σ} {ref : Algorithm ρ} {den : σ → ρ} {out : ℕ → SaveOutcome}

/-- Whether the add is acknowledged depends on the save's outcome only. -/
theorem step_add (out : ℕ → SaveOutcome) (s : State alg) (group : GoString) (id : UInt64) :
    step out s (.add group id) = some
      { engine := (s.engine.add group id).1
        store := (s.store.save out group (alg.bytes (alg.add (s.engine.sketchOrNew group) id))).1
        attempted := s.attempted ++ [(group, id)]
        acked := if (out s.store.saves).error = none then s.acked ++ [(group, id)]
          else s.acked } := by
  have hsave := save_seen out group (alg.bytes (alg.add (s.engine.sketchOrNew group) id)) s.store
  unfold step Engine.addAndPersist
  simp only [Option.map_eq_none_iff, hsave.2]
  rfl

theorem step_restart (out : ℕ → SaveOutcome) {s : State alg} {engine : Engine alg} {restored : ℕ}
    (h : restoreAll alg s.store = ((engine, restored), none)) :
    step out s .restart = some { s with engine } := by
  unfold step
  rw [h]

/-! ## Servers -/

/-- The server `s` stands for the server `t`: so do the engine and the stored sketches, and clients
have seen the same. -/
structure Simulates (ref : Algorithm ρ) (den : σ → ρ) (s : State alg) (t : State ref) : Prop where
  engine : t.engine = s.engine.denote ref den
  stored : ∃ m, s.store.Holds alg m ∧ t.store.Holds ref (m.map fun _ => den)
  saves : t.store.saves = s.store.saves
  attempted : t.attempted = s.attempted
  acked : t.acked = s.acked

theorem simulates_init : Simulates ref den (init alg) (init ref) := by
  have hempty : ((∅ : StringMap σ).map fun _ => den) = ∅ := by
    refine Std.ExtTreeMap.ext_getElem? fun g => ?_
    rw [Std.ExtTreeMap.getElem?_map, Std.ExtTreeMap.getElem?_empty, Std.ExtTreeMap.getElem?_empty,
      Option.map_none]
  refine ⟨Engine.ext hempty.symm, ⟨∅, holds_empty, ?_⟩, rfl, rfl, rfl⟩
  rw [hempty]
  exact holds_empty

variable {s : State alg} {t : State ref}

/-- An add saves a sketch and the sketch that it stands for, or neither. -/
theorem Simulates.add (halg : alg.Denotes ref den) (h : Simulates ref den s t) (group : GoString)
    (id : UInt64) : ∃ s' t', step out s (.add group id) = some s' ∧
      step out t (.add group id) = some t' ∧ Simulates ref den s' t' := by
  obtain ⟨m, hs, ht⟩ := h.stored
  set sk := alg.add (s.engine.sketchOrNew group) id with hsk
  have hden : ref.add (t.engine.sketchOrNew group) id = den sk := by
    rw [h.engine, Engine.sketchOrNew_denote halg, hsk, halg.add_eq]
  refine ⟨_, _, step_add .., step_add .., ?_, ?_, ?_, ?_, ?_⟩
  · rw [Engine.denote_add halg, ← h.engine]
  · refine ⟨_, hs.save out group sk, ?_⟩
    have hsaved := ht.save out group (den sk)
    rw [← hden, h.saves] at hsaved
    convert hsaved using 1
    split
    · rw [map_insert, hden]
    · rfl
  · rw [(save_seen ..).1, (save_seen ..).1, h.saves]
  · rw [h.attempted]
  · rw [h.saves, h.acked]

/-- A restart rebuilds each stored sketch as one that stands for the same. -/
theorem Simulates.restart [SemilatticeSup ρ] [OrderBot ρ] (href : ref.IsJoin)
    (halg : alg.Denotes ref den) (h : Simulates ref den s t) :
    ∃ s' t', step out s .restart = some s' ∧ step out t .restart = some t' ∧
      Simulates ref den s' t' := by
  obtain ⟨m, hs, ht⟩ := h.stored
  choose reparse hparse hden using halg.parse_bytes
  refine ⟨_, _, step_restart out (restoreAll_of_parse hparse hs),
    step_restart out (restoreAll_of_holds href ht), Engine.ext ?_, ⟨m, hs, ht⟩, h.saves,
    h.attempted, h.acked⟩
  refine Std.ExtTreeMap.ext_getElem? fun g => ?_
  rw [Engine.getElem?_denote, Std.ExtTreeMap.getElem?_map, Std.ExtTreeMap.getElem?_map,
    Option.map_map]
  exact congrArg (Option.map · m[g]?) (funext fun sk => (hden sk).symm)

/-- **A server and the one it stands for** go through every history together. -/
theorem simulates [SemilatticeSup ρ] [OrderBot ρ] (href : ref.IsJoin)
    (halg : alg.Denotes ref den) (out : ℕ → SaveOutcome) (history : List Event) :
    ∃ s t, run (step out) (init alg) history = some s ∧
      run (step out) (init ref) history = some t ∧ Simulates ref den s t := by
  refine lockstep simulates_init (fun s t event h => ?_) history
  cases event with
  | add group id => exact h.add halg group id
  | restart => exact h.restart href halg

end Standalone
end CardinalityTracker
