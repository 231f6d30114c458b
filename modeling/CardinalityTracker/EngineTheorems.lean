import CardinalityTracker.Engine

/-!
# What the engine's methods do to its groups

One lemma for each method, over an algorithm whose sketches are a join-semilattice: `Add`
and a successful `MergeBytes` join a value into one group (`Lib.joinAt`), and `Marshal`
followed by `Unmarshal` is the identity on groups for every order in which Go ranges over
the maps involved. Later files cite these and do not unfold the methods again.
-/

namespace CardinalityTracker
namespace Engine

open Lib

variable {σ : Type} {alg : Algorithm σ}

@[ext] theorem ext {e e' : Engine alg} (h : e.groups = e'.groups) : e = e' := by
  cases e
  cases e'
  exact congrArg _ h

/-! ## Adding and merging -/

section Join

variable [SemilatticeSup σ] [OrderBot σ]

theorem sketchOrNew_eq_value (h : alg.IsJoin) (e : Engine alg) (group : GoString) :
    e.sketchOrNew group = value e.groups group := by
  unfold sketchOrNew value
  rw [h.new_eq]

/-- The sketch `Add` and `AddAndPersist` install. -/
theorem add_sketchOrNew (h : alg.IsJoin) (e : Engine alg) (group : GoString) (id : UInt64) :
    alg.add (e.sketchOrNew group) id = value e.groups group ⊔ alg.single id := by
  rw [h.add_eq, sketchOrNew_eq_value h]

/-- `Add` joins the one-id sketch into the group. -/
theorem add_eq (h : alg.IsJoin) (e : Engine alg) (group : GoString) (id : UInt64) :
    e.add group id = (⟨joinAt e.groups group (alg.single id)⟩, none) := by
  unfold add joinAt
  rw [add_sketchOrNew h]

/-- A run of `Add` calls on one group joins the sketch of all their ids. -/
theorem foldl_add_groups (h : alg.IsJoin) (group : GoString) (ids : List UInt64)
    (hne : ids ≠ []) (e : Engine alg) :
    (ids.foldl (fun e id => (e.add group id).1) e).groups
      = joinAt e.groups group (alg.sketchOf ids) := by
  induction ids using List.reverseRecOn with
  | nil => exact absurd rfl hne
  | append_singleton ids id ih =>
    rw [List.foldl_append, List.foldl_cons, List.foldl_nil, add_eq h, h.sketchOf_concat]
    -- the first add joins into whatever was there, an absent group included
    by_cases hids : ids = []
    · have hbot : alg.sketchOf [] = ⊥ := h.new_eq
      rw [hids, List.foldl_nil, hbot, bot_sup_eq]
    · rw [ih hids, joinAt_joinAt]

/-- `MergeBytes` of a parseable sketch under the engine's own algorithm name joins it into
the group: an absent group is seeded, a present one merged. -/
theorem mergeBytes_of_parse (h : alg.IsJoin) (e : Engine alg) (group : GoString) {b : Bytes}
    {remote : σ} (hb : alg.parse b = .ok remote) :
    e.mergeBytes group alg.name b = (⟨joinAt e.groups group remote⟩, none) := by
  unfold mergeBytes merge joinAt
  rw [if_neg (not_not_intro rfl), hb]
  simp only [h.algoName_eq, ne_eq, not_true_eq_false, if_false]
  -- an absent group is seeded by a clone, which is the join with the empty sketch
  cases hg : e.groups[group]? with
  | none => rw [value_of_none hg, bot_sup_eq, h.clone_eq]
  | some sk => rw [value_of_getElem? hg, ← h.merge_eq]

end Join

/-- A `MergeBytes` that names another algorithm, or whose bytes do not parse, fails and
changes nothing. -/
theorem mergeBytes_of_reject (e : Engine alg) (group algoName : GoString) (b : Bytes)
    (hrej : algoName ≠ alg.name ∨ ∃ err, alg.parse b = .error err) :
    ∃ err, e.mergeBytes group algoName b = (e, some err) := by
  unfold mergeBytes
  by_cases hname : algoName = alg.name
  · rcases hrej with hne | ⟨err, hb⟩
    · exact absurd hname hne
    · rw [if_neg (not_not_intro hname), hb]
      exact ⟨_, rfl⟩
  · rw [if_pos hname]
    exact ⟨_, rfl⟩

/-! ## Persisting -/

theorem persist_of_some {W : Type} {e : Engine alg} {group : GoString} {sk : σ}
    (h : e.groups[group]? = some sk) (save : Bytes → W → W × Option GoString) (w : W) :
    e.persist group save w = ((save (alg.bytes sk) w).1, (save (alg.bytes sk) w).2.map .save) := by
  unfold persist
  rw [h]

theorem persist_of_none {W : Type} {e : Engine alg} {group : GoString}
    (h : e.groups[group]? = none) (save : Bytes → W → W × Option GoString) (w : W) :
    e.persist group save w = (w, some (.unknownGroup group)) := by
  unfold persist
  rw [h]

/-- `AddAndPersist` is `Add`, then `Persist` of the same group. -/
theorem addAndPersist_eq {W : Type} (e : Engine alg) (group : GoString) (id : UInt64)
    (save : Bytes → W → W × Option GoString) (w : W) :
    e.addAndPersist group id save w
      = ((e.add group id).1, (e.add group id).1.persist group save w) := by
  have hsk : (e.add group id).1.groups[group]? = some (alg.add (e.sketchOrNew group) id) :=
    Std.ExtTreeMap.getElem?_insert_self
  rw [persist_of_some hsk]
  rfl

/-! ## Snapshots -/

/-- Filling a map while ranging over another one carries every binding over, whatever the
order of the range. -/
theorem getElem?_fill_range {ν ν' : Type} (order : RangeOrder) (m : StringMap ν)
    (f : GoString × ν → ν') (g : GoString) :
    (fill (∅ : StringMap ν') ((order.range m).map fun p => (p.1, f p)))[g]?
      = m[g]?.map fun v => f (g, v) := by
  have hperm := order.perm m
  have hdist : ((order.range m).map fun p => (p.1, f p)).Pairwise fun p q => p.1 ≠ q.1 := by
    rw [List.pairwise_map]
    exact (hperm.pairwise_iff fun {p q} hpq => hpq.symm).mpr (pairwise_ne_toList m)
  cases hg : m[g]? with
  | none =>
    rw [getElem?_fill_of_notMem, Option.map_none]
    · exact Std.ExtTreeMap.getElem?_empty
    · intro p hp hpg
      obtain ⟨q, hq, rfl⟩ := List.mem_map.mp hp
      have hmem := Std.ExtTreeMap.mem_toList_iff_getElem?_eq_some.mp (hperm.mem_iff.mp hq)
      rw [show q.1 = g from hpg, hg] at hmem
      cases hmem
  | some v =>
    have hmem := hperm.mem_iff.mpr (Std.ExtTreeMap.mem_toList_iff_getElem?_eq_some.mpr hg)
    -- the keys are distinct, so no later binding overwrites this one
    refine getElem?_fill_of_mem hdist ?_ ∅
    exact List.mem_map.mpr ⟨(g, v), hmem, rfl⟩

/-- The loop of `Unmarshal` succeeds when every group's bytes parse, and installs what they
parse to. -/
theorem unmarshalLoop_eq_fill {l : List (GoString × Bytes)} {parsed : GoString × Bytes → σ}
    (h : ∀ p ∈ l, alg.parse p.2 = .ok (parsed p)) (m : StringMap σ) :
    unmarshalLoop alg l m = .ok (fill m (l.map fun p => (p.1, parsed p))) := by
  induction l generalizing m with
  | nil => rfl
  | cons p l ih =>
    obtain ⟨g, b⟩ := p
    have hb : alg.parse b = .ok (parsed (g, b)) := h (g, b) List.mem_cons_self
    rw [unmarshalLoop, hb, List.map_cons, fill_cons]
    exact ih (fun q hq => h q (List.mem_cons_of_mem _ hq)) _

/-- **Snapshot round trip.** `Unmarshal` of what `Marshal` produced, into any engine and
under any range orders, installs exactly the marshalled groups. -/
theorem unmarshal_marshal [SemilatticeSup σ] [OrderBot σ] (h : alg.IsJoin) {gob : Gob}
    (hgob : gob.RoundTrips) {order : RangeOrder} {e : Engine alg} {data : Bytes}
    (hdata : e.marshal gob order = .ok data) (order' : RangeOrder) (e' : Engine alg) :
    e'.unmarshal gob order' data = (e, none) := by
  set wire : StringMap Bytes :=
    fill ∅ ((order.range e.groups).map fun p => (p.1, alg.bytes p.2)) with hwire
  have hlookup : ∀ g, wire[g]? = e.groups[g]?.map alg.bytes := fun g =>
    getElem?_fill_range order e.groups (fun p => alg.bytes p.2) g
  have henc : gob.encode wire = .ok data := by
    unfold marshal at hdata
    rw [hwire, fill, List.foldl_map]
    cases henc : gob.encode ((order.range e.groups).foldl
        (fun w p => w.insert p.1 (alg.bytes p.2)) ∅) with
    | error err => simp [henc] at hdata
    | ok data' => simpa [henc] using hdata
  -- every binding of the wire map parses to the live sketch of its group
  have hparse : ∀ p ∈ order'.range wire, alg.parse p.2 = .ok (value e.groups p.1) := by
    intro p hp
    have hp' := Std.ExtTreeMap.mem_toList_iff_getElem?_eq_some.mp ((order'.perm wire).mem_iff.mp hp)
    rw [hlookup, Option.map_eq_some_iff] at hp'
    obtain ⟨sk, hsk, hb⟩ := hp'
    rw [← hb, h.parse_bytes, value_of_getElem? hsk]
  unfold unmarshal
  rw [hgob wire data henc]
  simp only [unmarshalLoop_eq_fill hparse]
  refine Prod.ext (Engine.ext (Std.ExtTreeMap.ext_getElem? fun g => ?_)) rfl
  rw [getElem?_fill_range order' wire fun p => value e.groups p.1, hlookup, Option.map_map]
  cases hg : e.groups[g]? with
  | none => rfl
  | some sk => rw [Option.map_some, Function.comp_apply, value_of_getElem? hg]

end Engine
end CardinalityTracker
