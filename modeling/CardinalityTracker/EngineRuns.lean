import CardinalityTracker.EngineTheorems

/-!
# What can be in an engine

An engine starts empty and changes by calls of `Add`, `MergeBytes`, `Restore` and `Unmarshal`.
Whatever the order of the calls, a group is a join of sketches that came in with them: the
one-id sketches of the ids, and what the byte strings parse to. Both directions are stated, an
induction rule for what every group keeps (`Keeps.after`) and a run that brings given sketches
together in one group (`exists_updates_above`).
-/

namespace CardinalityTracker
namespace Engine

open Lib

variable {σ : Type} {alg : Algorithm σ}

/-- A call that can change a group. `Unmarshal` ranges over the map it has decoded, in the
given order. -/
inductive Update
  | add (group : GoString) (id : UInt64)
  | mergeBytes (group algoName : GoString) (b : Bytes)
  | restore (group : GoString) (b : Bytes)
  | unmarshal (order : RangeOrder) (data : Bytes)

/-- The engine after the call, whether it has failed or not. -/
def update (gob : Gob) (e : Engine alg) : Update → Engine alg
  | .add group id => (e.add group id).1
  | .mergeBytes group algoName b => (e.mergeBytes group algoName b).1
  | .restore group b => (e.restore group b).1
  | .unmarshal order data => (e.unmarshal gob order data).1

/-- The engine after a run of calls, from the empty one. -/
def after (alg : Algorithm σ) (gob : Gob) (updates : List Update) : Engine alg :=
  updates.foldl (update gob) (Engine.new alg)

/-- The ids and the sketch bytes of the call are among the given ones. The sketch bytes of an
`Unmarshal` are the values of the map it decodes. -/
def Update.Within (gob : Gob) (ids : Set UInt64) (bytes : Set Bytes) : Update → Prop
  | .add _ id => id ∈ ids
  | .mergeBytes _ _ b => b ∈ bytes
  | .restore _ b => b ∈ bytes
  | .unmarshal _ data => ∀ wire, gob.decode data = .ok wire →
      ∀ (g : GoString) (b : Bytes), wire[g]? = some b → b ∈ bytes

/-- The sketches that calls with these inputs bring in. -/
def Entering (alg : Algorithm σ) (ids : Set UInt64) (bytes : Set Bytes) (r : σ) : Prop :=
  (∃ id ∈ ids, alg.single id = r) ∨ ∃ b ∈ bytes, alg.parse b = .ok r

theorem after_concat (gob : Gob) (updates : List Update) (u : Update) :
    after alg gob (updates ++ [u]) = (after alg gob updates).update gob u := by
  unfold after
  rw [List.foldl_append]
  rfl

variable [SemilatticeSup σ] [OrderBot σ] {gob : Gob} {ids : Set UInt64} {bytes : Set Bytes}

/-! ## What every group keeps -/

/-- A property of the empty sketch that joins with incoming sketches keep. -/
structure Keeps (alg : Algorithm σ) (ids : Set UInt64) (bytes : Set Bytes) (P : σ → Prop) :
    Prop where
  bot : P ⊥
  join : ∀ s r, P s → Entering alg ids bytes r → P (s ⊔ r)

section Invariant

variable {P : σ → Prop} {e : Engine alg}

theorem value_insert {m : StringMap σ} (hm : ∀ g, P (value m g)) {group : GoString} {sk : σ}
    (hsk : P sk) (g : GoString) : P (value (m.insert group sk) g) := by
  unfold value
  rw [getElem?_insert_ite]
  split
  · exact hsk
  · exact hm g

/-- What replaces a group is the join of the empty sketch with it. -/
theorem Keeps.parsed (hP : Keeps alg ids bytes P) {b : Bytes} (hb : b ∈ bytes) {r : σ}
    (hr : alg.parse b = .ok r) : P r := by
  have hjoin := hP.join ⊥ r hP.bot (Or.inr ⟨b, hb, hr⟩)
  rwa [bot_sup_eq] at hjoin

theorem Keeps.joinAt (hP : Keeps alg ids bytes P) {m : StringMap σ} (hm : ∀ g, P (value m g))
    (group : GoString) {r : σ} (hr : Entering alg ids bytes r) (g : GoString) :
    P (value (joinAt m group r) g) :=
  value_insert hm (hP.join _ r (hm group) hr) g

theorem Keeps.mergeBytes (hP : Keeps alg ids bytes P) (h : alg.IsJoin)
    (he : ∀ g, P (value e.groups g)) (group algoName : GoString) {b : Bytes} (hb : b ∈ bytes)
    (g : GoString) : P (value (e.mergeBytes group algoName b).1.groups g) := by
  by_cases hname : algoName = alg.name
  · cases hparse : alg.parse b with
    | error err =>
      obtain ⟨err', hrej⟩ := e.mergeBytes_of_reject group algoName b (Or.inr ⟨err, hparse⟩)
      rw [hrej]
      exact he g
    | ok r =>
      rw [hname, mergeBytes_of_parse h e group hparse]
      exact hP.joinAt he group (Or.inr ⟨b, hb, hparse⟩) g
  · obtain ⟨err', hrej⟩ := e.mergeBytes_of_reject group algoName b (Or.inl hname)
    rw [hrej]
    exact he g

theorem Keeps.restore (hP : Keeps alg ids bytes P) (he : ∀ g, P (value e.groups g))
    (group : GoString) {b : Bytes} (hb : b ∈ bytes) (g : GoString) :
    P (value (e.restore group b).1.groups g) := by
  unfold Engine.restore
  cases hparse : alg.parse b with
  | error err => exact he g
  | ok r => exact value_insert he (hP.parsed hb hparse) g

/-- The loop of `Unmarshal` installs what the bytes parse to. -/
theorem Keeps.unmarshalLoop (hP : Keeps alg ids bytes P) {l : List (GoString × Bytes)}
    (hl : ∀ p ∈ l, p.2 ∈ bytes) {m m' : StringMap σ} (hm : ∀ g, P (value m g))
    (h : unmarshalLoop alg l m = .ok m') (g : GoString) : P (value m' g) := by
  induction l generalizing m with
  | nil =>
    cases h
    exact hm g
  | cons p l ih =>
    obtain ⟨group, b⟩ := p
    rw [Engine.unmarshalLoop] at h
    cases hparse : alg.parse b with
    | error err =>
      rw [hparse] at h
      cases h
    | ok sk =>
      rw [hparse] at h
      have hsk := hP.parsed (hl (group, b) List.mem_cons_self) hparse
      exact ih (fun q hq => hl q (List.mem_cons_of_mem _ hq)) (value_insert hm hsk) h

theorem Keeps.unmarshal (hP : Keeps alg ids bytes P) (he : ∀ g, P (value e.groups g))
    (order : RangeOrder) {data : Bytes}
    (hdata : ∀ wire, gob.decode data = .ok wire →
      ∀ (g : GoString) (b : Bytes), wire[g]? = some b → b ∈ bytes) (g : GoString) :
    P (value (e.unmarshal gob order data).1.groups g) := by
  unfold Engine.unmarshal
  cases hdec : gob.decode data with
  | error err => exact he g
  | ok wire =>
    dsimp only
    cases hloop : Engine.unmarshalLoop alg (order.range wire) ∅ with
    | error err => exact he g
    | ok groups =>
      -- the loop starts from a map of its own
      have hempty : ∀ g, P (value (∅ : StringMap σ) g) := by
        intro g
        rw [value_empty]
        exact hP.bot
      have hrange : ∀ p ∈ order.range wire, p.2 ∈ bytes := by
        intro p hp
        have hmem := Std.ExtTreeMap.mem_toList_iff_getElem?_eq_some.mp
          ((order.perm wire).mem_iff.mp hp)
        exact hdata wire hdec p.1 p.2 hmem
      exact hP.unmarshalLoop hrange hempty hloop g

/-- One call. -/
theorem Keeps.update (hP : Keeps alg ids bytes P) (h : alg.IsJoin)
    (he : ∀ g, P (value e.groups g)) {u : Update} (hu : u.Within gob ids bytes) (g : GoString) :
    P (value (e.update gob u).groups g) := by
  cases u with
  | add group id =>
    rw [Engine.update, add_eq h]
    exact hP.joinAt he group (Or.inl ⟨id, hu, rfl⟩) g
  | mergeBytes group algoName b => exact hP.mergeBytes h he group algoName hu g
  | restore group b => exact hP.restore he group hu g
  | unmarshal order data => exact hP.unmarshal he order hu g

/-- **What every group keeps**, over a whole run. -/
theorem Keeps.after (hP : Keeps alg ids bytes P) (h : alg.IsJoin) {updates : List Update}
    (hu : ∀ u ∈ updates, u.Within gob ids bytes) (g : GoString) :
    P (value (after alg gob updates).groups g) := by
  induction updates using List.reverseRecOn generalizing g with
  | nil =>
    show P (value (∅ : StringMap σ) g)
    rw [value_empty]
    exact hP.bot
  | append_singleton updates u ih =>
    rw [after_concat]
    refine hP.update h (ih fun v hv => ?_) ?_ g
    · exact hu v (List.mem_append_left _ hv)
    · exact hu u (List.mem_append_right _ (List.mem_singleton_self u))

end Invariant

/-! ## What a run can bring together -/

/-- A call that joins an incoming sketch into a group. -/
theorem exists_update_joinAt (h : alg.IsJoin) {r : σ} (hr : Entering alg ids bytes r)
    (e : Engine alg) (group : GoString) :
    ∃ u : Update, u.Within gob ids bytes ∧ (e.update gob u).groups = joinAt e.groups group r := by
  rcases hr with ⟨id, hid, rfl⟩ | ⟨b, hb, hparse⟩
  · refine ⟨.add group id, hid, ?_⟩
    rw [update, add_eq h]
  · refine ⟨.mergeBytes group alg.name b, hb, ?_⟩
    rw [update, mergeBytes_of_parse h e group hparse]

/-- **A run brings any finite number of incoming sketches together** in one group. -/
theorem exists_updates_above (h : alg.IsJoin) {ι : Type} [DecidableEq ι] (J : Finset ι) (r : ι → σ)
    (hr : ∀ j, Entering alg ids bytes (r j) ∨ r j = ⊥) (group : GoString) :
    ∃ updates : List Update, (∀ u ∈ updates, u.Within gob ids bytes) ∧
      ∀ j ∈ J, r j ≤ value (after alg gob updates).groups group := by
  induction J using Finset.induction_on with
  | empty => exact ⟨[], by simp, by simp⟩
  | insert k J _ ih =>
    obtain ⟨updates, hu, habove⟩ := ih
    rcases hr k with hk | hk
    · obtain ⟨u, hwithin, hgroups⟩ : ∃ u : Update, u.Within gob ids bytes ∧
          ((after alg gob updates).update gob u).groups
            = joinAt (after alg gob updates).groups group (r k) :=
        exists_update_joinAt h hk _ group
      refine ⟨updates ++ [u], ?_, ?_⟩
      · rw [List.forall_mem_append, List.forall_mem_singleton]
        exact ⟨hu, hwithin⟩
      · rw [after_concat, hgroups, value_joinAt_self, Finset.forall_mem_insert]
        exact ⟨le_sup_right, fun j hj => (habove j hj).trans le_sup_left⟩
    · refine ⟨updates, hu, ?_⟩
      rw [Finset.forall_mem_insert, hk]
      exact ⟨bot_le, habove⟩

end Engine
end CardinalityTracker
