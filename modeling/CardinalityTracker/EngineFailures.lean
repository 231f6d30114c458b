import CardinalityTracker.EngineTheorems
import CardinalityTracker.HllTheorems
import CardinalityTracker.Reference.Gob
import CardinalityTracker.Reference.Murmur3

/-!
# What a failed engine operation leaves behind

Six methods of the engine can return an error. Five of them do all their checking before
they touch the map, `Unmarshal` by filling a map of its own: when they fail, nothing has
changed. `AddAndPersist` inserts first and saves what it has inserted, and a save that fails
does not take the insert back.
-/

namespace CardinalityTracker
namespace Engine

variable {σ : Type} {alg : Algorithm σ}

/-- A call of a method that can fail. The callbacks of `Persist` and `AddAndPersist` act on
a state `W`. -/
inductive Operation (alg : Algorithm σ) (W : Type)
  | merge (group : GoString) (remote : Remote alg)
  | mergeBytes (group algoName : GoString) (b : Bytes)
  | restore (group : GoString) (b : Bytes)
  | unmarshal (data : Bytes)
  | persist (group : GoString) (save : Bytes → W → W × Option GoString)
  | addAndPersist (group : GoString) (id : UInt64) (save : Bytes → W → W × Option GoString)

/-- The call: the engine, the callback's state and the returned error. -/
def perform {W : Type} (gob : Gob) (order : RangeOrder) (e : Engine alg) (w : W) :
    Operation alg W → Engine alg × W × Option EngineError
  | .merge group remote =>
    let (e', err) := e.merge group remote
    (e', w, err)
  | .mergeBytes group algoName b =>
    let (e', err) := e.mergeBytes group algoName b
    (e', w, err)
  | .restore group b =>
    let (e', err) := e.restore group b
    (e', w, err)
  | .unmarshal data =>
    let (e', err) := e.unmarshal gob order data
    (e', w, err)
  | .persist group save =>
    let (w', err) := e.persist group save w
    (e, w', err)
  | .addAndPersist group id save => e.addAndPersist group id save w

/-! ## One lemma for each method -/

variable {e : Engine alg} {group : GoString} {err : EngineError}

theorem merge_of_error {remote : Remote alg} (h : (e.merge group remote).2 = some err) :
    (e.merge group remote).1 = e := by
  cases remote with
  | nil => rfl
  | foreign algoName hne => rfl
  | own sk =>
    by_cases hname : alg.algoName sk = alg.name
    · -- past the name check a merge succeeds, into a present group or an absent one
      rw [merge, if_neg (not_not_intro hname)] at h
      split at h <;> cases h
    · rw [merge, if_pos hname]

theorem mergeBytes_of_error {algoName : GoString} {b : Bytes}
    (h : (e.mergeBytes group algoName b).2 = some err) :
    (e.mergeBytes group algoName b).1 = e := by
  by_cases hname : algoName = alg.name
  · cases hb : alg.parse b with
    | error msg =>
      obtain ⟨err', hrej⟩ := e.mergeBytes_of_reject group algoName b (Or.inr ⟨msg, hb⟩)
      rw [hrej]
    | ok remote =>
      have hmerge : e.mergeBytes group algoName b = e.merge group (.own remote) := by
        unfold mergeBytes
        rw [if_neg (not_not_intro hname), hb]
      rw [hmerge] at h ⊢
      exact merge_of_error h
  · obtain ⟨err', hrej⟩ := e.mergeBytes_of_reject group algoName b (Or.inl hname)
    rw [hrej]

theorem restore_of_error {b : Bytes} (h : (e.restore group b).2 = some err) :
    (e.restore group b).1 = e := by
  unfold restore at h ⊢
  cases hb : alg.parse b with
  | error msg => rfl
  | ok sk =>
    rw [hb] at h
    cases h

/-- Whichever group's bytes do not parse, the map that was being filled is dropped. -/
theorem unmarshal_of_error {gob : Gob} {order : RangeOrder} {data : Bytes}
    (h : (e.unmarshal gob order data).2 = some err) :
    (e.unmarshal gob order data).1 = e := by
  unfold unmarshal at h ⊢
  cases hdec : gob.decode data with
  | error msg => rfl
  | ok wire =>
    simp only [hdec] at h ⊢
    cases hloop : unmarshalLoop alg (order.range wire) ∅ with
    | error err' => rfl
    | ok groups =>
      rw [hloop] at h
      cases h

/-! ## All of them -/

/-- The groups after a call that failed. -/
def Operation.groupsAfterError {W : Type} (e : Engine alg) : Operation alg W → StringMap σ
  | .addAndPersist group id _ => (e.add group id).1.groups
  | .merge .. | .mergeBytes .. | .restore .. | .unmarshal .. | .persist .. => e.groups

/-- **What a failed operation leaves.** When `Merge`, `MergeBytes`, `Restore`, `Unmarshal` or
`Persist` returns an error the groups are exactly what they were; when `AddAndPersist` does,
they are exactly what `Add` of the same id makes of them. -/
theorem perform_of_error {W : Type} (gob : Gob) (order : RangeOrder) (e : Engine alg) (w : W)
    (op : Operation alg W) (err : EngineError)
    (h : (e.perform gob order w op).2.2 = some err) :
    (e.perform gob order w op).1.groups = op.groupsAfterError e := by
  cases op with
  | merge group remote => exact congrArg groups (merge_of_error h)
  | mergeBytes group algoName b => exact congrArg groups (mergeBytes_of_error h)
  | restore group b => exact congrArg groups (restore_of_error h)
  | unmarshal data => exact congrArg groups (unmarshal_of_error h)
  | persist group save => rfl
  | addAndPersist group id save =>
    show (e.addAndPersist group id save w).1.groups = (e.add group id).1.groups
    rw [addAndPersist_eq]

/-- An engine that holds a group. -/
def holding : Engine (Hll.algorithm Murmur3.sum64) := ((Engine.new _).add (str "g") 5).1

/-- Bytes that are too short to be a sketch are not restored over the sketch of the group. -/
theorem perform_of_error_restore :
    (holding.perform GobCodec.codec GobCodec.keyOrder ()
      (.restore (str "g") (str "not-a-sketch"))).2.2
        = some (.parse (str "g") (str "hll: buffer too short")) ∧
    (holding.perform GobCodec.codec GobCodec.keyOrder ()
      (.restore (str "g") (str "not-a-sketch"))).1.groups = holding.groups ∧
    holding.groups[str "g"]? = some ((Hll.algorithm Murmur3.sum64).single 5) :=
  ⟨rfl,
    perform_of_error GobCodec.codec GobCodec.keyOrder holding ()
      (.restore (str "g") (str "not-a-sketch"))
      (.parse (str "g") (str "hll: buffer too short")) rfl,
    Std.ExtTreeMap.getElem?_insert_self⟩

/-- A save that fails does not take the insert back: the group has been created. -/
theorem addAndPersist_failed_keeps_add :
    (Engine.new (Hll.algorithm Murmur3.sum64)).groups[str "g"]? = none ∧
    ((Engine.new (Hll.algorithm Murmur3.sum64)).perform GobCodec.codec GobCodec.keyOrder ()
      (.addAndPersist (str "g") 5 fun _ w => (w, some (str "disk full")))).2.2
        = some (.save (str "disk full")) ∧
    ((Engine.new (Hll.algorithm Murmur3.sum64)).perform GobCodec.codec GobCodec.keyOrder ()
      (.addAndPersist (str "g") 5 fun _ w => (w, some (str "disk full")))).1.groups[str "g"]?
        = some ((Hll.algorithm Murmur3.sum64).single 5) :=
  ⟨Std.ExtTreeMap.getElem?_empty, rfl, Std.ExtTreeMap.getElem?_insert_self⟩

end Engine
end CardinalityTracker
