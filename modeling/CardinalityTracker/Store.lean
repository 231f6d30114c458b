import CardinalityTracker.Go
import CardinalityTracker.Lib.JoinFold
import CardinalityTracker.Lib.OrderedMap

/-!
# The key-value store (`internal/store/badger.go`)

Badger is taken as what the store uses it as: a byte-ordered key-value map with prefix
iteration. A `Save` may fail, and a failed one may or may not have written its bytes; which
of these happens at the `n`-th call is a parameter `out : ℕ → SaveOutcome`, so that a
statement "for every pattern of save outcomes" is a statement for every `out`. The counter
of calls lives beside the database.
-/

namespace CardinalityTracker

/-- What one `Save` does. The error is Badger's own, known only by its text. -/
inductive SaveOutcome
  | ok
  | fail (err : GoString) (written : Bool)
deriving DecidableEq, Repr

/-- `BadgerStore`: the database, and how many times `Save` has been called on it. -/
structure Store where
  db : StringMap Bytes
  saves : ℕ

/-- A database just opened for the first time. -/
def Store.empty : Store := ⟨∅, 0⟩

/-- `keyPrefix` namespaces sketch bytes from any future key kind. -/
def keyPrefix : Bytes := str "sketch/"

def key (group : GoString) : Bytes := keyPrefix ++ group

/-- `Save` of the bytes `b` for `group`. The second component is the returned error. -/
def Store.save (out : ℕ → SaveOutcome) (group : GoString) (b : Bytes) (st : Store) :
    Store × Option GoString :=
  match out st.saves with
  | .ok => (⟨st.db.insert (key group) b, st.saves + 1⟩, none)
  | .fail err true => (⟨st.db.insert (key group) b, st.saves + 1⟩, some err)
  | .fail err false => (⟨st.db, st.saves + 1⟩, some err)

/-- `Load`; `none` is `ErrNotFound`. -/
def Store.load (st : Store) (group : GoString) : Option Bytes := st.db[key group]?

/-- `bytes.TrimPrefix`. -/
def trimPrefix (b p : Bytes) : Bytes := if p.isPrefixOf b then b.drop p.length else b

/-- The body of `LoadAll`'s loop over the iterator's items. `fn` threads a state `S`; the
first error it returns ends the loop. -/
def loadLoop {S ε : Type} (fn : GoString → Bytes → S → S × Option ε) :
    List (Bytes × Bytes) → S → S × Option ε
  | [], s => (s, none)
  | (k, val) :: rest, s =>
    match fn (trimPrefix k keyPrefix) val s with
    | (s', some err) => (s', some err)
    | (s', none) => loadLoop fn rest s'

/-- `LoadAll`: seek to the prefix, then call `fn` on each item while its key has it. -/
def Store.loadAll {S ε : Type} (st : Store) (fn : GoString → Bytes → S → S × Option ε) (s : S) :
    S × Option ε :=
  loadLoop fn (Lib.scan keyPrefix st.db.toList) s

/-! ## Keys -/

theorem key_injective : Function.Injective key := fun _ _ h => List.append_cancel_left h

theorem keyPrefix_isPrefixOf_key (group : GoString) : keyPrefix.isPrefixOf (key group) :=
  List.isPrefixOf_iff_prefix.mpr (List.prefix_append _ _)

@[simp] theorem trimPrefix_key (group : GoString) : trimPrefix (key group) keyPrefix = group := by
  rw [trimPrefix, if_pos (keyPrefix_isPrefixOf_key group), key, List.drop_left]

/-- A key with the prefix is the key of the group that trimming it gives. -/
theorem key_trimPrefix {k : Bytes} (h : keyPrefix.isPrefixOf k) :
    key (trimPrefix k keyPrefix) = k := by
  obtain ⟨group, rfl⟩ := List.isPrefixOf_iff_prefix.mp h
  rw [← key, trimPrefix_key]

/-- The bindings `LoadAll` visits are the stored groups. -/
theorem mem_scan_iff (st : Store) (k v : Bytes) :
    (k, v) ∈ Lib.scan keyPrefix st.db.toList ↔ keyPrefix.isPrefixOf k ∧ st.db[k]? = some v := by
  rw [Lib.scan_eq_filter _ Std.ExtTreeMap.ordered_keys_toList, List.mem_filter,
    Std.ExtTreeMap.mem_toList_iff_getElem?_eq_some, and_comm]

/-- No two of them are of one group. -/
theorem pairwise_group_ne_scan (st : Store) : (Lib.scan keyPrefix st.db.toList).Pairwise
    fun p q => trimPrefix p.1 keyPrefix ≠ trimPrefix q.1 keyPrefix := by
  have hkeys : (Lib.scan keyPrefix st.db.toList).Pairwise fun p q => p.1 ≠ q.1 := by
    rw [Lib.scan_eq_filter _ Std.ExtTreeMap.ordered_keys_toList]
    exact (Lib.pairwise_ne_toList st.db).filter _
  refine hkeys.imp_of_mem ?_
  rintro ⟨k, v⟩ ⟨k', v'⟩ hp hq hne heq
  have hk := key_trimPrefix ((mem_scan_iff st k v).mp hp).1
  have hk' := key_trimPrefix ((mem_scan_iff st k' v').mp hq).1
  exact hne (hk.symm.trans ((congrArg key heq).trans hk'))

end CardinalityTracker
