import CardinalityTracker.HllTheorems
import CardinalityTracker.Reference.Gob
import CardinalityTracker.Reference.Murmur3
import CardinalityTracker.Reference.Protobuf

/-!
# The in-memory Raft storage, and an environment

`MemoryStorage` is a parameter of the node; this is what the library's own type does, as a
value of it. `environment` puts the concrete libraries together: a place where every law
the theorems assume holds.
-/

namespace CardinalityTracker
namespace EtcdStorage

/-- The entry slice, which is never empty: its first element is the dummy. -/
structure State where
  dummy : Entry
  rest : List Entry
  snapshotIndex : ℕ
deriving DecidableEq

def State.ents (s : State) : List Entry := s.dummy :: s.rest

/-- `Append`. Entries below the first index are cut off, a conflicting suffix is replaced,
and a gap panics. -/
def append (s : State) (entries : List Entry) : Option (State × Option StorageError) :=
  match entries with
  | [] => some (s, none)
  | e :: es =>
    let first := s.dummy.index + 1
    if e.index + es.length < first then some (s, none)
    else
      let kept := (e :: es).drop (first - e.index)
      let offset := max e.index first - s.dummy.index
      if offset ≤ s.ents.length then
        some ({ s with rest := s.rest.take (offset - 1) ++ kept }, none)
      else none

/-- `ApplySnapshot`. -/
def applySnapshot (s : State) (snap : Snapshot) : State × Option StorageError :=
  if snap.index ≤ s.snapshotIndex then (s, some .snapOutOfDate)
  else (⟨dummyEntry snap.index snap.term, [], snap.index⟩, none)

/-- `Compact`. The entry at the index becomes the dummy. -/
def compact (s : State) (i : ℕ) : Option (State × Option StorageError) :=
  if i ≤ s.dummy.index then some (s, some .compacted)
  else
    match s.rest.drop (i - s.dummy.index - 1) with
    | [] => none
    | d :: rest => some ({ s with dummy := dummyEntry d.index d.term, rest }, none)

/-- The storage as a value of the node's parameter. -/
def storage : MemoryStorage State where
  new := ⟨dummyEntry 0 0, [], 0⟩
  ents := State.ents
  snapshotIndex := State.snapshotIndex
  append := append
  applySnapshot := applySnapshot
  compact := compact

theorem lastIndex_ents (s : State) : lastIndex s.ents = s.dummy.index + s.rest.length := rfl

theorem append_next (s : State) (e : Entry) (es : List Entry)
    (h : e.index = lastIndex s.ents + 1) :
    append s (e :: es) = some ({ s with rest := s.rest ++ e :: es }, none) := by
  rw [lastIndex_ents] at h
  unfold append State.ents
  have hfirst : s.dummy.index + 1 - e.index = 0 := by omega
  have hoffset : max e.index (s.dummy.index + 1) - s.dummy.index = s.rest.length + 1 := by omega
  simp only [hfirst, hoffset, List.drop_zero, List.length_cons, Nat.add_sub_cancel,
    List.take_length]
  rw [if_neg (by omega), if_pos le_rfl]

theorem append_gap (s : State) (e : Entry) (es : List Entry)
    (h : lastIndex s.ents + 1 < e.index) : append s (e :: es) = none := by
  rw [lastIndex_ents] at h
  unfold append State.ents
  simp only [List.length_cons]
  rw [if_neg (by omega), if_neg (by omega)]

theorem storage_lawful : storage.Lawful where
  ents_new := rfl
  snapshotIndex_new := rfl
  append_nil := fun _ => rfl
  append_next := by
    intro s e es h
    refine ⟨_, append_next s e es h, rfl, rfl⟩
  append_gap := append_gap
  applySnapshot_newer := by
    intro s snap h
    refine ⟨⟨dummyEntry snap.index snap.term, [], snap.index⟩, ?_, rfl, rfl⟩
    exact if_neg (not_le.mpr h)
  applySnapshot_older := fun s snap h => if_pos h
  compact_old := by
    rintro s i ⟨d, hd, hi⟩
    obtain rfl : s.dummy = d := Option.some.inj hd
    exact if_pos hi

/-- The concrete libraries, with the store's saves ending as `out` says. -/
def environment (out : ℕ → SaveOutcome) : Env State :=
  ⟨Protobuf.codec, GobCodec.codec, GobCodec.keyOrder, storage, out⟩

/-- An environment in which every save succeeds, and one in which none does. -/
def savingEnv : Env State := environment fun _ => .ok
def failingEnv : Env State := environment fun _ => .fail (str "disk full") false

/-- A node just started over an empty HLL engine and an empty store. -/
def freshNode : Node (Hll.algorithm Murmur3.sum64) State :=
  Node.new savingEnv (Engine.new _) Store.empty

end EtcdStorage
end CardinalityTracker
