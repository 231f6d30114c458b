import CardinalityTracker.Lib.Uvarint
import CardinalityTracker.Sketch

/-!
# Bitmap sketches (`internal/cardinality/bitmap`)

A sketch is a `roaring64.Bitmap`, and its methods are calls of the library: `Roaring64` has these as
parameters, and with them the laws that are relied on. They are about the members of a bitmap only.
The same members can be laid out in different ways, so two bitmaps with the same members need not be
equal, nor need their bytes be.

`sets` are the sketches that bitmaps stand for. They count exactly: the join is the union, and the
sketch of a list of ids is the set of them.
-/

namespace CardinalityTracker

/-- The methods of a `roaring64.Bitmap` that the sketch calls. `members` is the set of numbers that
a bitmap has, and the laws say what the methods do to it. A bitmap marshals into memory, which does
not fail, and unmarshalling the bytes gives one with the same members. -/
structure Roaring64 where
  Bitmap : Type
  new : Bitmap
  add : Bitmap → UInt64 → Bitmap
  getCardinality : Bitmap → UInt64
  marshalBinary : Bitmap → Except GoString Bytes
  unmarshalBinary : Bytes → Except GoString Bitmap
  clone : Bitmap → Bitmap
  or : Bitmap → Bitmap → Bitmap
  members : Bitmap → Finset UInt64
  members_new : members new = ∅
  members_add : ∀ rb id, members (add rb id) = insert id (members rb)
  getCardinality_eq : ∀ rb, getCardinality rb = UInt64.ofNat (members rb).card
  members_clone : ∀ rb, members (clone rb) = members rb
  members_or : ∀ rb o, members (or rb o) = members rb ∪ members o
  roundTrip : ∀ rb, ∃ b rb', marshalBinary rb = .ok b ∧ unmarshalBinary b = .ok rb' ∧
    members rb' = members rb

namespace Bitmap

/-- The algo key for this algorithm. -/
def algoName : GoString := str "bitmap"

variable (roaring64 : Roaring64)

/-- `sketch`: the bitmap `rb`. -/
abbrev Sketch := roaring64.Bitmap

/-- `sketch.Bytes`. The error of `MarshalBinary` is dropped, and its bytes are then nil. -/
def Sketch.bytes (rb : Sketch roaring64) : Bytes :=
  match roaring64.marshalBinary rb with
  | .ok b => b
  | .error _ => []

/-- `bitmap.Algorithm`, and the methods of `sketch`. -/
def algorithm : Algorithm (Sketch roaring64) where
  name := algoName
  new := roaring64.new
  parse := roaring64.unmarshalBinary
  algoName := fun _ => algoName
  add := roaring64.add
  cardinality := roaring64.getCardinality
  merge := roaring64.or
  bytes := Sketch.bytes roaring64
  clone := roaring64.clone

/-! ## Numbers as varints -/

open Lib.Uvarint

theorem readMany_of_reads_all {xs : List UInt64} {buf : Bytes} (h : Reads xs buf []) {n : ℕ}
    (hn : xs.length ≤ n) : readMany n buf = (xs, []) := by
  induction xs generalizing buf n with
  | nil =>
    obtain rfl : buf = [] := h
    cases n <;> rfl
  | cons x xs ih =>
    obtain ⟨v, buf', hv, rfl, hreads⟩ := h
    obtain ⟨m, rfl⟩ := Nat.exists_eq_add_of_le' hn
    rw [List.length_cons, ← Nat.add_assoc, readMany_encodes hv, ih hreads (Nat.le_add_left _ _)]

theorem length_le_of_reads {xs : List UInt64} {buf rest : Bytes} (h : Reads xs buf rest) :
    xs.length ≤ buf.length := by
  induction xs generalizing buf with
  | nil => exact Nat.zero_le _
  | cons x xs ih =>
    obtain ⟨v, buf', hv, rfl, hreads⟩ := h
    have hpos := hv.length_pos
    have hle := ih hreads
    rw [List.length_cons, List.length_append]
    omega

def marshalVarints (rb : Finset UInt64) : Bytes := appendMany [] (rb.sort (· ≤ ·))

def unmarshalVarints (b : Bytes) : Finset UInt64 := (readMany b.length b).1.toFinset

theorem unmarshalVarints_marshalVarints (rb : Finset UInt64) :
    unmarshalVarints (marshalVarints rb) = rb := by
  have hreads := reads_appendMany (rb.sort (· ≤ ·)) []
  rw [List.append_nil] at hreads
  unfold unmarshalVarints marshalVarints
  rw [readMany_of_reads_all hreads (length_le_of_reads hreads), Finset.sort_toFinset]

/-! ## Sets of ids -/

/-- The sketches that bitmaps stand for. Their bytes are the members in increasing order. -/
def sets : Algorithm (Finset UInt64) where
  name := algoName
  new := ∅
  parse := fun b => .ok (unmarshalVarints b)
  algoName := fun _ => algoName
  add := fun ids id => insert id ids
  cardinality := fun ids => UInt64.ofNat ids.card
  merge := fun ids o => ids ∪ o
  bytes := marshalVarints
  clone := id

theorem single_eq (id : UInt64) : sets.single id = {id} := rfl

theorem isJoin : sets.IsJoin where
  new_eq := rfl
  add_eq ids id := by
    rw [single_eq, Finset.sup_eq_union, Finset.union_comm]
    exact Finset.insert_eq id ids
  merge_eq _ _ := rfl
  clone_eq _ := rfl
  algoName_eq _ := rfl
  parse_bytes ids := congrArg Except.ok (unmarshalVarints_marshalVarints ids)

theorem sketchOf_eq (ids : List UInt64) : sets.sketchOf ids = ids.toFinset := by
  induction ids using List.reverseRecOn with
  | nil => rfl
  | append_singleton ids id ih =>
    rw [isJoin.sketchOf_concat, ih, single_eq, List.toFinset_append]
    rfl

/-- The count is the number of members, short of the full set. -/
theorem toNat_cardinality {ids : Finset UInt64} (h : ids.card < 2 ^ 64) :
    (sets.cardinality ids).toNat = ids.card :=
  UInt64.toNat_ofNat_of_lt' h

/-! ## Bitmaps to evaluate with -/

theorem slices_roundTrip (rb : List UInt64) : ∃ (b : Bytes) (rb' : List UInt64),
    (Except.ok (appendMany [] rb) : Except GoString Bytes) = .ok b ∧
      (Except.ok (readMany b.length b).1 : Except GoString (List UInt64)) = .ok rb' ∧
      rb'.toFinset = rb.toFinset := by
  have hreads := reads_appendMany rb []
  rw [List.append_nil] at hreads
  refine ⟨_, _, rfl, rfl, ?_⟩
  rw [readMany_of_reads_all hreads (length_le_of_reads hreads)]

/-- A bitmap as the numbers in the order in which they were added, with repetitions. This is not the
layout of the library, but it has different bitmaps with the same members as well. -/
def slices : Roaring64 where
  Bitmap := List UInt64
  new := []
  add rb id := rb ++ [id]
  getCardinality rb := UInt64.ofNat rb.toFinset.card
  marshalBinary rb := .ok (appendMany [] rb)
  unmarshalBinary b := .ok (readMany b.length b).1
  clone := id
  or rb o := rb ++ o
  members := List.toFinset
  members_new := rfl
  members_add rb id := by
    rw [List.toFinset_append, Finset.union_comm]
    rfl
  getCardinality_eq _ := rfl
  members_clone _ := rfl
  members_or _ _ := List.toFinset_append
  roundTrip := slices_roundTrip

end Bitmap
end CardinalityTracker
