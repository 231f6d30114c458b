import Mathlib

/-!
# Go values

The representation of the few Go types every other file uses. A Go string is an arbitrary
byte sequence (nothing makes it valid UTF-8), so strings and byte slices are both lists of
bytes. A Go map is a finite map; `Std.ExtTreeMap` is extensional, so two maps with the same
bindings are equal whatever order they were filled in, and its order of the keys is the
bytewise one, which the key-value store iterates in.
-/

namespace CardinalityTracker

/-- `[]byte`. -/
abbrev Bytes := List UInt8

/-- `string`. -/
abbrev GoString := List UInt8

/-- An ASCII string literal of the source. -/
def str (s : String) : GoString := s.toList.map fun c => UInt8.ofNat c.toNat

/-- The verb `%d`. -/
def decimal (n : ℕ) : GoString := (Nat.toDigits 10 n).map fun c => UInt8.ofNat c.toNat

/-- `map[string]V`. -/
abbrev StringMap (ν : Type) := Std.ExtTreeMap GoString ν compare

/-- `map[uint32]V`. -/
abbrev PointMap (ν : Type) := Std.ExtTreeMap UInt32 ν compare

end CardinalityTracker
