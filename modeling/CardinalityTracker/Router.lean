import CardinalityTracker.Go
import CardinalityTracker.Lib.Circle

/-!
# The consistent hash ring (`internal/router/router.go`)

A ring is a sorted slice of hash points and a map from points to node addresses. The slice
keeps a point once for each label that hashes to it, the map only the last address that was
added with it. Every method holds the ring's lock for its whole body, so a method is one step.

The hash function `murmur3.Sum32` is a parameter `sum32`.
-/

namespace CardinalityTracker

open Lib

def vnodesPerNode : ℕ := 150

/-- `Ring`. -/
structure Ring where
  /-- The sorted hash points. -/
  ring : List UInt32
  /-- From hash points to node addresses. -/
  nodeMap : PointMap GoString

namespace Ring

/-- `New`. -/
def new : Ring := ⟨[], ∅⟩

/-- The label of a virtual node, `fmt.Sprintf("%s#%d", addr, i)`. -/
def label (addr : GoString) (i : ℕ) : Bytes := addr ++ str "#" ++ decimal i

/-- `r.nodeMap[h]`: a missing point reads as the empty string. -/
def ownerOf (nodeMap : PointMap GoString) (h : UInt32) : GoString := nodeMap[h]?.getD []

variable (sum32 : Bytes → UInt32)

/-- The body of the loop of `AddNode`. -/
def addPoint (addr : GoString) (r : Ring) (i : ℕ) : Ring :=
  let h := sum32 (label addr i)
  ⟨r.ring ++ [h], r.nodeMap.insert h addr⟩

/-- `AddNode`. Equal points cannot be told apart, so every sort gives the same slice. -/
def addNode (r : Ring) (addr : GoString) : Ring :=
  let r' := (List.range vnodesPerNode).foldl (addPoint sum32 addr) r
  { r' with ring := r'.ring.insertionSort (· ≤ ·) }

/-- The loop of `RemoveNode`. The map is edited while the slice is being read: after the
first occurrence of a point of `addr`, the point reads as the empty string. -/
def removeLoop (addr : GoString) :
    List UInt32 → List UInt32 → PointMap GoString → List UInt32 × PointMap GoString
  | [], keep, nodeMap => (keep, nodeMap)
  | h :: rest, keep, nodeMap =>
    if ownerOf nodeMap h ≠ addr then removeLoop addr rest (keep ++ [h]) nodeMap
    else removeLoop addr rest keep (nodeMap.erase h)

/-- `RemoveNode`. -/
def removeNode (r : Ring) (addr : GoString) : Ring :=
  let (keep, nodeMap) := removeLoop addr r.ring [] r.nodeMap
  ⟨keep, nodeMap⟩

/-- `Resolve`. -/
def resolve (r : Ring) (group : GoString) : GoString :=
  if r.ring.length = 0 then []
  else
    let h := sum32 group
    let idx := search r.ring.length fun i => decide (h ≤ r.ring.getD i 0)
    let idx := if idx = r.ring.length then 0 else idx
    ownerOf r.nodeMap (r.ring.getD idx 0)

end Ring

/-! ## Startup (`cmd/server/main.go`) -/

/-- The ring of a list of addresses: `AddNode` on each in turn. -/
def ringOf (sum32 : Bytes → UInt32) (peerAddrs : List GoString) : Ring :=
  peerAddrs.foldl (Ring.addNode sum32) Ring.new

/-- `selfAddr`: the entry of the list at the position `nodeID`, counted from one, or empty
when there is none. The source compares `int(*nodeID)`, which is the id for ids below 2^63. -/
def selfAddrOf (peerAddrs : List GoString) (nodeID : ℕ) : GoString :=
  if 0 < nodeID ∧ nodeID ≤ peerAddrs.length then peerAddrs.getD (nodeID - 1) [] else []

end CardinalityTracker
