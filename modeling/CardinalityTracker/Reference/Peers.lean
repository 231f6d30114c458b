import CardinalityTracker.Reference.Murmur3
import CardinalityTracker.Hll
import CardinalityTracker.RouterTheorems
import CardinalityTracker.Server

/-!
# Two servers

A concrete network of two servers, at the addresses `a` and `b`, in which saves and calls
succeed and points are hashed as the program hashes them.
-/

namespace CardinalityTracker
namespace TwoServers

def net : Network (Fin 2) Unit where
  sum32 := Murmur3.sum32
  out := fun _ _ => .ok
  proposeAdd := fun n _ _ => (n, none)
  dial := fun _ => none
  reach := fun addr =>
    if addr = str "a" then some 0 else if addr = str "b" then some 1 else none

/-- The network of one server by itself. -/
def alone : Network Unit Unit where
  sum32 := Murmur3.sum32
  out := fun _ _ => .ok
  proposeAdd := fun n _ _ => (n, none)
  dial := fun _ => none
  reach := fun _ => none

/-- The lists of the two servers while `a` is leaving: only `a` itself still knows it. -/
def rollingPeers (i : Fin 2) : List GoString := if i = 0 then [str "a", str "b"] else [str "b"]

theorem mem_rollingPeers {i : Fin 2} {addr : GoString} (h : addr ∈ rollingPeers i) :
    addr = str "a" ∨ addr = str "b" := by
  unfold rollingPeers at h
  split at h <;> simp_all

/-- The servers with these lists. -/
def rolling : Cluster (Fin 2) (Hll.algorithm Murmur3.sum64) Unit where
  servers := fun i => Server.new (Engine.new _) Store.empty none
    (some (ringOf Murmur3.sum32 (rollingPeers i))) (if i = 0 then str "a" else str "b")
  received := []
  past := []

/-- No label of one address hashes to a point of the other. -/
theorem disjoint_points :
    (Ring.points Murmur3.sum32 (str "a")).Disjoint (Ring.points Murmur3.sum32 (str "b")) := by
  have h : ((Ring.points Murmur3.sum32 (str "a")).map UInt32.toNat).all (fun n =>
      ((Ring.points Murmur3.sum32 (str "b")).map UInt32.toNat).all fun m => !Nat.beq n m)
      = true := by
    decide +kernel
  intro p hpa hpb
  have hp := List.all_eq_true.mp (List.all_eq_true.mp h p.toNat (List.mem_map_of_mem hpa))
    p.toNat (List.mem_map_of_mem hpb)
  rw [Nat.beq_refl] at hp
  cases hp

end TwoServers
end CardinalityTracker
