import CardinalityTracker.Reference.Peers
import CardinalityTracker.RouterTheorems

/-!
# Rings with different memberships

What two rings have to do with each other: a ring before and after one membership call, and
two rings that were built from lists with the same addresses.

Both comparisons rest on one fact. In a sorted slice the point that `Resolve` reads is the
*only* point at the least clockwise distance (`Ring.successor_eq`), so that it can be recognised
in another slice without following the binary search there.
-/

namespace CardinalityTracker

open Lib

/-- Labels of two different addresses of `known` never get the same point. -/
def DisjointPoints (sum32 : Bytes → UInt32) (known : GoString → Prop) : Prop :=
  ∀ a b, known a → known b → a ≠ b → (Ring.points sum32 a).Disjoint (Ring.points sum32 b)

namespace Ring

variable {sum32 : Bytes → UInt32} {r : Ring}

/-! ## One membership call -/

/-- A point that `AddNode` does not take over keeps its owner. -/
theorem ownerOf_addNode_of_not_mem (r : Ring) {x : GoString} {p : UInt32}
    (hp : p ∉ points sum32 x) :
    ownerOf (r.addNode sum32 x).nodeMap p = ownerOf r.nodeMap p := by
  unfold ownerOf
  rw [nodeMap_addNode, if_neg hp]

theorem ownerOf_addNode_of_mem (r : Ring) {x : GoString} {p : UInt32}
    (hp : p ∈ points sum32 x) : ownerOf (r.addNode sum32 x).nodeMap p = x :=
  ownerOf_eq (by rw [nodeMap_addNode, if_pos hp])

/-- A point of another address keeps its owner and its place when `x` is removed. -/
theorem ownerOf_removeNode_of_ne (r : Ring) {x : GoString} {p : UInt32}
    (hp : ownerOf r.nodeMap p ≠ x) :
    ownerOf (r.removeNode x).nodeMap p = ownerOf r.nodeMap p := by
  rw [ownerOf, nodeMap_removeNode, if_neg (fun hc => hp hc.2), ownerOf]

theorem mem_removeNode_of_ne {x : GoString} {p : UInt32} (hp : p ∈ r.ring)
    (hown : ownerOf r.nodeMap p ≠ x) : p ∈ (r.removeNode x).ring := by
  rw [← List.count_pos_iff, count_ring_removeNode, if_neg hown]
  exact List.count_pos_iff.mpr hp

/-- `AddNode` moves a group to the new address or not at all. -/
theorem resolve_addNode (hsorted : r.ring.Pairwise (· ≤ ·)) (x group : GoString) :
    (r.addNode sum32 x).resolve sum32 group = r.resolve sum32 group ∨
      (r.addNode sum32 x).resolve sum32 group = x := by
  obtain ⟨p₀, hp₀⟩ := exists_mem_points sum32 x
  have hne : (r.addNode sum32 x).ring ≠ [] :=
    List.ne_nil_of_mem ((mem_ring_addNode sum32 r x).mpr (Or.inr hp₀))
  rw [resolve_of_ne_nil sum32 hne]
  have hmem := successor_mem hne (sum32 group)
  have hnearest := fun q => clockwise_successor_le (sorted_addNode sum32 r x) (sum32 group) (p := q)
  generalize (r.addNode sum32 x).successor (sum32 group) = p at *
  by_cases hp : p ∈ points sum32 x
  · exact Or.inr (ownerOf_addNode_of_mem r hp)
  · -- an old point that is nearest among all points was nearest among the old ones
    left
    have hold : p ∈ r.ring := ((mem_ring_addNode sum32 r x).mp hmem).resolve_right hp
    have hsucc : r.successor (sum32 group) = p := by
      apply successor_eq hsorted hold
      intro q hq
      exact hnearest q ((mem_ring_addNode sum32 r x).mpr (Or.inl hq))
    rw [ownerOf_addNode_of_not_mem r hp, resolve_of_ne_nil sum32 (List.ne_nil_of_mem hold), hsucc]

/-- `RemoveNode` moves no group of another address. -/
theorem resolve_removeNode (hsorted : r.ring.Pairwise (· ≤ ·)) {x group : GoString}
    (hx : r.resolve sum32 group ≠ x) :
    (r.removeNode x).resolve sum32 group = r.resolve sum32 group := by
  have hsub := removeNode_sublist r x
  by_cases hnil : r.ring = []
  · have hnil' : (r.removeNode x).ring = [] := List.sublist_nil.mp (hnil ▸ hsub)
    rw [resolve_nil sum32 hnil, resolve_nil sum32 hnil']
  · rw [resolve_of_ne_nil sum32 hnil] at hx ⊢
    have hkept := mem_removeNode_of_ne (successor_mem hnil _) hx
    have hsucc : (r.removeNode x).successor (sum32 group) = r.successor (sum32 group) := by
      apply successor_eq (hsorted.sublist hsub) hkept
      intro q hq
      exact clockwise_successor_le hsorted _ (hsub.subset hq)
    rw [resolve_of_ne_nil sum32 (List.ne_nil_of_mem hkept), hsucc, ownerOf_removeNode_of_ne r hx]

/-- **A membership change moves only the groups it has to move.** In the ring that any
sequence of calls has built, with points that collide and addresses that were added more
than once: after `AddNode x` a group is where it was or at `x`, and after `RemoveNode x` a
group that was not at `x` is where it was. -/
theorem resolve_minimal_disruption (sum32 : Bytes → UInt32) (calls : List Call)
    (x group : GoString) :
    ∃ r, run (apply sum32) new calls = some r ∧
      ((r.addNode sum32 x).resolve sum32 group = r.resolve sum32 group ∨
        (r.addNode sum32 x).resolve sum32 group = x) ∧
      (r.resolve sum32 group ≠ x →
        (r.removeNode x).resolve sum32 group = r.resolve sum32 group) := by
  obtain ⟨r, hrun, hsorted⟩ := exists_sorted_run sum32 calls
  exact ⟨r, hrun, resolve_addNode hsorted x group, resolve_removeNode hsorted⟩

/-! ## Two lists with the same addresses -/

/-- **Servers with the same peers agree on every owner**, whatever the order of their lists
and however often an address is in them, when no two of the addresses share a point. -/
theorem resolve_ringOf_congr {peerAddrs peerAddrs' : List GoString}
    (hsame : ∀ a, a ∈ peerAddrs ↔ a ∈ peerAddrs')
    (hpoints : DisjointPoints sum32 (· ∈ peerAddrs)) (group : GoString) :
    (ringOf sum32 peerAddrs).resolve sum32 group
      = (ringOf sum32 peerAddrs').resolve sum32 group := by
  by_cases hnil : peerAddrs = []
  · have hnil' : peerAddrs' = [] := by
      rw [List.eq_nil_iff_forall_not_mem]
      intro a ha
      exact absurd ((hsame a).mpr ha) (hnil ▸ List.not_mem_nil)
    rw [hnil, hnil']
  · have hne' : peerAddrs' ≠ [] := by
      obtain ⟨a, ha⟩ := List.exists_mem_of_ne_nil _ hnil
      exact List.ne_nil_of_mem ((hsame a).mp ha)
    obtain ⟨howner, p, hp, hnearest⟩ := resolve_ringOf sum32 hnil group
    obtain ⟨howner', p', hp', hnearest'⟩ := resolve_ringOf sum32 hne' group
    -- each owner's point is as near as the other's: it is one point, hence one owner
    have hpp' : p = p' := by
      apply clockwise_injective (sum32 group)
      exact Nat.le_antisymm (hnearest _ ((hsame _).mpr howner') p' hp')
        (hnearest' _ ((hsame _).mp howner) p hp)
    by_contra hdiff
    exact hpoints _ _ howner ((hsame _).mpr howner') hdiff hp (hpp' ▸ hp')

/-- The two lists name the same servers in a different order, one of them twice. -/
theorem resolve_ringOf_reordered :
    (ringOf Murmur3.sum32 [str "a", str "b"]).resolve Murmur3.sum32 (str "metrics")
      = (ringOf Murmur3.sum32 [str "b", str "a", str "b"]).resolve Murmur3.sum32
          (str "metrics") := by
  refine resolve_ringOf_congr (fun a => ?_) (fun a b ha hb hab => ?_) (str "metrics")
  · simp only [List.mem_cons, List.not_mem_nil, or_false]
    tauto
  · have hpoints := TwoServers.disjoint_points
    simp only [List.mem_cons, List.not_mem_nil, or_false] at ha hb
    rcases ha with rfl | rfl <;> rcases hb with rfl | rfl
    · exact absurd rfl hab
    · exact hpoints
    · exact hpoints.symm
    · exact absurd rfl hab

end Ring
end CardinalityTracker
