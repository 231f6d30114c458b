import CardinalityTracker.Lib.JoinFold
import CardinalityTracker.Reference.Murmur3
import CardinalityTracker.Lib.Runs
import CardinalityTracker.Router

/-!
# What the ring's methods do

One spec lemma for each method, on the slice (as a multiset of points) and on the map:

* `AddNode` adds the points of the address to the slice and takes them over in the map;
* `RemoveNode` drops *one* occurrence of each point the map gives to the address;
* `Resolve` reads the owner of the nearest point clockwise.

The second one is why a membership can go wrong: a point that is in the slice twice stays
there after its owner has been removed, and reads as the empty string from then on.
`resolve_sound` shows that nothing else goes wrong: as long as a removed address has each
of its points once in the slice, the ring resolves every group to a member.
-/

namespace CardinalityTracker
namespace Ring

open Lib

/-- The points of an address, in the order of its labels. -/
def points (sum32 : Bytes → UInt32) (addr : GoString) : List UInt32 :=
  (List.range vnodesPerNode).map fun i => sum32 (label addr i)

theorem exists_mem_points (sum32 : Bytes → UInt32) (addr : GoString) :
    ∃ p, p ∈ points sum32 addr :=
  ⟨sum32 (label addr 0), List.mem_map.mpr ⟨0, by decide, rfl⟩⟩

theorem ownerOf_eq {nodeMap : PointMap GoString} {p : UInt32} {a : GoString}
    (h : nodeMap[p]? = some a) : ownerOf nodeMap p = a := by
  unfold ownerOf
  rw [h, Option.getD_some]

/-! ## `AddNode` -/

section AddNode

variable (sum32 : Bytes → UInt32) (r : Ring) (addr : GoString)

/-- The loop appends the points and maps each of them to the address. -/
theorem foldl_addPoint (is : List ℕ) :
    is.foldl (addPoint sum32 addr) r
      = ⟨r.ring ++ is.map fun i => sum32 (label addr i),
          (is.map fun i => sum32 (label addr i)).foldl (fun m h => m.insert h addr)
            r.nodeMap⟩ := by
  induction is generalizing r with
  | nil => simp
  | cons i is ih => simp [ih, addPoint]

/-- A loop of inserts of one value. -/
theorem getElem?_foldl_insert (hs : List UInt32) (m : PointMap GoString) (p : UInt32) :
    (hs.foldl (fun m h => m.insert h addr) m)[p]?
      = if p ∈ hs then some addr else m[p]? := by
  induction hs generalizing m with
  | nil => simp
  | cons h hs ih =>
    rw [List.foldl_cons, ih, getElem?_insert_ite]
    -- inserted later, inserted here, or not at all
    by_cases hp : p ∈ hs
    · simp [hp]
    · by_cases hh : h = p
      · simp [hh]
      · simp [hp, hh, Ne.symm hh]

theorem ring_addNode_perm : (r.addNode sum32 addr).ring.Perm (r.ring ++ points sum32 addr) := by
  unfold addNode
  rw [foldl_addPoint]
  exact List.perm_insertionSort _ _

theorem mem_ring_addNode {p : UInt32} :
    p ∈ (r.addNode sum32 addr).ring ↔ p ∈ r.ring ∨ p ∈ points sum32 addr := by
  rw [(ring_addNode_perm sum32 r addr).mem_iff, List.mem_append]

theorem count_ring_addNode (p : UInt32) :
    (r.addNode sum32 addr).ring.count p
      = r.ring.count p + (points sum32 addr).count p := by
  rw [(ring_addNode_perm sum32 r addr).count_eq, List.count_append]

theorem nodeMap_addNode (p : UInt32) :
    (r.addNode sum32 addr).nodeMap[p]?
      = if p ∈ points sum32 addr then some addr else r.nodeMap[p]? := by
  unfold addNode
  rw [foldl_addPoint]
  exact getElem?_foldl_insert addr (points sum32 addr) r.nodeMap p

/-- `AddNode` leaves the slice sorted, whatever it was before. -/
theorem sorted_addNode : (r.addNode sum32 addr).ring.Pairwise (· ≤ ·) := by
  unfold addNode
  rw [foldl_addPoint]
  exact List.pairwise_insertionSort _ _

end AddNode

/-! ## `RemoveNode` -/

theorem getElem?_erase_of_ne (m : PointMap GoString) {h p : UInt32} (hp : h ≠ p) :
    (m.erase h)[p]? = m[p]? := by
  rw [Std.ExtTreeMap.getElem?_erase, if_neg (by simpa using hp)]

theorem ownerOf_erase_of_ne (m : PointMap GoString) {h p : UInt32} (hp : h ≠ p) :
    ownerOf (m.erase h) p = ownerOf m p := by
  unfold ownerOf
  rw [getElem?_erase_of_ne m hp]

/-- A deleted point reads as the empty string. -/
theorem ownerOf_erase_self (m : PointMap GoString) (h : UInt32) : ownerOf (m.erase h) h = [] := by
  unfold ownerOf
  rw [Std.ExtTreeMap.getElem?_erase_self, Option.getD_none]

theorem removeLoop_of_owned {addr : GoString} {h : UInt32} {m : PointMap GoString}
    (hown : ownerOf m h = addr) (hs keep : List UInt32) :
    removeLoop addr (h :: hs) keep m = removeLoop addr hs keep (m.erase h) :=
  if_neg (not_not.mpr hown)

theorem removeLoop_of_not_owned {addr : GoString} {h : UInt32} {m : PointMap GoString}
    (hown : ownerOf m h ≠ addr) (hs keep : List UInt32) :
    removeLoop addr (h :: hs) keep m = removeLoop addr hs (keep ++ [h]) m :=
  if_pos hown

/-- The map loses the points it gave to the address. -/
theorem removeLoop_nodeMap (addr : GoString) (hs keep : List UInt32) (m : PointMap GoString)
    (p : UInt32) :
    (removeLoop addr hs keep m).2[p]?
      = if p ∈ hs ∧ ownerOf m p = addr then none else m[p]? := by
  induction hs generalizing keep m with
  | nil => simp [removeLoop]
  | cons h hs ih =>
    by_cases hown : ownerOf m h = addr
    · rw [removeLoop_of_owned hown, ih]
      by_cases hp : h = p
      · subst hp
        simp [hown]
      · simp [getElem?_erase_of_ne m hp, ownerOf_erase_of_ne m hp, Ne.symm hp]
    · rw [removeLoop_of_not_owned hown, ih]
      by_cases hp : h = p
      · subst hp
        simp [hown]
      · simp [Ne.symm hp]

/-- What is left of a point in the slice. The first occurrence of a point of `addr` is
dropped and the point then reads as the empty string: the others stay, unless that is the
address being removed. -/
theorem count_removeLoop (addr : GoString) (hs keep : List UInt32) (m : PointMap GoString)
    (p : UInt32) :
    (removeLoop addr hs keep m).1.count p
      = keep.count p +
        if ownerOf m p = addr then (if addr = [] then 0 else hs.count p - 1)
        else hs.count p := by
  induction hs generalizing keep m with
  | nil => simp [removeLoop]
  | cons h hs ih =>
    by_cases hown : ownerOf m h = addr
    · rw [removeLoop_of_owned hown, ih]
      by_cases hp : h = p
      · -- the first occurrence: from here on the point has no owner
        subst hp
        rw [ownerOf_erase_self, if_pos hown, List.count_cons_self]
        by_cases haddr : addr = []
        · simp [haddr]
        · simp [haddr, Ne.symm haddr]
      · rw [ownerOf_erase_of_ne m hp, List.count_cons_of_ne hp]
    · rw [removeLoop_of_not_owned hown, ih]
      by_cases hp : h = p
      · subst hp
        simp only [if_neg hown, List.count_append, List.count_cons_self, List.count_nil]
        omega
      · rw [List.count_append, List.count_cons_of_ne hp, List.count_cons_of_ne hp,
          List.count_nil, Nat.add_zero]

theorem nodeMap_removeNode (r : Ring) (addr : GoString) (p : UInt32) :
    (r.removeNode addr).nodeMap[p]?
      = if p ∈ r.ring ∧ ownerOf r.nodeMap p = addr then none else r.nodeMap[p]? :=
  removeLoop_nodeMap addr r.ring [] r.nodeMap p

theorem count_ring_removeNode (r : Ring) (addr : GoString) (p : UInt32) :
    (r.removeNode addr).ring.count p
      = if ownerOf r.nodeMap p = addr then (if addr = [] then 0 else r.ring.count p - 1)
        else r.ring.count p := by
  refine (count_removeLoop addr r.ring [] r.nodeMap p).trans ?_
  rw [List.count_nil, Nat.zero_add]

/-- The loop of `RemoveNode` keeps points of the slice, in their order. -/
theorem exists_sublist_removeLoop (addr : GoString) (hs keep : List UInt32)
    (m : PointMap GoString) :
    ∃ kept, kept.Sublist hs ∧ (removeLoop addr hs keep m).1 = keep ++ kept := by
  induction hs generalizing keep m with
  | nil => exact ⟨[], List.Sublist.refl _, by simp [removeLoop]⟩
  | cons h hs ih =>
    by_cases hown : ownerOf m h = addr
    · rw [removeLoop_of_owned hown]
      obtain ⟨kept, hsub, hkept⟩ := ih keep (m.erase h)
      exact ⟨kept, hsub.cons h, hkept⟩
    · rw [removeLoop_of_not_owned hown]
      obtain ⟨kept, hsub, hkept⟩ := ih (keep ++ [h]) m
      exact ⟨h :: kept, hsub.cons_cons h, by rw [hkept, List.append_assoc, List.singleton_append]⟩

theorem removeNode_sublist (r : Ring) (addr : GoString) :
    (r.removeNode addr).ring.Sublist r.ring := by
  obtain ⟨kept, hsub, hkept⟩ := exists_sublist_removeLoop addr r.ring [] r.nodeMap
  have hring : (r.removeNode addr).ring = kept := hkept
  exact hring ▸ hsub

/-- The removal of `addr` is clean when each of its points is in the slice once. -/
def RemovesCleanly (r : Ring) (addr : GoString) : Prop :=
  ∀ p ∈ r.ring, ownerOf r.nodeMap p = addr → r.ring.count p = 1

/-- A clean removal drops exactly the points of the address. -/
theorem mem_removeNode_of_clean {r : Ring} {addr : GoString} (hclean : r.RemovesCleanly addr)
    {p : UInt32} :
    p ∈ (r.removeNode addr).ring ↔ p ∈ r.ring ∧ ownerOf r.nodeMap p ≠ addr := by
  rw [← List.count_pos_iff, count_ring_removeNode]
  by_cases hown : ownerOf r.nodeMap p = addr
  · -- the one occurrence that there is has been dropped
    have hgone : (if addr = [] then 0 else r.ring.count p - 1) = 0 := by
      by_cases hp : p ∈ r.ring
      · rw [hclean p hp hown, Nat.sub_self, ite_self]
      · rw [List.count_eq_zero.mpr hp, Nat.zero_sub, ite_self]
    rw [if_pos hown, hgone]
    simp [hown]
  · rw [if_neg hown, List.count_pos_iff]
    simp [hown]

/-! ## `Resolve` -/

/-- The point of the slice that `Resolve` reads, in a ring that has one. -/
def successor (r : Ring) (h : UInt32) : UInt32 := r.ring.getD (successorIdx r.ring h) 0

theorem resolve_nil (sum32 : Bytes → UInt32) {r : Ring} (hnil : r.ring = []) (group : GoString) :
    r.resolve sum32 group = [] := by
  unfold resolve
  rw [hnil, List.length_nil, if_pos rfl]

theorem resolve_of_ne_nil (sum32 : Bytes → UInt32) {r : Ring} (hne : r.ring ≠ [])
    (group : GoString) :
    r.resolve sum32 group = ownerOf r.nodeMap (r.successor (sum32 group)) := by
  unfold resolve
  rw [if_neg (mt List.length_eq_zero_iff.mp hne)]
  rfl

theorem successor_mem {r : Ring} (hne : r.ring ≠ []) (h : UInt32) : r.successor h ∈ r.ring := by
  unfold successor
  rw [List.getD_eq_getElem _ _ (successorIdx_lt hne h)]
  exact List.getElem_mem _

/-- It is the nearest one clockwise. -/
theorem clockwise_successor_le {r : Ring} (hsorted : r.ring.Pairwise (· ≤ ·)) (h : UInt32)
    {p : UInt32} (hp : p ∈ r.ring) : clockwise h (r.successor h) ≤ clockwise h p :=
  clockwise_successorIdx_le hsorted hp

/-- A point that is nearest clockwise is the successor. -/
theorem successor_eq {r : Ring} (hsorted : r.ring.Pairwise (· ≤ ·)) {h p : UInt32} (hp : p ∈ r.ring)
    (hnearest : ∀ q ∈ r.ring, clockwise h p ≤ clockwise h q) : r.successor h = p := by
  have hmem : r.successor h ∈ r.ring := successor_mem (List.ne_nil_of_mem hp) h
  apply clockwise_injective h
  exact Nat.le_antisymm (clockwise_successor_le hsorted h hp) (hnearest _ hmem)

/-! ## The ring of a list of addresses -/

section RingOf

variable {sum32 : Bytes → UInt32} {peerAddrs : List GoString}

theorem ringOf_concat (addr : GoString) :
    ringOf sum32 (peerAddrs ++ [addr]) = (ringOf sum32 peerAddrs).addNode sum32 addr := by
  unfold ringOf
  rw [List.foldl_append, List.foldl_cons, List.foldl_nil]

theorem sorted_ringOf : (ringOf sum32 peerAddrs).ring.Pairwise (· ≤ ·) := by
  rcases List.eq_nil_or_concat peerAddrs with rfl | ⟨l, addr, rfl⟩
  · exact List.Pairwise.nil
  · rw [List.concat_eq_append, ringOf_concat]
    exact sorted_addNode sum32 _ addr

theorem mem_ring_ringOf {p : UInt32} :
    p ∈ (ringOf sum32 peerAddrs).ring ↔ ∃ a ∈ peerAddrs, p ∈ points sum32 a := by
  induction peerAddrs using List.reverseRecOn with
  | nil => simp [ringOf, new]
  | append_singleton l addr ih =>
    rw [ringOf_concat, mem_ring_addNode, ih]
    constructor
    · rintro (⟨a, ha, hp⟩ | hp)
      · exact ⟨a, List.mem_append_left _ ha, hp⟩
      · exact ⟨addr, by simp, hp⟩
    · intro ⟨a, ha, hp⟩
      rcases List.mem_append.mp ha with ha | ha
      · exact Or.inl ⟨a, ha, hp⟩
      · rw [List.mem_singleton] at ha
        exact Or.inr (ha ▸ hp)

/-- The owner of a point is an address of the list that has it. -/
theorem nodeMap_ringOf {p : UInt32} {a : GoString}
    (h : (ringOf sum32 peerAddrs).nodeMap[p]? = some a) :
    a ∈ peerAddrs ∧ p ∈ points sum32 a := by
  induction peerAddrs using List.reverseRecOn with
  | nil => simp [ringOf, new] at h
  | append_singleton l addr ih =>
    rw [ringOf_concat, nodeMap_addNode] at h
    by_cases hp : p ∈ points sum32 addr
    · rw [if_pos hp, Option.some.injEq] at h
      subst h
      exact ⟨by simp, hp⟩
    · rw [if_neg hp] at h
      obtain ⟨hmem, hpa⟩ := ih h
      exact ⟨List.mem_append_left _ hmem, hpa⟩

/-- Every point has an owner. -/
theorem exists_owner_ringOf {p : UInt32} (h : p ∈ (ringOf sum32 peerAddrs).ring) :
    ∃ a, (ringOf sum32 peerAddrs).nodeMap[p]? = some a := by
  induction peerAddrs using List.reverseRecOn with
  | nil => exact absurd h List.not_mem_nil
  | append_singleton l addr ih =>
    rw [ringOf_concat] at h ⊢
    rw [nodeMap_addNode]
    by_cases hp : p ∈ points sum32 addr
    · exact ⟨addr, if_pos hp⟩
    · rw [if_neg hp]
      exact ih (((mem_ring_addNode sum32 _ addr).mp h).resolve_right hp)

theorem ring_ringOf_ne_nil (h : peerAddrs ≠ []) : (ringOf sum32 peerAddrs).ring ≠ [] := by
  obtain ⟨a, ha⟩ := List.exists_mem_of_ne_nil _ h
  obtain ⟨p, hp⟩ := exists_mem_points sum32 a
  exact List.ne_nil_of_mem (mem_ring_ringOf.mpr ⟨a, ha, hp⟩)

variable (sum32) in
/-- **Who a list resolves a group to**: an address of the list, one of whose points is at
least as near to the group as every point of the list. -/
theorem resolve_ringOf (h : peerAddrs ≠ []) (group : GoString) :
    (ringOf sum32 peerAddrs).resolve sum32 group ∈ peerAddrs ∧
      ∃ p ∈ points sum32 ((ringOf sum32 peerAddrs).resolve sum32 group),
        ∀ a ∈ peerAddrs, ∀ q ∈ points sum32 a,
          clockwise (sum32 group) p ≤ clockwise (sum32 group) q := by
  have hne : (ringOf sum32 peerAddrs).ring ≠ [] := ring_ringOf_ne_nil h
  obtain ⟨owner, howner⟩ := exists_owner_ringOf (successor_mem hne (sum32 group))
  obtain ⟨hmem, hp⟩ := nodeMap_ringOf howner
  rw [resolve_of_ne_nil sum32 hne, ownerOf_eq howner]
  refine ⟨hmem, _, hp, fun a ha q hq => ?_⟩
  exact clockwise_successor_le sorted_ringOf _ (mem_ring_ringOf.mpr ⟨a, ha, hq⟩)

end RingOf

/-! ## Membership -/

/-- A call that changes the membership. -/
inductive Call
  | addNode (addr : GoString)
  | removeNode (addr : GoString)
deriving DecidableEq, Repr

def Call.addr : Call → GoString
  | .addNode addr => addr
  | .removeNode addr => addr

/-- The effect of a call. It never fails. -/
def apply (sum32 : Bytes → UInt32) (r : Ring) : Call → Option Ring
  | .addNode addr => some (r.addNode sum32 addr)
  | .removeNode addr => some (r.removeNode addr)

/-- The last of the calls that names the address. -/
def lastCall (calls : List Call) (addr : GoString) : Option Call :=
  calls.reverse.find? fun call => call.addr = addr

/-- The members are the addresses whose last call was `AddNode`. -/
def IsMember (calls : List Call) (addr : GoString) : Prop :=
  lastCall calls addr = some (.addNode addr)

instance (calls : List Call) (addr : GoString) : Decidable (IsMember calls addr) :=
  inferInstanceAs (Decidable (lastCall calls addr = some (.addNode addr)))

theorem lastCall_concat (calls : List Call) (call : Call) (addr : GoString) :
    lastCall (calls ++ [call]) addr
      = if call.addr = addr then some call else lastCall calls addr := by
  unfold lastCall
  rw [List.reverse_append, List.reverse_singleton, List.singleton_append, List.find?_cons]
  by_cases h : call.addr = addr <;> simp [h]

theorem isMember_addNode (calls : List Call) (x addr : GoString) :
    IsMember (calls ++ [.addNode x]) addr ↔ x = addr ∨ IsMember calls addr := by
  unfold IsMember
  rw [lastCall_concat]
  by_cases h : x = addr
  · simp [Call.addr, h]
  · simp [Call.addr, h]

theorem isMember_removeNode (calls : List Call) (x addr : GoString) :
    IsMember (calls ++ [.removeNode x]) addr ↔ x ≠ addr ∧ IsMember calls addr := by
  unfold IsMember
  rw [lastCall_concat]
  by_cases h : x = addr
  · simp [Call.addr, h]
  · simp [Call.addr, h]

/-- A call that keeps the membership sound: an address that is added has a name, and one
that is removed has each of its points once in the slice. -/
def CleanCall (r : Ring) : Call → Prop
  | .addNode addr => addr ≠ []
  | .removeNode addr => r.RemovesCleanly addr

/-- What the ring is to its members. Two members may share a point: the map then gives it
to one of them, and the slice has it at least twice. -/
structure Sound (sum32 : Bytes → UInt32) (calls : List Call) (r : Ring) : Prop where
  owned : ∀ p ∈ r.ring, ∃ a, r.nodeMap[p]? = some a ∧ a ≠ [] ∧ IsMember calls a
  placed : ∀ a, IsMember calls a → ∀ p ∈ points sum32 a, p ∈ r.ring
  shared : ∀ a, IsMember calls a → ∀ p ∈ points sum32 a,
    r.nodeMap[p]? ≠ some a → 2 ≤ r.ring.count p

theorem sound_new (sum32 : Bytes → UInt32) : Sound sum32 [] new := by
  refine ⟨fun p hp => ?_, fun a ha => ?_, fun a ha => ?_⟩
  · exact absurd hp List.not_mem_nil
  · exact absurd ha (by simp [IsMember, lastCall])
  · exact absurd ha (by simp [IsMember, lastCall])

variable {sum32 : Bytes → UInt32} {calls : List Call} {r : Ring} {x : GoString}

theorem Sound.addNode (h : Sound sum32 calls r) (hx : x ≠ []) :
    Sound sum32 (calls ++ [.addNode x]) (r.addNode sum32 x) := by
  refine ⟨fun p hp => ?_, fun a ha p hp => ?_, fun a ha p hp hne => ?_⟩
  · rw [nodeMap_addNode]
    by_cases hpx : p ∈ points sum32 x
    · exact ⟨x, if_pos hpx, hx, (isMember_addNode calls x x).mpr (Or.inl rfl)⟩
    · rcases (mem_ring_addNode sum32 r x).mp hp with hold | hnew
      · obtain ⟨a, hmap, hname, hmem⟩ := h.owned p hold
        exact ⟨a, by rw [if_neg hpx, hmap], hname,
          (isMember_addNode calls x a).mpr (Or.inr hmem)⟩
      · exact absurd hnew hpx
  · rw [mem_ring_addNode]
    rcases (isMember_addNode calls x a).mp ha with rfl | hmem
    · exact Or.inr hp
    · exact Or.inl (h.placed a hmem p hp)
  · rw [nodeMap_addNode] at hne
    rw [count_ring_addNode]
    by_cases hpx : p ∈ points sum32 x
    · -- the point has been taken over from another member, which keeps its occurrence
      rw [if_pos hpx] at hne
      rcases (isMember_addNode calls x a).mp ha with rfl | hmem
      · exact absurd rfl hne
      · have hold := List.count_pos_iff.mpr (h.placed a hmem p hp)
        have hnew := List.count_pos_iff.mpr hpx
        omega
    · rw [if_neg hpx] at hne
      rcases (isMember_addNode calls x a).mp ha with rfl | hmem
      · exact absurd hp hpx
      · have := h.shared a hmem p hp hne
        omega

/-- A point of a member that stays is not lost with the address that goes: a point that is
shared is there twice, which a clean removal excludes. -/
theorem Sound.owner_ne (h : Sound sum32 calls r) (hclean : r.RemovesCleanly x) {a : GoString}
    (ha : IsMember calls a) (hax : x ≠ a) {p : UInt32} (hp : p ∈ points sum32 a) :
    ownerOf r.nodeMap p ≠ x := by
  intro hown
  have hring := h.placed a ha p hp
  have honce := hclean p hring hown
  obtain ⟨b, hb, -, -⟩ := h.owned p hring
  have hbx : b = x := (ownerOf_eq hb).symm.trans hown
  have htwice := h.shared a ha p hp (by rw [hb, hbx]; simpa using hax)
  omega

theorem Sound.removeNode (h : Sound sum32 calls r) (hclean : r.RemovesCleanly x) :
    Sound sum32 (calls ++ [.removeNode x]) (r.removeNode x) := by
  refine ⟨fun p hp => ?_, fun a ha p hp => ?_, fun a ha p hp hne => ?_⟩
  · -- a point that is left belongs to another address, which is still a member
    obtain ⟨hring, hown⟩ := (mem_removeNode_of_clean hclean).mp hp
    obtain ⟨a, hmap, hname, hmem⟩ := h.owned p hring
    have hax : x ≠ a := fun hx => hown ((ownerOf_eq hmap).trans hx.symm)
    refine ⟨a, ?_, hname, (isMember_removeNode calls x a).mpr ⟨hax, hmem⟩⟩
    rw [nodeMap_removeNode, if_neg (fun hc => hown hc.2), hmap]
  · obtain ⟨hax, hmem⟩ := (isMember_removeNode calls x a).mp ha
    exact (mem_removeNode_of_clean hclean).mpr
      ⟨h.placed a hmem p hp, h.owner_ne hclean hmem hax hp⟩
  · obtain ⟨hax, hmem⟩ := (isMember_removeNode calls x a).mp ha
    have hown := h.owner_ne hclean hmem hax hp
    rw [nodeMap_removeNode, if_neg (fun hc => hown hc.2)] at hne
    rw [count_ring_removeNode, if_neg hown]
    exact h.shared a hmem p hp hne

/-- A clean call is possible and keeps the ring sound. -/
theorem Sound.apply {call : Call} (h : Sound sum32 calls r) (hclean : r.CleanCall call) :
    ∃ r', r.apply sum32 call = some r' ∧ Sound sum32 (calls ++ [call]) r' := by
  cases call with
  | addNode x => exact ⟨_, rfl, h.addNode hclean⟩
  | removeNode x => exact ⟨_, rfl, h.removeNode hclean⟩

/-- A sound ring has a point as soon as it has a member. -/
theorem Sound.ring_ne_nil (h : Sound sum32 calls r) {a : GoString} (ha : IsMember calls a) :
    r.ring ≠ [] := by
  obtain ⟨p, hp⟩ := exists_mem_points sum32 a
  exact List.ne_nil_of_mem (h.placed a ha p hp)

theorem Sound.resolve_member (h : Sound sum32 calls r) (hne : r.ring ≠ []) (group : GoString) :
    r.resolve sum32 group ≠ [] ∧ IsMember calls (r.resolve sum32 group) := by
  obtain ⟨a, hmap, hname, hmem⟩ := h.owned _ (successor_mem hne (sum32 group))
  rw [resolve_of_ne_nil sum32 hne, ownerOf_eq hmap]
  exact ⟨hname, hmem⟩

/-- **Every group resolves to a member.** In every run of membership calls in which an added
address has a name and a removed one has each of its points once in the slice: every point
has an owner that is a member, `Resolve` returns the empty string exactly when there are no
members, and otherwise it returns a member. -/
theorem resolve_sound (sum32 : Bytes → UInt32) (calls : List Call)
    (hclean : Meets (apply sum32) (fun _ r call => r.CleanCall call) new calls) :
    ∃ r, run (apply sum32) new calls = some r ∧
      (∀ p ∈ r.ring, ∃ a, r.nodeMap[p]? = some a ∧ IsMember calls a) ∧
      ∀ group, (r.resolve sum32 group = [] ↔ ∀ a, ¬ IsMember calls a) ∧
        (r.resolve sum32 group ≠ [] → IsMember calls (r.resolve sum32 group)) := by
  obtain ⟨r, hrun, h⟩ := progress_of_meets (sound_new sum32)
    (fun _ _ _ h hc => Sound.apply h hc) hclean
  refine ⟨r, hrun, fun p hp => ?_, fun group => ?_⟩
  · obtain ⟨a, hmap, -, hmem⟩ := h.owned p hp
    exact ⟨a, hmap, hmem⟩
  · by_cases hne : r.ring = []
    · rw [resolve_nil sum32 hne]
      exact ⟨iff_of_true rfl fun a ha => h.ring_ne_nil ha hne, fun hc => absurd rfl hc⟩
    · obtain ⟨hname, hmem⟩ := h.resolve_member hne group
      exact ⟨iff_of_false hname fun hc => hc _ hmem, fun _ => hmem⟩

/-- An address whose labels get distinct points is removed cleanly after a single add. -/
theorem removesCleanly_of_nodup (hnodup : (points sum32 x).Nodup) :
    (new.addNode sum32 x).RemovesCleanly x := by
  intro p hp _
  rw [count_ring_addNode, show new.ring.count p = 0 from rfl, Nat.zero_add]
  refine List.count_eq_one_of_mem hnodup ?_
  rcases (mem_ring_addNode sum32 new x).mp hp with h | h
  · exact absurd h List.not_mem_nil
  · exact h

/-- An address is replaced by another one. -/
theorem resolve_sound_replaced :
    ∃ r, run (apply Murmur3.sum32) new
        [.addNode (str "a"), .removeNode (str "a"), .addNode (str "b")] = some r ∧
      (∀ p ∈ r.ring, ∃ a, r.nodeMap[p]? = some a ∧ IsMember
        [.addNode (str "a"), .removeNode (str "a"), .addNode (str "b")] a) ∧
      r.resolve Murmur3.sum32 (str "metrics") ≠ [] := by
  have hnodup : (points Murmur3.sum32 (str "a")).Nodup :=
    List.Nodup.of_map UInt32.toNat (by decide +kernel)
  have hclean : Meets (apply Murmur3.sum32) (fun _ r call => r.CleanCall call) new
      [.addNode (str "a"), .removeNode (str "a"), .addNode (str "b")] := by
    refine ((meets_nil.concat (l := Call.addNode (str "a")) ?_).concat
      (l := Call.removeNode (str "a")) ?_).concat (l := Call.addNode (str "b")) ?_
    · intro _ _
      exact List.cons_ne_nil _ _
    · intro r hr
      obtain rfl : new.addNode Murmur3.sum32 (str "a") = r := Option.some.inj hr
      exact removesCleanly_of_nodup hnodup
    · intro _ _
      exact List.cons_ne_nil _ _
  obtain ⟨r, hrun, howned, hresolve⟩ := resolve_sound Murmur3.sum32 _ hclean
  refine ⟨r, hrun, howned, ?_⟩
  rw [Ne, (hresolve _).1]
  exact fun h => h (str "b") (by decide)

/-! ## Lookup -/

/-- Every sequence of calls is possible and leaves the slice sorted. -/
theorem exists_sorted_run (sum32 : Bytes → UInt32) (calls : List Call) :
    ∃ r, run (apply sum32) new calls = some r ∧ r.ring.Pairwise (· ≤ ·) := by
  have hinit : (new : Ring).ring.Pairwise (· ≤ ·) := List.Pairwise.nil
  have hnext : ∀ (hist : List Call) (t : Ring) (call : Call), t.ring.Pairwise (· ≤ ·) →
      True → ∃ t', t.apply sum32 call = some t' ∧ t'.ring.Pairwise (· ≤ ·) := by
    intro hist t call hsorted _
    cases call with
    | addNode x => exact ⟨_, rfl, sorted_addNode sum32 t x⟩
    | removeNode x => exact ⟨_, rfl, hsorted.sublist (removeNode_sublist t x)⟩
  exact progress_of_meets hinit hnext (meets_true calls)

/-- **Binary search finds the nearest point clockwise.** Every sequence of calls leaves the
slice sorted. In a ring with points, one of them has the least distance `(p - h) mod 2^32` from
the hash `h` of a group, and `Resolve` returns what the map has for it. It is the least point
at or above `h`, and the least of all when there is none. -/
theorem resolve_nearest (sum32 : Bytes → UInt32) (calls : List Call) :
    ∃ r, run (apply sum32) new calls = some r ∧ r.ring.Pairwise (· ≤ ·) ∧
      ∀ group, r.ring ≠ [] →
        (∃ p ∈ r.ring, ∀ q ∈ r.ring, clockwise (sum32 group) p ≤ clockwise (sum32 group) q) ∧
        ∀ p ∈ r.ring, (∀ q ∈ r.ring, clockwise (sum32 group) p ≤ clockwise (sum32 group) q) →
          r.resolve sum32 group = ownerOf r.nodeMap p ∧
          ((∃ q ∈ r.ring, sum32 group ≤ q) →
            sum32 group ≤ p ∧ ∀ q ∈ r.ring, sum32 group ≤ q → p ≤ q) ∧
          ((¬ ∃ q ∈ r.ring, sum32 group ≤ q) → ∀ q ∈ r.ring, p ≤ q) := by
  obtain ⟨r, hrun, hsorted⟩ := exists_sorted_run sum32 calls
  refine ⟨r, hrun, hsorted, fun group hne => ⟨?_, fun p hp hnearest => ?_⟩⟩
  · exact ⟨r.successor (sum32 group), successor_mem hne _,
      fun q hq => clockwise_successor_le hsorted _ hq⟩
  · rw [resolve_of_ne_nil sum32 hne, successor_eq hsorted hp hnearest]
    exact ⟨rfl, fun hat => least_at_or_above hnearest hat, fun hnone =>
      least_of_all hp hnearest fun q hq => UInt32.not_le.mp fun hle => hnone ⟨q, hq, hle⟩⟩

/-! ## An address that is added twice -/

/-- After an address has been added twice and removed, its points are all still in the
slice, and none of them has an owner. Once another address has joined, a group that is
nearer to one of them than to the points of the other resolves to the empty string. -/
theorem resolve_of_added_twice (sum32 : Bytes → UInt32) {a b group : GoString} (ha : a ≠ [])
    (hnear : ∃ p ∈ points sum32 a, ∀ q ∈ points sum32 b,
      clockwise (sum32 group) p < clockwise (sum32 group) q) :
    ((((new.addNode sum32 a).addNode sum32 a).removeNode a).addNode sum32 b).resolve sum32 group
      = [] := by
  obtain ⟨p, hp, hnear⟩ := hnear
  set twice := (new.addNode sum32 a).addNode sum32 a with htwice
  have hmem : ∀ q, q ∈ twice.ring ↔ q ∈ points sum32 a := by
    intro q
    rw [htwice, mem_ring_addNode, mem_ring_addNode, show new.ring = [] from rfl]
    simp
  have howner : ∀ q ∈ points sum32 a, ownerOf twice.nodeMap q = a := by
    intro q hq
    refine ownerOf_eq ?_
    rw [htwice, nodeMap_addNode, if_pos hq]
  -- one of at least two occurrences is dropped
  have hstays : p ∈ (twice.removeNode a).ring := by
    rw [← List.count_pos_iff, count_ring_removeNode, if_pos (howner p hp), if_neg ha, htwice,
      count_ring_addNode, count_ring_addNode]
    have := List.count_pos_iff.mpr hp
    omega
  have hring : p ∈ ((twice.removeNode a).addNode sum32 b).ring :=
    (mem_ring_addNode sum32 _ b).mpr (Or.inl hstays)
  have hne := List.ne_nil_of_mem hring
  rw [resolve_of_ne_nil sum32 hne]
  have hle := clockwise_successor_le (sorted_addNode sum32 (twice.removeNode a) b)
    (sum32 group) hring
  have hmems := successor_mem hne (sum32 group)
  -- `s` is the point that `Resolve` reads: it is none of `b`, so it is an orphan of `a`
  generalize ((twice.removeNode a).addNode sum32 b).successor (sum32 group) = s at *
  have hsb : s ∉ points sum32 b := fun hsb => absurd (hnear s hsb) (by omega)
  have hsa : s ∈ points sum32 a := by
    rcases (mem_ring_addNode sum32 _ b).mp hmems with hold | hnew
    · rw [← hmem, ← List.count_pos_iff]
      have hcount := count_ring_removeNode twice a s
      have hpos := List.count_pos_iff.mpr hold
      rw [if_neg ha] at hcount
      split at hcount <;> omega
    · exact absurd hnew hsb
  unfold ownerOf
  rw [nodeMap_addNode, if_neg hsb, nodeMap_removeNode,
    if_pos ⟨(hmem s).mpr hsa, howner s hsa⟩, Option.getD_none]

/-- **An address that was added twice is not removed**: with the real hash, the group
`metrics` then resolves to the empty string although `b` is a member. -/
theorem resolve_orphaned_point :
    IsMember [.addNode (str "a"), .addNode (str "a"), .removeNode (str "a"), .addNode (str "b")]
        (str "b") ∧
      ∃ r, run (apply Murmur3.sum32) new [.addNode (str "a"), .addNode (str "a"),
          .removeNode (str "a"), .addNode (str "b")] = some r ∧
        r.resolve Murmur3.sum32 (str "metrics") = [] := by
  -- the nearest point of `a` is that of its label `a#37`
  have hnear : (points Murmur3.sum32 (str "b")).all (fun q => decide
      (clockwise (Murmur3.sum32 (str "metrics")) (Murmur3.sum32 (label (str "a") 37))
        < clockwise (Murmur3.sum32 (str "metrics")) q)) = true := by
    decide +kernel
  refine ⟨by decide, ((((new.addNode Murmur3.sum32 (str "a")).addNode Murmur3.sum32
    (str "a")).removeNode (str "a")).addNode Murmur3.sum32 (str "b")), ?_, ?_⟩
  · simp only [run, List.foldlM_cons, List.foldlM_nil, apply]
    rfl
  · refine resolve_of_added_twice Murmur3.sum32 (List.cons_ne_nil _ _)
      ⟨_, List.mem_map.mpr ⟨37, by decide, rfl⟩, fun q hq => ?_⟩
    exact of_decide_eq_true (List.all_eq_true.mp hnear q hq)

end Ring
end CardinalityTracker
