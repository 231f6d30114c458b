import CardinalityTracker.Rebalancing

/-!
# The ring forgets how it came about

Nodes come and go while a server runs, and its ring is edited in place. When an address is only
added while it is not a member and no two labels have one hash, nothing of this history is left:
the ring is the one that a server started with a list of the current members has, slice and map
alike, whatever the order of the list (`ring_forgets_history`). Each member then has all of its
150 points.

Labels are never equal by accident: the number after the last `#` tells the virtual node and what
is before it the address, so that collisions of points are the hash function's alone.
-/

namespace CardinalityTracker
namespace Ring

open Lib

/-! ## Labels -/

theorem isDigit_of_mem {i : ℕ} {c : Char} (h : c ∈ Nat.toDigits 10 i) : c.isDigit = true :=
  Nat.isDigit_of_mem_toDigits (by decide) (by decide) h

/-- A digit is the byte that stands for it, and not a `#`. -/
theorem toNat_digit {i : ℕ} {c : Char} (h : c ∈ Nat.toDigits 10 i) :
    (UInt8.ofNat c.toNat).toNat = c.toNat ∧ 48 ≤ c.toNat := by
  have hdigit := isDigit_of_mem h
  unfold Char.isDigit at hdigit
  rw [Bool.and_eq_true, decide_eq_true_eq, decide_eq_true_eq] at hdigit
  have hle : c.toNat ≤ 57 := hdigit.2
  exact ⟨Nat.mod_eq_of_lt (by omega), hdigit.1⟩

theorem decimal_injective : Function.Injective decimal := by
  intro i j h
  -- the digits can be read off their bytes, and the number off its digits
  have hread : ∀ k, (decimal k).map (fun b => Char.ofNat b.toNat) = Nat.toDigits 10 k := by
    intro k
    unfold decimal
    rw [List.map_map]
    refine (List.map_congr_left fun c hc => ?_).trans (List.map_id _)
    rw [Function.comp_apply, (toNat_digit hc).1, Char.ofNat_toNat, id]
  have hdigits : Nat.toDigits 10 i = Nat.toDigits 10 j := by rw [← hread, h, hread]
  rw [← Nat.ofDigitChars_toDigits (b := 10) (n := i) (by decide) (by decide), hdigits,
    Nat.ofDigitChars_toDigits (by decide) (by decide)]

theorem hash_notMem_decimal (i : ℕ) : (35 : UInt8) ∉ decimal i := by
  intro h
  obtain ⟨c, hc, hbyte⟩ := List.mem_map.mp h
  obtain ⟨hnat, hge⟩ := toNat_digit hc
  have hval : c.toNat = 35 := hnat.symm.trans (congrArg UInt8.toNat hbyte)
  omega

/-- What follows the last occurrence of a separator is unique, and what precedes it. -/
theorem append_sep_injective {sep : UInt8} {a b s t : Bytes} (hs : sep ∉ s) (ht : sep ∉ t)
    (h : a ++ sep :: s = b ++ sep :: t) : a = b ∧ s = t := by
  have hlonger : ∀ {u s t : Bytes}, sep ∉ s → sep :: s = u ++ sep :: t → u = [] ∧ s = t := by
    intro u s t hs h
    cases u with
    | nil => exact ⟨rfl, (List.cons.inj h).2⟩
    | cons c u =>
      refine absurd ?_ hs
      rw [(List.cons.inj h).2]
      exact List.mem_append_right _ List.mem_cons_self
  rcases List.append_eq_append_iff.mp h with ⟨u, rfl, hu⟩ | ⟨u, rfl, hu⟩
  · obtain ⟨rfl, hst⟩ := hlonger hs hu
    exact ⟨(List.append_nil a).symm, hst⟩
  · obtain ⟨rfl, hst⟩ := hlonger ht hu
    exact ⟨List.append_nil b, hst.symm⟩

theorem label_injective {a b : GoString} {i j : ℕ} (h : label a i = label b j) : a = b ∧ i = j := by
  have hsplit : ∀ (addr : GoString) k, label addr k = addr ++ 35 :: decimal k := by
    intro addr k
    unfold label
    rw [List.append_assoc]
    rfl
  rw [hsplit, hsplit] at h
  obtain ⟨haddr, hnumber⟩ :=
    append_sep_injective (hash_notMem_decimal i) (hash_notMem_decimal j) h
  exact ⟨haddr, decimal_injective hnumber⟩

/-- The labels of the virtual nodes of an address. -/
def labels (addr : GoString) : List Bytes := (List.range vnodesPerNode).map (label addr)

variable {sum32 : Bytes → UInt32} {known : GoString → Prop}

theorem points_eq (sum32 : Bytes → UInt32) (addr : GoString) :
    points sum32 addr = (labels addr).map sum32 := by
  unfold points labels
  rw [List.map_map]
  rfl

theorem length_points (sum32 : Bytes → UInt32) (addr : GoString) :
    (points sum32 addr).length = vnodesPerNode := by
  unfold points
  rw [List.length_map, List.length_range]

/-- No two labels of known addresses have the same hash. -/
def Collisionless (sum32 : Bytes → UInt32) (known : GoString → Prop) : Prop :=
  Set.InjOn sum32 {l | ∃ a, known a ∧ l ∈ labels a}

theorem collisionless_of_nodup {addrs : List GoString}
    (h : (addrs.flatMap (points sum32)).Nodup) : Collisionless sum32 (· ∈ addrs) := by
  have hmap : addrs.flatMap (points sum32) = (addrs.flatMap labels).map sum32 := by
    rw [List.map_flatMap]
    exact List.flatMap_congr fun a _ => points_eq sum32 a
  rw [hmap] at h
  rintro l ⟨a, ha, hl⟩ l' ⟨a', ha', hl'⟩ heq
  exact List.inj_on_of_nodup_map h (List.mem_flatMap.mpr ⟨a, ha, hl⟩)
    (List.mem_flatMap.mpr ⟨a', ha', hl'⟩) heq

theorem Collisionless.nodup (h : Collisionless sum32 known) {a : GoString} (ha : known a) :
    (points sum32 a).Nodup := by
  rw [points_eq]
  refine List.Nodup.map_on (fun l hl l' hl' => h ⟨a, ha, hl⟩ ⟨a, ha, hl'⟩) ?_
  exact List.nodup_range.map fun i j hij => (label_injective hij).2

theorem Collisionless.disjoint (h : Collisionless sum32 known) : DisjointPoints sum32 known := by
  intro a b ha hb hab p hpa hpb
  rw [points_eq] at hpa hpb
  obtain ⟨l, hl, rfl⟩ := List.mem_map.mp hpa
  obtain ⟨l', hl', heq⟩ := List.mem_map.mp hpb
  obtain rfl := h ⟨b, hb, hl'⟩ ⟨a, ha, hl⟩ heq
  -- a label of both addresses
  obtain ⟨i, -, rfl⟩ := List.mem_map.mp hl
  obtain ⟨j, -, hlabel⟩ := List.mem_map.mp hl'
  exact hab (label_injective hlabel).1.symm

/-! ## What the ring is to its members -/

/-- The slice has the points of the members and no others, each once, and the map gives each of
them to its member. -/
structure Exact (sum32 : Bytes → UInt32) (member : GoString → Prop) (r : Ring) : Prop where
  named : ∀ a, member a → a ≠ []
  sorted : r.ring.Pairwise (· ≤ ·)
  nodup : r.ring.Nodup
  mem : ∀ p, p ∈ r.ring ↔ ∃ a, member a ∧ p ∈ points sum32 a
  owner : ∀ (p : UInt32) (a : GoString),
    r.nodeMap[p]? = some a ↔ member a ∧ p ∈ points sum32 a

section Exact

variable {member : GoString → Prop} {r r' : Ring} {x : GoString}

/-- There is only one such ring. -/
theorem Exact.unique (h : Exact sum32 member r) (h' : Exact sum32 member r') : r = r' := by
  have hperm : r.ring.Perm r'.ring := by
    rw [List.perm_ext_iff_of_nodup h.nodup h'.nodup]
    intro p
    rw [h.mem, h'.mem]
  have hring : r.ring = r'.ring := hperm.eq_of_pairwise' h.sorted h'.sorted
  have hmap : r.nodeMap = r'.nodeMap := by
    apply Std.ExtTreeMap.ext_getElem?
    intro p
    apply Option.ext
    intro a
    rw [h.owner, h'.owner]
  cases r
  cases r'
  cases hring
  cases hmap
  rfl

theorem exact_new : Exact sum32 (fun _ => False) new where
  named _ h := h.elim
  sorted := List.Pairwise.nil
  nodup := List.nodup_nil
  mem p := by simp [new]
  owner p a := by simp [new]

theorem Exact.addNode (h : Exact sum32 member r) (hhash : Collisionless sum32 known)
    (hknown : ∀ a, member a → known a) (hx : x ≠ []) (hknownx : known x) (hfresh : ¬ member x) :
    Exact sum32 (fun a => x = a ∨ member a) (r.addNode sum32 x) := by
  -- no member has a point of the new address
  have hdisjoint : ∀ {a p}, member a → p ∈ points sum32 a → p ∉ points sum32 x := by
    intro a p ha hp hpx
    have hne : a ≠ x := fun heq => hfresh (heq ▸ ha)
    exact hhash.disjoint a x (hknown a ha) hknownx hne hp hpx
  refine ⟨?_, sorted_addNode sum32 r x, ?_, fun p => ?_, fun p a => ?_⟩
  · rintro a (rfl | ha)
    · exact hx
    · exact h.named a ha
  · rw [(ring_addNode_perm sum32 r x).nodup_iff, List.nodup_append']
    refine ⟨h.nodup, hhash.nodup hknownx, fun p hp hpx => ?_⟩
    obtain ⟨a, ha, hpa⟩ := (h.mem p).mp hp
    exact hdisjoint ha hpa hpx
  · rw [mem_ring_addNode, h.mem]
    constructor
    · rintro (⟨a, ha, hp⟩ | hp)
      · exact ⟨a, Or.inr ha, hp⟩
      · exact ⟨x, Or.inl rfl, hp⟩
    · rintro ⟨a, rfl | ha, hp⟩
      · exact Or.inr hp
      · exact Or.inl ⟨a, ha, hp⟩
  · rw [nodeMap_addNode]
    by_cases hpx : p ∈ points sum32 x
    · rw [if_pos hpx, Option.some.injEq]
      constructor
      · rintro rfl
        exact ⟨Or.inl rfl, hpx⟩
      · rintro ⟨hxa | ha, hp⟩
        · exact hxa
        · exact absurd hpx (hdisjoint ha hp)
    · rw [if_neg hpx, h.owner]
      constructor
      · rintro ⟨ha, hp⟩
        exact ⟨Or.inr ha, hp⟩
      · rintro ⟨rfl | ha, hp⟩
        · exact absurd hp hpx
        · exact ⟨ha, hp⟩

/-- The owner of a point of the slice. -/
theorem Exact.ownerOf_eq_iff (h : Exact sum32 member r) {p : UInt32} (hp : p ∈ r.ring) :
    ownerOf r.nodeMap p = x ↔ member x ∧ p ∈ points sum32 x := by
  obtain ⟨a, ha, hpa⟩ := (h.mem p).mp hp
  have hmap := (h.owner p a).mpr ⟨ha, hpa⟩
  rw [Ring.ownerOf_eq hmap, ← h.owner, hmap, Option.some.injEq]

theorem Exact.removeNode (h : Exact sum32 member r) (x : GoString) :
    Exact sum32 (fun a => x ≠ a ∧ member a) (r.removeNode x) := by
  have hclean : r.RemovesCleanly x := fun p hp _ => List.count_eq_one_of_mem h.nodup hp
  have hsub := removeNode_sublist r x
  refine ⟨fun a ha => h.named a ha.2, h.sorted.sublist hsub, h.nodup.sublist hsub, fun p => ?_,
    fun p a => ?_⟩
  · rw [mem_removeNode_of_clean hclean]
    constructor
    · rintro ⟨hp, hown⟩
      obtain ⟨a, ha, hpa⟩ := (h.mem p).mp hp
      refine ⟨a, ⟨fun hxa => ?_, ha⟩, hpa⟩
      exact hown ((h.ownerOf_eq_iff hp).mpr (hxa ▸ ⟨ha, hpa⟩))
    · rintro ⟨a, ⟨hxa, ha⟩, hpa⟩
      have hp := (h.mem p).mpr ⟨a, ha, hpa⟩
      have howner := (h.ownerOf_eq_iff hp).mpr ⟨ha, hpa⟩
      exact ⟨hp, fun hown => hxa (hown.symm.trans howner)⟩
  · rw [nodeMap_removeNode]
    by_cases hgone : p ∈ r.ring ∧ ownerOf r.nodeMap p = x
    · rw [if_pos hgone]
      refine iff_of_false (Option.some_ne_none a).symm ?_
      rintro ⟨⟨hxa, ha⟩, hpa⟩
      have howner := (h.ownerOf_eq_iff hgone.1).mpr ⟨ha, hpa⟩
      exact hxa (hgone.2.symm.trans howner)
    · rw [if_neg hgone, h.owner]
      constructor
      · rintro ⟨ha, hpa⟩
        refine ⟨⟨fun hxa => hgone ?_, ha⟩, hpa⟩
        have hp := (h.mem p).mpr ⟨a, ha, hpa⟩
        exact ⟨hp, (h.ownerOf_eq_iff hp).mpr (hxa ▸ ⟨ha, hpa⟩)⟩
      · rintro ⟨⟨-, ha⟩, hpa⟩
        exact ⟨ha, hpa⟩

/-- Each member has all of its points. -/
theorem Exact.owned (h : Exact sum32 member r) (hhash : Collisionless sum32 known)
    {a : GoString} (ha : member a) (hknown : known a) :
    (r.ring.filter fun p => ownerOf r.nodeMap p = a).length = vnodesPerNode := by
  rw [← length_points sum32 a]
  apply List.Perm.length_eq
  rw [List.perm_ext_iff_of_nodup (h.nodup.filter _) (hhash.nodup hknown)]
  intro p
  rw [List.mem_filter, decide_eq_true_eq]
  constructor
  · rintro ⟨hp, hown⟩
    exact ((h.ownerOf_eq_iff hp).mp hown).2
  · intro hpa
    have hp := (h.mem p).mpr ⟨a, ha, hpa⟩
    exact ⟨hp, (h.ownerOf_eq_iff hp).mpr ⟨ha, hpa⟩⟩

end Exact

/-! ## Histories -/

/-- A call that adds an address with a name that is not a member, or removes any address. -/
def FreshCall (calls : List Call) : Call → Prop
  | .addNode addr => addr ≠ [] ∧ ¬ IsMember calls addr
  | .removeNode _ => True

/-- The members, each once. -/
def members (calls : List Call) : List GoString :=
  (calls.map Call.addr).dedup.filter fun a => IsMember calls a

variable {calls : List Call} {a : GoString}

theorem mem_of_isMember (h : IsMember calls a) : .addNode a ∈ calls :=
  List.mem_reverse.mp (List.mem_of_find?_eq_some h)

theorem mem_members : a ∈ members calls ↔ IsMember calls a := by
  unfold members
  rw [List.mem_filter, List.mem_dedup, decide_eq_true_eq, and_iff_right_iff_imp]
  exact fun h => List.mem_map.mpr ⟨_, mem_of_isMember h, rfl⟩

theorem nodup_members (calls : List Call) : (members calls).Nodup :=
  (List.nodup_dedup _).filter _

/-- The addresses that the calls add are known. -/
def Knows (known : GoString → Prop) (calls : List Call) : Prop :=
  ∀ a, Call.addNode a ∈ calls → known a

theorem Exact.congr {member member' : GoString → Prop} {r : Ring} (h : Exact sum32 member r)
    (hsame : ∀ a, member a ↔ member' a) : Exact sum32 member' r := by
  have heq : member = member' := funext fun a => propext (hsame a)
  exact heq ▸ h

/-- One call. -/
theorem Exact.apply {call : Call} {r : Ring} (h : Exact sum32 (IsMember calls) r)
    (hhash : Collisionless sum32 known) (hknown : Knows known (calls ++ [call]))
    (hfresh : FreshCall calls call) :
    ∃ r', r.apply sum32 call = some r' ∧ Exact sum32 (IsMember (calls ++ [call])) r' := by
  cases call with
  | addNode x =>
    refine ⟨_, rfl, (h.addNode hhash (fun a ha => ?_) hfresh.1 ?_ hfresh.2).congr fun a =>
      (isMember_addNode calls x a).symm⟩
    · exact hknown a (List.mem_append_left _ (mem_of_isMember ha))
    · exact hknown x (List.mem_append_right _ (List.mem_singleton_self _))
  | removeNode x =>
    exact ⟨_, rfl, (h.removeNode x).congr fun a => (isMember_removeNode calls x a).symm⟩

theorem exact_of_calls (hhash : Collisionless sum32 known) (hknown : Knows known calls)
    (hfresh : Meets (apply sum32) (fun hist _ call => FreshCall hist call) new calls) :
    ∃ r, run (apply sum32) new calls = some r ∧ Exact sum32 (IsMember calls) r := by
  have hempty : Exact sum32 (IsMember []) new :=
    exact_new.congr fun a => by simp [IsMember, lastCall]
  have hmeets : Meets (apply sum32)
      (fun hist _ call => FreshCall hist call ∧ Knows known (hist ++ [call])) new calls := by
    intro hist call rest hsplit r hr
    refine ⟨hfresh hist call rest hsplit r hr, fun a ha => hknown a ?_⟩
    rw [hsplit, List.append_cons]
    exact List.mem_append_left _ ha
  have hnext : ∀ (hist : List Call) (r : Ring) (call : Call), Exact sum32 (IsMember hist) r →
      FreshCall hist call ∧ Knows known (hist ++ [call]) →
      ∃ r', r.apply sum32 call = some r' ∧ Exact sum32 (IsMember (hist ++ [call])) r' :=
    fun _ _ _ h hc => h.apply hhash hc.2 hc.1
  exact progress_of_meets hempty hnext hmeets

/-- The ring of a list of addresses. -/
theorem exact_ringOf (hhash : Collisionless sum32 known) {peerAddrs : List GoString}
    (hknown : ∀ a ∈ peerAddrs, known a) (hnamed : [] ∉ peerAddrs) (hnodup : peerAddrs.Nodup) :
    Exact sum32 (· ∈ peerAddrs) (ringOf sum32 peerAddrs) := by
  induction peerAddrs using List.reverseRecOn with
  | nil => exact exact_new.congr fun a => by simp
  | append_singleton addrs x ih =>
    have hx : x ∈ addrs ++ [x] := List.mem_append_right _ (List.mem_singleton_self x)
    have hsub : ∀ a ∈ addrs, a ∈ addrs ++ [x] := fun a ha => List.mem_append_left _ ha
    have hdisjoint := List.disjoint_of_nodup_append hnodup
    have hold := ih (fun a ha => hknown a (hsub a ha)) (fun hnil => hnamed (hsub [] hnil))
      (List.Nodup.of_append_left hnodup)
    rw [ringOf_concat]
    refine (hold.addNode hhash (fun a ha => hknown a (hsub a ha)) (fun hnil => ?_) (hknown x hx)
      (fun hmem => hdisjoint hmem (List.mem_singleton_self x))).congr fun a => ?_
    · exact hnamed (hnil ▸ hx)
    · rw [List.mem_append, List.mem_singleton, or_comm, eq_comm]

theorem length_ringOf (sum32 : Bytes → UInt32) (peerAddrs : List GoString) :
    (ringOf sum32 peerAddrs).ring.length = vnodesPerNode * peerAddrs.length := by
  induction peerAddrs using List.reverseRecOn with
  | nil => rfl
  | append_singleton addrs x ih =>
    rw [ringOf_concat, (ring_addNode_perm sum32 _ x).length_eq, List.length_append, ih,
      length_points, List.length_append, List.length_singleton, Nat.mul_add, Nat.mul_one]

/-- **The ring forgets its history.** After every sequence of calls that adds an address only while
it is not a member, and removes members or any other addresses, with a hash function that has no
collision among the labels of the added addresses: the ring is the one that a server starts with,
given the members as its list of peers in any order. It has 150 points for each member, and the
map gives each member 150 of the points. The labels that are hashed are different strings for
different virtual nodes, whatever the addresses are. -/
theorem ring_forgets_history (sum32 : Bytes → UInt32) (calls : List Call)
    (hhash : Collisionless sum32 fun a => .addNode a ∈ calls)
    (hfresh : Meets (apply sum32) (fun hist _ call => FreshCall hist call) new calls) :
    ∃ r, run (apply sum32) new calls = some r ∧
      (∀ peerAddrs : List GoString, peerAddrs.Perm (members calls) → r = ringOf sum32 peerAddrs) ∧
      r.ring.length = vnodesPerNode * (members calls).length ∧
      (∀ a ∈ members calls,
        (r.ring.filter fun p => ownerOf r.nodeMap p = a).length = vnodesPerNode) ∧
      ∀ (a b : GoString) (i j : ℕ), label a i = label b j → a = b ∧ i = j := by
  obtain ⟨r, hrun, h⟩ := exact_of_calls hhash (fun _ ha => ha) hfresh
  have hring : ∀ peerAddrs : List GoString, peerAddrs.Perm (members calls) →
      r = ringOf sum32 peerAddrs := by
    intro peerAddrs hperm
    have hmem : ∀ a, a ∈ peerAddrs ↔ IsMember calls a := fun a =>
      hperm.mem_iff.trans mem_members
    refine h.unique ((exact_ringOf hhash (fun a ha => ?_) (fun hnil => ?_) ?_).congr hmem)
    · exact mem_of_isMember ((hmem a).mp ha)
    · exact h.named [] ((hmem []).mp hnil) rfl
    · exact hperm.nodup_iff.mpr (nodup_members calls)
  refine ⟨r, hrun, hring, ?_, fun a ha => ?_, fun a b i j => label_injective⟩
  · rw [hring _ (List.Perm.refl _), length_ringOf]
  · have hmember := mem_members.mp ha
    exact h.owned hhash hmember (mem_of_isMember hmember)

/-- An address leaves after another one has joined: what is left is the ring of the other. -/
theorem ring_forgets_history_left :
    run (apply Murmur3.sum32) new
        [.addNode (str "a"), .addNode (str "b"), .removeNode (str "a")]
      = some (ringOf Murmur3.sum32 [str "b"]) := by
  have hnodup : ([str "a", str "b"].flatMap (points Murmur3.sum32)).Nodup :=
    List.Nodup.of_map UInt32.toNat (by decide +kernel)
  have hhash : Collisionless Murmur3.sum32 fun addr => .addNode addr ∈
      [Call.addNode (str "a"), .addNode (str "b"), .removeNode (str "a")] := by
    refine (collisionless_of_nodup hnodup).mono ?_
    rintro l ⟨addr, haddr, hl⟩
    exact ⟨addr, by simpa using haddr, hl⟩
  have hfresh : Meets (apply Murmur3.sum32) (fun hist _ call => FreshCall hist call) new
      [.addNode (str "a"), .addNode (str "b"), .removeNode (str "a")] := by
    refine ((meets_nil.concat (l := Call.addNode (str "a")) fun _ _ => ?_).concat
      (l := Call.addNode (str "b")) fun _ _ => ?_).concat (l := Call.removeNode (str "a"))
      fun _ _ => trivial
    · exact ⟨List.cons_ne_nil _ _, by decide⟩
    · exact ⟨List.cons_ne_nil _ _, by decide⟩
  obtain ⟨r, hrun, hring, -⟩ := ring_forgets_history Murmur3.sum32 _ hhash hfresh
  rw [hrun, hring [str "b"] (List.Perm.of_eq (by decide))]

end Ring
end CardinalityTracker
