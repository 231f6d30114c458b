import CardinalityTracker.Rebalancing
import CardinalityTracker.ServerTheorems

/-!
# Forwarding ends

Nothing in a request counts its hops, and while `-peers` is being changed every server may
have a ring of its own. A chain of forwards still ends: a server forwards to the address
whose nearest point is nearest to the group among all the addresses it knows, itself
included, so that `nearest` decreases at every hop.
-/

namespace CardinalityTracker

open Lib

variable {σ ι N : Type} {alg : Algorithm σ}

/-! ## The measure -/

/-- The clockwise distance from `h` to the nearest point of an address. -/
noncomputable def nearest (sum32 : Bytes → UInt32) (h : UInt32) (addr : GoString) : ℕ :=
  sInf {d | ∃ p ∈ Ring.points sum32 addr, clockwise h p = d}

theorem nearest_le {sum32 : Bytes → UInt32} {addr : GoString} {p : UInt32}
    (hp : p ∈ Ring.points sum32 addr) (h : UInt32) : nearest sum32 h addr ≤ clockwise h p :=
  Nat.sInf_le ⟨p, hp, rfl⟩

theorem exists_clockwise_eq_nearest (sum32 : Bytes → UInt32) (h : UInt32) (addr : GoString) :
    ∃ p ∈ Ring.points sum32 addr, clockwise h p = nearest sum32 h addr := by
  obtain ⟨p, hp⟩ := Ring.exists_mem_points sum32 addr
  exact Nat.sInf_mem (s := {d | ∃ p ∈ Ring.points sum32 addr, clockwise h p = d})
    ⟨_, p, hp, rfl⟩

/-- The owner is nearer to the group than any other address of the list. -/
theorem nearest_resolve_lt {sum32 : Bytes → UInt32} {known : GoString → Prop}
    (hpoints : DisjointPoints sum32 known) {peerAddrs : List GoString}
    (hknown : ∀ a ∈ peerAddrs, known a) {self group : GoString} (hself : self ∈ peerAddrs)
    (hne : (ringOf sum32 peerAddrs).resolve sum32 group ≠ self) :
    nearest sum32 (sum32 group) ((ringOf sum32 peerAddrs).resolve sum32 group)
      < nearest sum32 (sum32 group) self := by
  obtain ⟨howner, p, hp, hmin⟩ :=
    Ring.resolve_ringOf sum32 (List.ne_nil_of_mem hself) group
  generalize (ringOf sum32 peerAddrs).resolve sum32 group = owner at *
  -- the owner's point is at most as far as the own one, which is in the same ring
  obtain ⟨q, hq, hqself⟩ := exists_clockwise_eq_nearest sum32 (sum32 group) self
  have hle : clockwise (sum32 group) p ≤ nearest sum32 (sum32 group) self :=
    hqself ▸ hmin self hself q hq
  refine (nearest_le hp _).trans_lt (hle.lt_of_ne fun heq => ?_)
  -- the two distances are those of one point, which both addresses would have
  have hpq : p = q := clockwise_injective _ (heq.trans hqself.symm)
  exact hpoints owner self (hknown owner howner) (hknown self hself) hne hp (hpq ▸ hq)

namespace Cluster

/-! ## Routes -/

/-- The server handles a request for the group itself (or refuses it). -/
def HandlesHere (net : Network ι N) (c : Cluster ι alg N) (i : ι) (group : GoString) : Prop :=
  group = [] ∨ (c.servers i).forwardTo net.sum32 group = none

/-- Server `i` forwards requests for the group to server `j`. -/
def ForwardsTo (net : Network ι N) (c : Cluster ι alg N) (group : GoString) (i j : ι) : Prop :=
  ∃ owner, group ≠ [] ∧ (c.servers i).forwardTo net.sum32 group = some owner ∧
    net.dial owner = none ∧ net.reach owner = some j

/-- The way of a request for the group from the server `i`: each server forwards to the next
one, and the last one handles it. -/
def IsRoute (net : Network ι N) (c : Cluster ι alg N) (group : GoString) : ι → List ι → Prop
  | i, [] => HandlesHere net c i group
  | i, j :: rest => ForwardsTo net c group i j ∧ IsRoute net c group j rest

theorem isRoute_of_routes {net : Network ι N} {c c' : Cluster ι alg N}
    (h : c'.routes = c.routes) {group : GoString} {i : ι} {rest : List ι}
    (hroute : IsRoute net c group i rest) : IsRoute net c' group i rest := by
  induction rest generalizing i with
  | nil =>
    unfold IsRoute HandlesHere at hroute ⊢
    rw [forwardTo_of_routes h]
    exact hroute
  | cons j rest ih =>
    obtain ⟨⟨owner, hgroup, howner, hcall⟩, hrest⟩ := hroute
    exact ⟨⟨owner, hgroup, (forwardTo_of_routes h net.sum32 i group).trans howner, hcall⟩,
      ih hrest⟩

/-- A server has one route for a group. -/
theorem IsRoute.unique {net : Network ι N} {c : Cluster ι alg N} {group : GoString} {i : ι}
    {rest rest' : List ι} (h : IsRoute net c group i rest) (h' : IsRoute net c group i rest') :
    rest = rest' := by
  -- a server that handles the group does not forward it
  have hends : ∀ {i j : ι}, HandlesHere net c i group → ¬ ForwardsTo net c group i j := by
    rintro i j hhere ⟨owner, hgroup, howner, -⟩
    rw [hhere.resolve_left hgroup] at howner
    cases howner
  induction rest generalizing i rest' with
  | nil =>
    cases rest' with
    | nil => rfl
    | cons j' rest' => exact absurd h'.1 (hends h)
  | cons j rest ih =>
    cases rest' with
    | nil => exact absurd h.1 (hends h')
    | cons j' rest' =>
      obtain ⟨⟨owner, -, howner, -, hreach⟩, hrest⟩ := h
      obtain ⟨⟨owner', -, howner', -, hreach'⟩, hrest'⟩ := h'
      obtain rfl : owner = owner' := Option.some.inj (howner.symm.trans howner')
      obtain rfl : j = j' := Option.some.inj (hreach.symm.trans hreach')
      rw [ih hrest hrest']

variable [DecidableEq ι]

/-- **A request follows its route.** The servers that receive it are those of the route, in
that order, as long as its deadline allows that many hops. The induction is on the route;
each hop changes the connections of one server only. -/
theorem received_serve {net : Network ι N} {req : Request} {i : ι} {rest : List ι}
    {c : Cluster ι alg N} (hroute : IsRoute net c req.group i rest) {hops : ℕ}
    (hhops : rest.length < hops) :
    (serve net hops i req c).1.received = c.received ++ (i :: rest).map fun j => (j, req) := by
  induction rest generalizing i c hops with
  | nil =>
    obtain ⟨hops, rfl⟩ := Nat.exists_eq_add_of_lt hhops
    by_cases hgroup : req.group = []
    · rw [serve_of_no_group hgroup]
      rfl
    · rw [serve_of_local hgroup (hroute.resolve_left hgroup), handleLocal_received]
      rfl
  | cons j rest ih =>
    obtain ⟨hops, rfl⟩ := Nat.exists_eq_add_of_lt hhops
    obtain ⟨⟨owner, hgroup, howner, hdial, hreach⟩, hrest⟩ := hroute
    obtain ⟨conns, hserve⟩ := serve_of_forward hgroup howner hdial hreach
      ((j :: rest).length + hops)
    -- what the later servers route by is unchanged
    have hroutes : ((c.receive i req).put i { c.servers i with conns }).routes = c.routes :=
      routes_put (by rfl) (by rfl)
    rw [hserve, ih (isRoute_of_routes hroutes hrest) (by simp; omega), received_put, receive,
      List.append_assoc]
    rfl

/-! ## Every request has a route -/

/-- A cluster whose servers have been started with peer lists of their own, in which a call
to an address of a list reaches the server of that address. -/
structure Peered (net : Network ι N) (c : Cluster ι alg N) (peers : ι → List GoString) :
    Prop where
  router : ∀ i router, (c.servers i).router = some router → router = ringOf net.sum32 (peers i)
  selfAddr : ∀ i, (c.servers i).selfAddr ∈ peers i ∨ (c.servers i).selfAddr = []
  reach : ∀ i, ∀ addr ∈ peers i, addr ≠ [] →
    net.dial addr = none ∧ ∃ j, net.reach addr = some j ∧ (c.servers j).selfAddr = addr

omit [DecidableEq ι] in
/-- A hop decreases the measure. -/
theorem Peered.nearest_lt {net : Network ι N} {c : Cluster ι alg N} {peers : ι → List GoString}
    (h : Peered net c peers)
    (hpoints : DisjointPoints net.sum32 fun addr => ∃ i, addr ∈ peers i)
    {i : ι} {group owner : GoString}
    (howner : (c.servers i).forwardTo net.sum32 group = some owner) :
    (owner ∈ peers i ∧ owner ≠ []) ∧
      nearest net.sum32 (net.sum32 group) owner
        < nearest net.sum32 (net.sum32 group) (c.servers i).selfAddr := by
  obtain ⟨router, hrouter, rfl, hself, hname, hne⟩ := Server.forwardTo_eq_some howner
  have hmem := (h.selfAddr i).resolve_right hself
  rw [h.router i router hrouter] at hname hne ⊢
  exact ⟨⟨(Ring.resolve_ringOf net.sum32 (List.ne_nil_of_mem hmem) group).1, hname⟩,
    nearest_resolve_lt hpoints (fun a ha => ⟨i, ha⟩) hmem hne⟩

omit [DecidableEq ι] in
/-- From every server there is a route, along which the measure decreases. The induction is
on the measure of the server's address. -/
theorem Peered.exists_route {net : Network ι N} {c : Cluster ι alg N}
    {peers : ι → List GoString} (h : Peered net c peers)
    (hpoints : DisjointPoints net.sum32 fun addr => ∃ i, addr ∈ peers i)
    (group : GoString) (d : ℕ) (i : ι)
    (hd : nearest net.sum32 (net.sum32 group) (c.servers i).selfAddr = d) :
    ∃ rest, IsRoute net c group i rest ∧ (i :: rest).Nodup ∧
      ∀ j ∈ rest, nearest net.sum32 (net.sum32 group) (c.servers j).selfAddr < d := by
  induction d using Nat.strong_induction_on generalizing i with
  | _ d ih =>
    by_cases hgroup : group = []
    · exact ⟨[], Or.inl hgroup, List.nodup_singleton i, by simp⟩
    · cases howner : (c.servers i).forwardTo net.sum32 group with
      | none => exact ⟨[], Or.inr howner, List.nodup_singleton i, by simp⟩
      | some owner =>
        obtain ⟨⟨hmem, hname⟩, hlt⟩ := h.nearest_lt hpoints howner
        obtain ⟨hdial, j, hreach, hj⟩ := h.reach i owner hmem hname
        rw [← hj, hd] at hlt
        obtain ⟨rest, hroute, hnodup, hrest⟩ := ih _ hlt j rfl
        have hall : ∀ k ∈ j :: rest,
            nearest net.sum32 (net.sum32 group) (c.servers k).selfAddr < d := by
          intro k hk
          rcases List.mem_cons.mp hk with rfl | hk
          · exact hlt
          · exact (hrest k hk).trans hlt
        refine ⟨j :: rest, ⟨⟨owner, hgroup, howner, hdial, hreach⟩, hroute⟩, ?_, hall⟩
        -- the first server has the largest measure, so it does not come again
        refine List.nodup_cons.mpr ⟨fun hi => ?_, hnodup⟩
        have := hall i hi
        omega

/-- **Forwarding never loops.** Whatever lists the servers have been started with, a request
for a group visits no server twice and ends at one that handles it: there is a route without
repetitions, and every request for the group is received by exactly the servers on it. -/
theorem forwarding_ends (net : Network ι N) (c : Cluster ι alg N) (peers : ι → List GoString)
    (h : Peered net c peers)
    (hpoints : DisjointPoints net.sum32 fun addr => ∃ i, addr ∈ peers i)
    (group : GoString) (i : ι) :
    ∃ rest, IsRoute net c group i rest ∧ (i :: rest).Nodup ∧
      ∀ req : Request, req.group = group → ∀ hops, rest.length < hops →
        (serve net hops i req c).1.received
          = c.received ++ (i :: rest).map fun j => (j, req) := by
  obtain ⟨rest, hroute, hnodup, -⟩ := h.exists_route hpoints group _ i rfl
  refine ⟨rest, hroute, hnodup, fun req hreq hops hhops => ?_⟩
  exact received_serve (hreq ▸ hroute) hhops

/-- While the address `a` is leaving, only its own server still knows it: a request for `cpu` that
enters there is forwarded to `b`, and does not come back. -/
theorem forwarding_ends_rolling :
    IsRoute TwoServers.net TwoServers.rolling (str "cpu") 0 [1] ∧
      ∀ req : Request, req.group = str "cpu" → ∀ hops, 1 < hops →
        (serve TwoServers.net hops 0 req TwoServers.rolling).1.received = [(0, req), (1, req)] := by
  have hpeered : Peered TwoServers.net TwoServers.rolling TwoServers.rollingPeers := by
    refine ⟨fun i router hrouter => (Option.some.inj hrouter).symm, fun i => Or.inl ?_, ?_⟩
    · show (if i = 0 then str "a" else str "b") ∈ TwoServers.rollingPeers i
      revert i
      decide
    · -- a call to either address reaches its server
      intro i addr haddr _
      rcases TwoServers.mem_rollingPeers haddr with rfl | rfl
      · exact ⟨rfl, 0, rfl, rfl⟩
      · exact ⟨rfl, 1, rfl, rfl⟩
  have hpoints : DisjointPoints TwoServers.net.sum32 fun addr =>
      ∃ i, addr ∈ TwoServers.rollingPeers i := by
    rintro a b ⟨i, ha⟩ ⟨j, hb⟩ hab
    rcases TwoServers.mem_rollingPeers ha with rfl | rfl <;>
      rcases TwoServers.mem_rollingPeers hb with rfl | rfl
    · exact absurd rfl hab
    · exact TwoServers.disjoint_points
    · exact TwoServers.disjoint_points.symm
    · exact absurd rfl hab
  have hroute : IsRoute TwoServers.net TwoServers.rolling (str "cpu") 0 [1] :=
    ⟨⟨str "b", List.cons_ne_nil _ _, by decide +kernel, rfl, rfl⟩, Or.inr (by decide +kernel)⟩
  obtain ⟨rest, hrest, -, hreceived⟩ := forwarding_ends _ _ _ hpeered hpoints (str "cpu") 0
  obtain rfl := hrest.unique hroute
  exact ⟨hroute, fun req hreq hops hhops => hreceived req hreq hops hhops⟩

end Cluster
end CardinalityTracker
