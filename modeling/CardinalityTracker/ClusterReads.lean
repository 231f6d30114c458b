import CardinalityTracker.ClusterLifetime
import CardinalityTracker.Sharding

/-!
# Reads of a cluster with fixed peers

Here the servers of `Sharding.lean`, all started with one list of peers, live under the conditions
of `ClusterLifetime.lean`: saves fail, servers are restarted, and each request may run into failing
dials, addresses that lead nowhere or to the wrong server, and deadlines. `reads_see_acked` says
that a query that is answered, at whatever server it enters, counts every add to its group that was
acknowledged before, and nothing that was not submitted.

Only the owner of a group ever handles a request for it by itself, since a server that a request
reaches by mistake forwards it again. So all acknowledged adds of a group are durable at one place,
which is also the one that its queries are answered from.
-/

namespace CardinalityTracker

open Lib

variable {σ N : Type} {alg : Algorithm σ}

theorem Request.fst_of_mem_adds {req : Request} {add : GoString × UInt64} (h : add ∈ req.adds) :
    add.1 = req.group := by
  cases req with
  | add group id => rw [List.mem_singleton.mp h, Request.group]
  | batchAdd group ids =>
    obtain ⟨id, -, rfl⟩ := List.mem_map.mp h
    rfl
  | query group staleOk => exact absurd h List.not_mem_nil

namespace Cluster

/-- The adds that clients know to have succeeded. -/
def ackedAdds (answered : List (Request × Except Status Response)) : List (GoString × UInt64) :=
  answered.flatMap fun r => if r.2.isOk then r.1.adds else []

/-- A server that is started again has its position in the same list of peers. -/
def Event.KeepsPeers (sum32 : Bytes → UInt32) (peerAddrs : List GoString) :
    Event (Fin peerAddrs.length) → Prop
  | .request _ _ _ => True
  | .restart i router selfAddr =>
    router = some (ringOf sum32 peerAddrs) ∧ selfAddr = selfAddrOf peerAddrs (i + 1)

theorem mem_ackedAdds_concat {answered : List (Request × Except Status Response)} {req : Request}
    {result : Except Status Response} {add : GoString × UInt64}
    (h : add ∈ ackedAdds (answered ++ [(req, result)])) :
    add ∈ ackedAdds answered ∨ ∃ resp, result = .ok resp ∧ add ∈ req.adds := by
  unfold ackedAdds at h
  rw [List.flatMap_append, List.mem_append] at h
  refine h.imp id fun hnew => ?_
  obtain ⟨r, hr, hadd⟩ := List.mem_flatMap.mp hnew
  obtain rfl := List.mem_singleton.mp hr
  cases result with
  | error err => exact absurd hadd List.not_mem_nil
  | ok resp => exact ⟨resp, rfl, hadd⟩

section Join

variable [SemilatticeSup σ] [OrderBot σ]

/-- The answer counts a sketch of the group that has all the acknowledged ids, and none but
submitted ones. An absent sketch counts as empty. -/
def ReadsBetween (alg : Algorithm σ) (answered : List (Request × Except Status Response))
    (group : GoString) (resp : Response) : Prop :=
  ∃ sk : Option σ, resp = .cardinality group (sk.elim 0 alg.cardinality) ∧
    alg.sketchOf (idsOf (ackedAdds answered) group) ≤ sk.getD ⊥ ∧
    sk.getD ⊥ ≤ alg.sketchOf (idsOf (submittedAdds answered) group)

/-- Every query was answered after what the clients knew then. -/
def ReadsSee (alg : Algorithm σ) (answered : List (Request × Except Status Response)) : Prop :=
  ∀ k group staleOk resp, answered[k]? = some (.query group staleOk, .ok resp) →
    ReadsBetween alg (answered.take k) group resp

theorem readsSee_nil : ReadsSee alg [] := fun k _ _ _ hk => absurd hk (by simp)

theorem ReadsSee.concat {answered : List (Request × Except Status Response)} {req : Request}
    {result : Except Status Response} (h : ReadsSee alg answered)
    (hlast : ∀ group staleOk resp, req = .query group staleOk → result = .ok resp →
      ReadsBetween alg answered group resp) :
    ReadsSee alg (answered ++ [(req, result)]) := by
  intro k group staleOk resp hk
  have hlt := (List.getElem?_eq_some_iff.mp hk).choose
  rw [List.length_append, List.length_singleton] at hlt
  rcases Nat.lt_succ_iff_lt_or_eq.mp hlt with hold | rfl
  · rw [List.getElem?_append_left hold] at hk
    rw [List.take_append_of_le_length hold.le]
    exact h k group staleOk resp hk
  · rw [List.getElem?_concat_length] at hk
    obtain ⟨hreq, hresult⟩ := Prod.mk.inj (Option.some.inj hk)
    rw [List.take_left]
    exact hlast group staleOk resp hreq hresult

/-! ## The invariant -/

variable {peerAddrs : List GoString} {owner : GoString → Fin peerAddrs.length}
  {sum32 : Bytes → UInt32} {life : Life (Fin peerAddrs.length) alg N}
  {ms : Fin peerAddrs.length → Copies GoString σ compare}

/-- What holds between two events: the servers route as they did at startup, and the acknowledged
adds of a group are durable at its owner. -/
structure Sees (sum32 : Bytes → UInt32) (owner : GoString → Fin peerAddrs.length)
    (life : Life (Fin peerAddrs.length) alg N)
    (ms : Fin peerAddrs.length → Copies GoString σ compare) : Prop where
  routes : life.cluster.routes = (start sum32 alg N peerAddrs).routes
  held : AllHeld (submittedAdds life.answered) life.cluster ms
  acked : ∀ add ∈ ackedAdds life.answered, (ms (owner add.1)).Durable add.1 (alg.single add.2)
  reads : ReadsSee alg life.answered

theorem sees_start : Sees sum32 owner (⟨start sum32 alg N peerAddrs, []⟩ : Life _ alg N)
    fun _ => ⟨∅, ∅⟩ := by
  have hinv : Inv (⟨start sum32 alg N peerAddrs, []⟩ : Life _ alg N) fun _ => ⟨∅, ∅⟩ :=
    inv_fresh (fun _ => some (ringOf sum32 peerAddrs))
      fun i : Fin peerAddrs.length => selfAddrOf peerAddrs (i + 1)
  exact ⟨rfl, hinv.held, fun add hadd => absurd hadd List.not_mem_nil, readsSee_nil⟩

/-- A query that is answered from a server with all the acknowledged adds. -/
theorem readsBetween_of_answers (halg : alg.IsJoin)
    {answered : List (Request × Except Status Response)} {m : Copies GoString σ compare}
    (hbelow : m.Below) (hbounded : m.Bounded (allowed alg (submittedAdds answered)))
    {group : GoString}
    (hacked : ∀ id, (group, id) ∈ ackedAdds answered → m.Durable group (alg.single id))
    {staleOk : Bool} {resp : Response} (hresp : Answers alg m.live (.query group staleOk) resp) :
    ReadsBetween alg answered group resp := by
  refine ⟨m.live[group]?, hresp, ?_, hbounded group⟩
  rw [halg.sketchOf_le_iff]
  intro id hid
  exact (hacked id (mem_idsOf.mp hid)).le_value.trans (hbelow.value_le group)

variable {net : Network (Fin peerAddrs.length) N}

/-- One request, under any conditions. -/
theorem sees_request (halg : alg.IsJoin)
    (howner : ∀ i g, ((start net.sum32 alg N peerAddrs).servers i).forwardTo net.sum32 g = none →
      i = owner g)
    (h : Sees net.sum32 owner life ms) (i : Fin peerAddrs.length) (req : Request)
    (cond : Conditions (Fin peerAddrs.length)) :
    ∃ life', live net life (.request i req cond) = some life' ∧
      ∃ ms', Sees net.sum32 owner life' ms' := by
  obtain ⟨hroutes, ms', h', hkeeps, hdone⟩ :=
    h.held.request halg (cond.network net) cond.hops i req _
  -- whoever has done the work is the owner of the group
  have hwork : ∀ resp,
      (Cluster.serve (cond.network net) cond.hops i req life.cluster).2 = .ok resp →
      (∀ add ∈ req.adds, (ms' (owner req.group)).Durable add.1 (alg.single add.2)) ∧
        Answers alg (ms' (owner req.group)).live req resp := by
    intro resp hresp
    obtain ⟨j, hhere, hj⟩ := hdone resp hresp
    rw [forwardTo_of_routes h.routes] at hhere
    rw [← howner j req.group hhere]
    exact hj
  have hacked : ∀ add ∈ ackedAdds life.answered,
      (ms' (owner add.1)).Durable add.1 (alg.single add.2) := fun add hadd =>
    hkeeps _ _ _ (h.acked add hadd)
  refine ⟨_, rfl, ms', hroutes.trans h.routes, h', fun add hadd => ?_, h.reads.concat ?_⟩
  · rcases mem_ackedAdds_concat hadd with hold | ⟨resp, hresp, hnew⟩
    · exact hacked add hold
    · rw [Request.fst_of_mem_adds hnew]
      have hdurable := (hwork resp (eq_ok_of_not_lost hresp)).1 add hnew
      rwa [Request.fst_of_mem_adds hnew] at hdurable
  · rintro group staleOk resp rfl hresp
    -- a query submits nothing
    rw [submittedAdds_concat, Request.adds, List.append_nil] at h'
    exact readsBetween_of_answers halg (h' (owner group)).below (h' (owner group)).bounded
      (fun id hid => hacked (group, id) hid) (hwork resp (eq_ok_of_not_lost hresp)).2

/-- A restart with the same list of peers. -/
theorem sees_restart (halg : alg.IsJoin) (h : Sees net.sum32 owner life ms)
    {i : Fin peerAddrs.length} {router : Option Ring} {selfAddr : GoString}
    (hkeeps : Event.KeepsPeers net.sum32 peerAddrs (.restart i router selfAddr)) :
    ∃ life', live net life (.restart i router selfAddr) = some life' ∧
      ∃ ms', Sees net.sum32 owner life' ms' := by
  obtain ⟨s, hrouter, hself, hlive, ms', h', hdurable⟩ :=
    h.held.restart halg net i router selfAddr
  have hi := congrFun h.routes i
  have hroutes : (life.cluster.put i s).routes = life.cluster.routes :=
    routes_put (hrouter.trans (hkeeps.1.trans (congrArg Prod.fst hi).symm))
      (hself.trans (hkeeps.2.trans (congrArg Prod.snd hi).symm))
  exact ⟨_, hlive, ms', hroutes.trans h.routes, h',
    fun add hadd => hdurable _ _ _ (h.acked add hadd), h.reads⟩

/-- **Reads see the acknowledged writes.** Servers started with one list of non-empty, distinct
addresses go through any sequence of requests, entering at any servers and each under conditions of
its own, and of restarts with the same list, with any outcomes of the saves. Then the servers are
up, and every query that was answered, at whatever server, counts a sketch that contains all ids
whose adds to the group had been acknowledged by any server before, and no id that had not been
submitted to the group. -/
theorem reads_see_acked (halg : alg.IsJoin) (peerAddrs : List GoString) (hnames : [] ∉ peerAddrs)
    (hdistinct : peerAddrs.Nodup)
    (net : Network (Fin peerAddrs.length) N) (events : List (Event (Fin peerAddrs.length)))
    (hevents : ∀ event ∈ events, event.KeepsPeers net.sum32 peerAddrs) :
    ∃ life, run (live net) (⟨start net.sum32 alg N peerAddrs, []⟩ : Life _ alg N) events
        = some life ∧ ReadsSee alg life.answered := by
  by_cases hne : peerAddrs = []
  · -- there is no server to send a request to
    subst hne
    rcases events with _ | ⟨⟨i, _, _⟩ | ⟨i, _, _⟩, _⟩
    · exact ⟨_, rfl, readsSee_nil⟩
    · exact i.elim0
    · exact i.elim0
  · have hindex : ∀ g, ∃ i, peerAddrs.get i
        = (ringOf net.sum32 peerAddrs).resolve net.sum32 g := fun g =>
      List.get_of_mem (Ring.resolve_ringOf net.sum32 hne g).1
    choose owner hget using hindex
    -- the others forward to the owner
    have howner : ∀ i g,
        ((start net.sum32 alg N peerAddrs).servers i).forwardTo net.sum32 g = none →
          i = owner g := by
      intro i g hhere
      rw [(shards_start hnames hdistinct hget).forwardTo] at hhere
      by_contra hi
      rw [if_neg hi] at hhere
      cases hhere
    have hnext : ∀ (_ : List (Event (Fin peerAddrs.length))) (life : Life _ alg N) event,
        (∃ ms, Sees net.sum32 owner life ms) → event.KeepsPeers net.sum32 peerAddrs →
          ∃ life', live net life event = some life' ∧ ∃ ms', Sees net.sum32 owner life' ms' := by
      rintro - life event ⟨ms, h⟩ hkeeps
      cases event with
      | request i req cond => exact sees_request halg howner h i req cond
      | restart i router selfAddr => exact sees_restart halg h hkeeps
    obtain ⟨life, hrun, ms, h⟩ := progress_of_meets ⟨_, sees_start⟩ hnext
      (meets_of_forall fun event hevent _ _ => hevents event hevent)
    exact ⟨life, hrun, h.reads⟩

end Join

/-- Two servers. An add is forwarded to its owner, another one does not reach it, the owner is
restarted, and a query is forwarded to it. -/
theorem reads_see_acked_restart :
    ∃ life, run (live TwoServers.net)
        (⟨start Murmur3.sum32 (Hll.algorithm Murmur3.sum64) Unit [str "a", str "b"], []⟩ :
          Life _ _ _)
        [.request 1 (.add (str "metrics") 1) ⟨2, fun _ => none, TwoServers.net.reach, false⟩,
          .request 1 (.add (str "metrics") 2) ⟨2, fun _ => none, fun _ => none, false⟩,
          .restart 0 (some (ringOf Murmur3.sum32 [str "a", str "b"])) (str "a"),
          .request 1 (.query (str "metrics") false)
            ⟨2, fun _ => none, TwoServers.net.reach, false⟩] = some life ∧
      ReadsSee (Hll.algorithm Murmur3.sum64) life.answered := by
  refine reads_see_acked (Hll.isJoin Murmur3.sum64) [str "a", str "b"] (by decide) (by decide)
    TwoServers.net _ ?_
  intro event hevent
  simp only [List.mem_cons, List.not_mem_nil, or_false] at hevent
  rcases hevent with rfl | rfl | rfl | rfl
  · trivial
  · trivial
  · exact ⟨rfl, rfl⟩
  · trivial

end Cluster
end CardinalityTracker
