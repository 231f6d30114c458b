import CardinalityTracker.Raft.Durability
import CardinalityTracker.Reference.Peers

/-!
# What a query sees in Raft mode

`Query` reads the engine of its server, under the engine's lock and nothing else; it does not
look at `stale_ok`. An add is acknowledged when its proposal is in the log, so a query that
starts afterwards may be answered before the add is applied: `acked_add_not_read` is such a
run. `acked_adds_read` says what is left: an entry of every acknowledged add has been put into the
log, and a query that reads the engine after that entry has been applied sees the id.

The first half follows the data of a proposal from `ProposeAdd` to the log (`Tracked`), the
second half the entries from the log to the engine (`LiveInv`). Saves play no part.
-/

namespace CardinalityTracker
namespace RaftMode

open Lib EtcdStorage

variable {σ τ : Type} {alg : Algorithm σ}

/-! ## Acknowledged adds are in the log -/

/-- An entry of the log carries the add. -/
def Logged (proto : Proto) (log : List Entry) (group : GoString) (id : UInt64) : Prop :=
  ∃ e ∈ log, e.Carries proto (addCommand group id)

/-- What is known of a write: a request without a group has been refused, the ids that are
done are in the log, and a handler that waits waits for the proposal of its next id. -/
structure WriteLogged (proto : Proto) (log : List Entry) (proposals : List Proposal)
    (w : Write) : Prop where
  named : w.group = [] → ∃ err, w.phase = .returned (some err)
  done : ∀ id ∈ w.ids.take w.done, Logged proto log w.group id
  waiting : ∀ k, w.phase = .waiting k → ∃ p id, proposals[k]? = some p ∧
    w.ids[w.done]? = some id ∧ proto.marshal (addCommand w.group id) = .ok p.data

/-- Accepted proposals, finished ids and acknowledged adds are in the log. -/
structure Tracked (proto : Proto) (s : State alg τ) : Prop where
  answered : ∀ p ∈ s.proposals, p.state = .answered none →
    ∃ e ∈ s.log, e.type = .normal ∧ e.data = p.data
  writes : ∀ w ∈ s.writes, WriteLogged proto s.log s.proposals w
  acked : ∀ add ∈ s.acked, add.1 ≠ [] ∧ Logged proto s.log add.1 add.2

theorem Logged.mono {proto : Proto} {log log' : List Entry} {group : GoString} {id : UInt64}
    (h : Logged proto log group id) (hlog : ∀ e ∈ log, e ∈ log') : Logged proto log' group id := by
  obtain ⟨e, he, hcarries⟩ := h
  exact ⟨e, hlog e he, hcarries⟩

/-- The proposals are still there, each with its data. -/
def KeepsData (proposals proposals' : List Proposal) : Prop :=
  ∀ (k : ℕ) (p : Proposal), proposals[k]? = some p →
    ∃ p' : Proposal, proposals'[k]? = some p' ∧ p'.data = p.data

/-- A write needs the entries of the log and the data of the proposals only. -/
theorem WriteLogged.mono {proto : Proto} {log log' : List Entry}
    {proposals proposals' : List Proposal} {w : Write} (h : WriteLogged proto log proposals w)
    (hlog : ∀ e ∈ log, e ∈ log')
    (hdata : KeepsData proposals proposals') : WriteLogged proto log' proposals' w := by
  refine ⟨h.named, fun id hid => (h.done id hid).mono hlog, fun k hk => ?_⟩
  obtain ⟨p, id, hp, hid, hmarshal⟩ := h.waiting k hk
  obtain ⟨p', hp', hsame⟩ := hdata k p hp
  exact ⟨p', id, hp', hid, hsame ▸ hmarshal⟩

/-- A request without a group has been refused, so it neither runs nor waits. -/
theorem WriteLogged.group_ne_nil {proto : Proto} {log : List Entry} {proposals : List Proposal}
    {w : Write} (h : WriteLogged proto log proposals w)
    (hphase : ∀ err, w.phase ≠ .returned (some err)) : w.group ≠ [] := by
  intro hgroup
  obtain ⟨err, herr⟩ := h.named hgroup
  exact hphase err herr

/-- A write that has returned an error is not followed any further. -/
theorem WriteLogged.returned {proto : Proto} {log : List Entry} {proposals : List Proposal}
    {w : Write} (h : WriteLogged proto log proposals w) (err : Status) :
    WriteLogged proto log proposals { w with phase := .returned (some err) } :=
  ⟨fun _ => ⟨err, rfl⟩, h.done, fun _ hk => absurd hk (by simp)⟩

namespace Tracked

variable {proto : Proto} {s : State alg τ}

theorem init (env : Env τ) (alg : Algorithm σ) : Tracked env.proto (init env alg) :=
  ⟨fun _ hp => absurd hp List.not_mem_nil, fun _ hw => absurd hw List.not_mem_nil,
    fun _ hadd => absurd hadd List.not_mem_nil⟩

theorem setWrite (h : Tracked proto s) (r : ℕ) {w : Write}
    (hw : WriteLogged proto s.log s.proposals w) : Tracked proto (s.setWrite r w) := by
  refine ⟨h.answered, fun w' hw' => ?_, h.acked⟩
  rcases List.mem_or_eq_of_mem_set hw' with hold | rfl
  · exact h.writes w' hold
  · exact hw

/-- A proposal moves on with its data; when it is answered with nil its entry is in the log. -/
theorem setProposal (h : Tracked proto s) {k : ℕ} {p : Proposal} (hp : s.proposals[k]? = some p)
    (state : ProposalState)
    (hstate : state = .answered none → ∃ e ∈ s.log, e.type = .normal ∧ e.data = p.data) :
    Tracked proto (s.setProposal k { p with state }) := by
  refine ⟨fun q hq hans => ?_, fun w hw => ?_, h.acked⟩
  · rcases List.mem_or_eq_of_mem_set hq with hold | rfl
    · exact h.answered q hold hans
    · exact hstate hans
  · refine (h.writes w hw).mono (fun e he => he) fun j q hq => ?_
    by_cases hj : k = j
    · subst hj
      obtain rfl : p = q := Option.some.inj (hp.symm.trans hq)
      obtain ⟨hlt, -⟩ := List.getElem?_eq_some_iff.mp hp
      exact ⟨{ p with state }, List.getElem?_set_self hlt, rfl⟩
    · exact ⟨q, (List.getElem?_set_ne hj).trans hq, rfl⟩

theorem append (h : Tracked proto s) (type : EntryType) (term : ℕ) (data : Bytes) :
    Tracked proto (s.append type term data) := by
  have hlog : ∀ e ∈ s.log, e ∈ (s.append type term data).log :=
    fun e he => List.mem_append_left _ he
  refine ⟨fun p hp hans => ?_, fun w hw => ?_, fun add hadd => ?_⟩
  · obtain ⟨e, he, hdata⟩ := h.answered p hp hans
    exact ⟨e, hlog e he, hdata⟩
  · exact (h.writes w hw).mono hlog fun k q hq => ⟨q, hq, rfl⟩
  · exact ⟨(h.acked add hadd).1, (h.acked add hadd).2.mono hlog⟩

/-! ### The steps of a handler -/

theorem submit (h : Tracked proto s) (group : GoString) (ids : List UInt64) :
    Tracked proto (submit group ids s) := by
  refine ⟨h.answered, fun w hw => ?_, h.acked⟩
  rcases List.mem_append.mp hw with hold | hnew
  · exact h.writes w hold
  · rw [List.mem_singleton] at hnew
    subst hnew
    refine ⟨fun hgroup => ⟨.groupRequired, if_pos hgroup⟩, fun id hid => ?_, fun k hk => ?_⟩
    · exact absurd hid (by simp)
    · dsimp only at hk
      split at hk <;> cases hk

theorem propose (h : Tracked proto s) {r : ℕ} {s' : State alg τ}
    (hstep : RaftMode.propose proto r s = some s') : Tracked proto s' := by
  obtain ⟨w, id, hw, hid, hrunning, hcases⟩ := propose_eq_some_iff.mp hstep
  have hlogged := h.writes w (List.mem_of_getElem? hw)
  have hgroup : w.group ≠ [] := hlogged.group_ne_nil (by simp [hrunning])
  obtain ⟨err, -, rfl⟩ | ⟨data, hmarshal, -, rfl⟩ := hcases
  · exact h.setWrite r (hlogged.returned _)
  · -- the new proposal is behind all others
    have hdata : KeepsData s.proposals (s.proposals ++ [⟨data, .queued⟩]) := by
      intro k p hp
      obtain ⟨hlt, -⟩ := List.getElem?_eq_some_iff.mp hp
      exact ⟨p, (List.getElem?_append_left hlt).trans hp, rfl⟩
    refine ⟨fun p hp hans => ?_, fun w' hw' => ?_, h.acked⟩
    · rcases List.mem_append.mp hp with hold | hnew
      · exact h.answered p hold hans
      · rw [List.mem_singleton.mp hnew] at hans
        cases hans
    · rcases List.mem_or_eq_of_mem_set hw' with hold | rfl
      · exact (h.writes w' hold).mono (fun e he => he) hdata
      · refine ⟨fun hnil => absurd hnil hgroup, hlogged.done, fun k hk => ?_⟩
        obtain rfl := Phase.waiting.inj hk
        exact ⟨⟨data, .queued⟩, id, List.getElem?_concat_length, hid, hmarshal⟩

theorem result (h : Tracked proto s) {r : ℕ} {s' : State alg τ}
    (hstep : RaftMode.result r s = some s') : Tracked proto s' := by
  obtain ⟨w, k, p, hw, hwaiting, hp, hcases⟩ := result_eq_some_iff.mp hstep
  have hlogged := h.writes w (List.mem_of_getElem? hw)
  have hgroup : w.group ≠ [] := hlogged.group_ne_nil (by simp [hwaiting])
  obtain ⟨hans, rfl⟩ | ⟨err, -, rfl⟩ := hcases
  · -- the proposal of the id has been accepted, so the id is done and in the log
    obtain ⟨p', id, hp', hid, hmarshal⟩ := hlogged.waiting k hwaiting
    obtain rfl : p = p' := Option.some.inj (hp.symm.trans hp')
    obtain ⟨e, he, hnormal, hdata⟩ := h.answered p (List.mem_of_getElem? hp) hans
    refine h.setWrite r ⟨fun hnil => absurd hnil hgroup, fun x hx => ?_, fun j hj => ?_⟩
    · rw [List.take_add_one, hid, List.mem_append] at hx
      rcases hx with hold | hnew
      · exact hlogged.done x hold
      · rw [Option.toList_some, List.mem_singleton] at hnew
        subst hnew
        exact ⟨e, he, hnormal, hdata ▸ hmarshal⟩
    · cases hj
  · exact h.setWrite r (hlogged.returned _)

theorem respond (h : Tracked proto s) {r : ℕ} {s' : State alg τ}
    (hstep : RaftMode.respond r s = some s') : Tracked proto s' := by
  obtain ⟨w, hw, ⟨hrunning, hall⟩, rfl⟩ := respond_eq_some_iff.mp hstep
  have hlogged := h.writes w (List.mem_of_getElem? hw)
  have hgroup : w.group ≠ [] := hlogged.group_ne_nil (by simp [hrunning])
  have hw' : WriteLogged proto s.log s.proposals { w with phase := .returned none } :=
    ⟨fun hnil => absurd hnil hgroup, hlogged.done, fun k hk => absurd hk (by simp)⟩
  refine ⟨h.answered, (h.setWrite r hw').writes, fun add hadd => ?_⟩
  rcases List.mem_append.mp hadd with hold | hnew
  · exact h.acked add hold
  · obtain ⟨id, hid, rfl⟩ := List.mem_map.mp hnew
    refine ⟨hgroup, hlogged.done id ?_⟩
    rw [hall, List.take_length]
    exact hid

/-- **Every step** keeps track of the adds. -/
theorem step {env : Env τ} (h : Tracked env.proto s) {l : Label} {s' : State alg τ}
    (hstep : RaftMode.step env s l = some s') : Tracked env.proto s' := by
  cases l with
  | submit group ids =>
    obtain rfl := Option.some.inj hstep
    exact h.submit group ids
  | propose r => exact h.propose hstep
  | receive =>
    obtain ⟨k, p, hp, -, rfl⟩ := receive_cases hstep
    exact h.setProposal hp .proposed (fun hans => by cases hans)
  | accept k term =>
    obtain ⟨p, hp, -, rfl⟩ := accept_eq_some_iff.mp hstep
    -- the entry is in the log when the answer is given
    have hlogged := h.append .normal term p.data
    exact hlogged.setProposal hp (.answered none) fun _ =>
      ⟨_, List.mem_append_right _ (List.mem_singleton.mpr rfl), rfl, rfl⟩
  | refuse k err =>
    obtain ⟨p, hp, -, rfl⟩ := refuse_eq_some_iff.mp hstep
    exact h.setProposal hp (.answered (some err)) (fun hans => by cases hans)
  | result r => exact h.result hstep
  | cancel r err =>
    obtain ⟨w, hw, -, rfl⟩ := cancel_eq_some_iff.mp hstep
    exact h.setWrite r ((h.writes w (List.mem_of_getElem? hw)).returned _)
  | respond r => exact h.respond hstep
  | internal type term data =>
    obtain ⟨-, rfl⟩ := internal_eq_some_iff.mp hstep
    exact h.append type term data
  | commit length =>
    obtain ⟨-, rfl⟩ := commit_eq_some_iff.mp hstep
    exact ⟨h.answered, h.writes, h.acked⟩
  | ready count =>
    obtain ⟨-, node, -, rfl⟩ := ready_eq_some_iff.mp hstep
    exact ⟨h.answered, h.writes, h.acked⟩
  | restart =>
    obtain ⟨engine, restored, -, rfl⟩ := restart_eq_some_iff.mp hstep
    exact ⟨fun _ hp => absurd hp List.not_mem_nil, fun _ hw => absurd hw List.not_mem_nil,
      fun _ hadd => absurd hadd List.not_mem_nil⟩

end Tracked

/-! ## Applied adds are live -/

/-- The engine while the loop has applied `count` entries of its next batch. Readers may come
in between any two entries. -/
def engineDuring (env : Env τ) (s : State alg τ) (count : ℕ) : Engine alg :=
  (s.node.applyEntries env ((s.log.drop s.applied).take count)).engine

section Join

variable [SemilatticeSup σ] [OrderBot σ]

/-- The adds that have been applied are in the engine. -/
structure LiveInv (env : Env τ) (s : State alg τ) : Prop where
  applied_le : s.applied ≤ s.committed
  committed_le : s.committed ≤ s.log.length
  live : ∀ e ∈ s.log.take s.applied, ∀ group id, e.Carries env.proto (addCommand group id) →
    ∃ sk, s.node.engine.groups[group]? = some sk ∧ alg.single id ≤ sk

/-- So they are in the middle of a batch, with the ones that the batch has applied. -/
theorem LiveInv.engineDuring (halg : alg.IsJoin) {env : Env τ} (hproto : env.proto.Lawful)
    {s : State alg τ} (h : LiveInv env s) {count : ℕ} {e : Entry}
    (he : e ∈ s.log.take (s.applied + count)) {group : GoString} {id : UInt64}
    (hcarries : e.Carries env.proto (addCommand group id)) :
    ∃ sk, (engineDuring env s count).groups[group]? = some sk ∧ alg.single id ≤ sk := by
  unfold RaftMode.engineDuring
  rw [Node.applyEntries_groups halg]
  rw [List.take_add, List.mem_append] at he
  rcases he with hold | hnew
  · obtain ⟨sk, hsk, hle⟩ := h.live e hold group id hcarries
    obtain ⟨sk', hsk', hle'⟩ := getElem?_foldl_joinOpt_mono hsk _
    exact ⟨sk', hsk', hle.trans hle'⟩
  · apply getElem?_foldl_joinOpt_of_mem
    refine List.mem_map.mpr ⟨e, hnew, ?_⟩
    rw [Entry.update_of_carries hproto hcarries]
    rfl

omit [OrderBot σ] in
theorem liveInv_init (env : Env τ) : LiveInv env (init env alg) :=
  ⟨le_rfl, le_rfl, fun _ he => absurd he List.not_mem_nil⟩

omit [OrderBot σ] in
theorem LiveInv.extends {env : Env τ} {s s' : State alg τ} (h : LiveInv env s)
    (hext : Extends s s') : LiveInv env s' := by
  refine ⟨?_, hext.committed_le h.committed_le, ?_⟩
  · rw [hext.applied]
    exact h.applied_le.trans hext.committed
  · rw [hext.take_applied (h.applied_le.trans h.committed_le), hext.node]
    exact h.live

theorem LiveInv.step (halg : alg.IsJoin) {env : Env τ} (hproto : env.proto.Lawful)
    {s s' : State alg τ} (h : LiveInv env s) {l : Label}
    (hstep : RaftMode.step env s l = some s') : LiveInv env s' := by
  rcases step_cases hstep with ⟨count, -, hready⟩ | ⟨-, hrestart⟩ | hext
  · obtain ⟨hcount, node, hnode, rfl⟩ := ready_eq_some_iff.mp hready
    refine ⟨hcount, h.committed_le, fun e he group id hcarries => ?_⟩
    -- the batch leaves the engine as it is after its last entry
    have hlive := h.engineDuring halg hproto he hcarries
    unfold RaftMode.engineDuring at hlive
    rw [Node.applyEntries_groups halg] at hlive
    dsimp only
    rw [(Node.ready_cases halg hnode).1]
    exact hlive
  · obtain ⟨engine, restored, -, rfl⟩ := restart_eq_some_iff.mp hrestart
    exact ⟨le_rfl, le_rfl, fun _ he => absurd he List.not_mem_nil⟩
  · exact h.extends hext

end Join

/-! ## Reading -/

/-- The owner's `Query` is answered from the sketch of the group, whatever `stale_ok` is. -/
theorem query_of_getElem? {ι N : Type} [DecidableEq ι] (net : Network ι N)
    (call : Cluster.Call ι alg N) (i : ι) {c : Cluster ι alg N} {group : GoString} {sk : σ}
    (hgroup : group ≠ []) (howner : (c.servers i).forwardTo net.sum32 group = none)
    (hsk : (c.servers i).engine.groups[group]? = some sk) (staleOk : Bool) :
    Cluster.query net call i group staleOk c
      = (c, .ok (.cardinality group (alg.cardinality sk))) := by
  have hcard : (c.servers i).engine.cardinality group = .ok (alg.cardinality sk) := by
    unfold Engine.cardinality
    rw [hsk]
  unfold Cluster.query
  rw [if_neg hgroup, howner]
  simp only [hcard]

/-- **What a query sees of an acknowledged add.** In every run of the process: when the add
of `id` to `group` has been acknowledged, an entry of it has been put into the log. From then on, at
every point at which that entry has been applied, in the middle of a batch too, the engine has a
sketch of the group that contains `id`, and the owner's `Query` is answered from that sketch,
whether or not the request allows a stale answer. -/
theorem acked_adds_read (sum64 : Bytes → UInt64) (env : Env τ)
    (hproto : env.proto.Lawful) (labels : List Label) (s : State (Hll.algorithm sum64) τ)
    (hrun : run (step env) (init env (Hll.algorithm sum64)) labels = some s)
    (group : GoString) (id : UInt64) (hacked : (group, id) ∈ s.acked) :
    ∃ e ∈ s.log, e.Carries env.proto (addCommand group id) ∧
      ∀ (after : List Label) (s' : State (Hll.algorithm sum64) τ) (count : ℕ),
        run (step env) s after = some s' → e ∈ s'.log.take (s'.applied + count) →
        ∃ sk, (engineDuring env s' count).groups[group]? = some sk ∧ sk.Contains sum64 id ∧
          ∀ {ι N : Type} [DecidableEq ι] (net : Network ι N)
            (call : Cluster.Call ι (Hll.algorithm sum64) N) (i : ι)
            (c : Cluster ι (Hll.algorithm sum64) N) (staleOk : Bool),
            (c.servers i).forwardTo net.sum32 group = none →
            (c.servers i).engine = engineDuring env s' count →
            Cluster.query net call i group staleOk c
              = (c, .ok (.cardinality group sk.cardinality)) := by
  have halg := Hll.isJoin sum64
  have htracked : Tracked env.proto s :=
    invariant_of_run (Tracked.init env _) (fun _ _ _ h hstep => h.step hstep) hrun
  obtain ⟨hgroup, e, he, hcarries⟩ := htracked.acked _ hacked
  refine ⟨e, he, hcarries, fun after s' count hafter happlied => ?_⟩
  have hrun' : run (step env) (init env (Hll.algorithm sum64)) (labels ++ after) = some s' :=
    run_append_eq_some.mpr ⟨s, hrun, hafter⟩
  have hlive : LiveInv env s' :=
    invariant_of_run (liveInv_init env) (fun _ _ _ h hstep => h.step halg hproto hstep) hrun'
  obtain ⟨sk, hsk, hle⟩ := hlive.engineDuring halg hproto happlied hcarries
  refine ⟨sk, hsk, (Hll.Sketch.contains_iff sum64 sk id).mpr hle, ?_⟩
  intro ι N _ net call i c staleOk howner hengine
  rw [← hengine] at hsk
  exact query_of_getElem? net call i hgroup howner hsk staleOk

/-! ## Two runs -/

/-- The add of id 5 is acknowledged, then committed and applied, then read. -/
theorem acked_adds_read_applied :
    ∃ s, run (step savingEnv) (init savingEnv (Hll.algorithm Murmur3.sum64)) appliedLabels
        = some s ∧
      (str "g", 5) ∈ s.acked ∧
      ∃ sk, (engineDuring savingEnv s 0).groups[str "g"]? = some sk ∧
        sk.Contains Murmur3.sum64 5 := by
  have hacked : (run (step savingEnv) (init savingEnv (Hll.algorithm Murmur3.sum64))
      (bootLabels ++ addLabels)).map (fun s => (s.acked, s.log))
        = some ([(str "g", 5)], bootLog ++ [addFive 2 3]) := by
    decide +kernel
  have happlied : (run (step savingEnv) (init savingEnv (Hll.algorithm Murmur3.sum64))
      appliedLabels).map (fun s => (s.acked, s.log.take s.applied))
        = some ([(str "g", 5)], bootLog ++ [addFive 2 3]) := by
    decide +kernel
  obtain ⟨s, hs, hvalues⟩ := Option.map_eq_some_iff.mp hacked
  obtain ⟨hs_acked, hs_log⟩ := Prod.mk.inj hvalues
  obtain ⟨s', hs', hvalues'⟩ := Option.map_eq_some_iff.mp happlied
  obtain ⟨hs'_acked, hs'_applied⟩ := Prod.mk.inj hvalues'
  -- the second run continues the first one
  obtain ⟨t, ht, hafter⟩ := run_append_eq_some.mp hs'
  obtain rfl : s = t := Option.some.inj (hs.symm.trans ht)
  have hmem : (str "g", 5) ∈ s.acked := by
    rw [hs_acked]
    exact List.mem_singleton.mpr rfl
  obtain ⟨e, he, -, hread⟩ := acked_adds_read Murmur3.sum64 savingEnv
    Protobuf.codec_lawful _ s hs (str "g") 5 hmem
  -- all of the log has been applied
  obtain ⟨sk, hsk, hcontains, -⟩ := hread _ s' 0 hafter (by
    rw [Nat.add_zero, hs'_applied, ← hs_log]
    exact he)
  exact ⟨s', hs', by rw [hs'_acked]; exact List.mem_singleton.mpr rfl, sk, hsk, hcontains⟩

/-- **An acknowledged add is not read.** The add has been acknowledged and its entry is not
yet applied: a query that does not allow a stale answer finds no sketch of the group and is
answered with zero. -/
theorem acked_add_not_read :
    ∃ s, run (step savingEnv) (init savingEnv (Hll.algorithm Murmur3.sum64))
        (bootLabels ++ addLabels) = some s ∧
      (str "g", 5) ∈ s.acked ∧ s.node.engine.groups[str "g"]? = none ∧
      ∀ call, Cluster.query TwoServers.alone call () (str "g") false
          ⟨fun _ => Server.new s.node.engine s.node.store (some ()) none [], [], []⟩
        = (⟨fun _ => Server.new s.node.engine s.node.store (some ()) none [], [], []⟩,
            .ok (.cardinality (str "g") 0)) := by
  have hvalues : (run (step savingEnv) (init savingEnv (Hll.algorithm Murmur3.sum64))
      (bootLabels ++ addLabels)).map
        (fun s => (s.acked, s.node.engine.groups[str "g"]?.isNone))
          = some ([(str "g", 5)], true) := by
    decide +kernel
  obtain ⟨s, hrun, hs⟩ := Option.map_eq_some_iff.mp hvalues
  obtain ⟨hacked, hnone⟩ := Prod.mk.inj hs
  have hgroup : s.node.engine.groups[str "g"]? = none := Option.isNone_iff_eq_none.mp hnone
  have hcard : s.node.engine.cardinality (str "g") = .error (.unknownGroup (str "g")) := by
    unfold Engine.cardinality
    rw [hgroup]
  refine ⟨s, hrun, ?_, hgroup, fun call => ?_⟩
  · rw [hacked]
    exact List.mem_singleton.mpr rfl
  · unfold Cluster.query
    rw [if_neg (by decide)]
    simp only [Server.new, Server.forwardTo, hcard]

end RaftMode
end CardinalityTracker
