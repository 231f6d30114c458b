import CardinalityTracker.Raft.Steps
import CardinalityTracker.Raft.SnapshotTheorems
import CardinalityTracker.Raft.WritePaths
import CardinalityTracker.Reference.Entries

/-!
# What survives a restart in Raft mode

An add is acknowledged when its proposal is in the log, and stored when its entry is applied.
The log is in memory, so a restart between the two loses an acknowledged add:
`acked_add_lost` is such a run. `acked_adds_survive` says that there is no other way to lose
one: if at every restart the entries of the acknowledged adds have been applied, then these
adds are in the engine from then on, through all later restarts.

The invariant needs only what `Extends` says of the steps that neither apply entries nor
restart the process: they leave the node alone and may extend the log.
-/

namespace CardinalityTracker
namespace RaftMode

open Lib EtcdStorage

variable {σ τ : Type} {alg : Algorithm σ}

/-! ## What the steps can do -/

/-- The node, what it has applied and what is owed stay as they are; the log may grow. -/
structure Extends (s s' : State alg τ) : Prop where
  node : s'.node = s.node
  applied : s'.applied = s.applied
  owed : s'.owed = s.owed
  log : s.log <+: s'.log
  committed : s.committed ≤ s'.committed
  committed_le : s.committed ≤ s.log.length → s'.committed ≤ s'.log.length

/-- A step that changes handlers, proposals and acknowledgements only. -/
theorem extends_local (s : State alg τ) (proposals : List Proposal) (writes : List Write)
    (acked : List (GoString × UInt64)) : Extends s { s with proposals, writes, acked } :=
  ⟨rfl, rfl, rfl, List.prefix_refl _, le_rfl, fun h => h⟩

theorem extends_append {s s' : State alg τ} (h : Extends s s') (type : EntryType) (term : ℕ)
    (data : Bytes) : Extends s (s'.append type term data) :=
  ⟨h.node, h.applied, h.owed, h.log.trans (List.prefix_append _ _), h.committed, fun hle => by
    have := h.committed_le hle
    simp only [State.append, List.length_append, List.length_singleton]
    omega⟩

/-- **Every step** applies a batch, restarts the process, or extends. -/
theorem step_cases {env : Env τ} {s s' : State alg τ} {l : Label} (h : step env s l = some s') :
    (∃ count, l = .ready count ∧ ready env count s = some s') ∨
      (l = .restart ∧ restart env s = some s') ∨ Extends s s' := by
  cases l with
  | ready count => exact Or.inl ⟨count, rfl, h⟩
  | restart => exact Or.inr (Or.inl ⟨rfl, h⟩)
  | submit group ids =>
    obtain rfl := Option.some.inj h
    exact Or.inr (Or.inr (extends_local s _ _ _))
  | propose r =>
    obtain ⟨w, id, -, -, -, ⟨err, -, rfl⟩ | ⟨data, -, -, rfl⟩⟩ := propose_eq_some_iff.mp h
    · exact Or.inr (Or.inr (extends_local s _ _ _))
    · exact Or.inr (Or.inr (extends_local s _ _ _))
  | receive =>
    obtain ⟨k, p, -, -, rfl⟩ := receive_cases h
    exact Or.inr (Or.inr (extends_local s _ _ _))
  | accept k term =>
    obtain ⟨p, -, -, rfl⟩ := accept_eq_some_iff.mp h
    exact Or.inr (Or.inr (extends_append (extends_local s _ _ _) _ _ _))
  | refuse k err =>
    obtain ⟨p, -, -, rfl⟩ := refuse_eq_some_iff.mp h
    exact Or.inr (Or.inr (extends_local s _ _ _))
  | result r =>
    obtain ⟨w, k, p, -, -, -, ⟨-, rfl⟩ | ⟨err, -, rfl⟩⟩ := result_eq_some_iff.mp h
    · exact Or.inr (Or.inr (extends_local s _ _ _))
    · exact Or.inr (Or.inr (extends_local s _ _ _))
  | cancel r err =>
    obtain ⟨w, -, -, rfl⟩ := cancel_eq_some_iff.mp h
    exact Or.inr (Or.inr (extends_local s _ _ _))
  | respond r =>
    obtain ⟨w, -, -, rfl⟩ := respond_eq_some_iff.mp h
    exact Or.inr (Or.inr (extends_local s _ _ _))
  | internal type term data =>
    obtain ⟨-, rfl⟩ := internal_eq_some_iff.mp h
    exact Or.inr (Or.inr (extends_append (extends_local s _ _ _) _ _ _))
  | commit length =>
    obtain ⟨⟨hle, hlength⟩, rfl⟩ := commit_eq_some_iff.mp h
    exact Or.inr (Or.inr ⟨rfl, rfl, rfl, List.prefix_refl _, hle, fun _ => hlength⟩)

/-- What had been applied of the log is what has been applied of the longer one. -/
theorem Extends.take_applied {s s' : State alg τ} (h : Extends s s')
    (hle : s.applied ≤ s.log.length) : s'.log.take s'.applied = s.log.take s.applied := by
  obtain ⟨rest, hrest⟩ := h.log
  rw [h.applied, ← hrest, List.take_append_of_le_length hle]

/-! ## The invariant -/

section Join

variable [SemilatticeSup σ] [OrderBot σ]

/-- The node represents a pair of maps with the stored one below, in which the adds that have
been applied and the ones that are owed are durable. -/
structure Inv (env : Env τ) (s : State alg τ) (c : Copies GoString σ compare) : Prop where
  represents : s.node.Represents c
  below : c.Below
  applied_le : s.applied ≤ s.committed
  committed_le : s.committed ≤ s.log.length
  applied : ∀ e ∈ s.log.take s.applied, ∀ group id,
    e.Carries env.proto (addCommand group id) → c.Durable group (alg.single id)
  owed : ∀ add ∈ s.owed, c.Durable add.1 (alg.single add.2)

omit [OrderBot σ] in
theorem inv_init (env : Env τ) : Inv env (init env alg) ⟨∅, ∅⟩ := by
  refine ⟨⟨rfl, holds_empty⟩, fun k w hw => ?_, le_rfl, le_rfl, fun e he => ?_, fun add hadd => ?_⟩
  · exact absurd hw (by simp)
  · exact absurd he List.not_mem_nil
  · exact absurd hadd List.not_mem_nil

omit [OrderBot σ] in
theorem Inv.extends {env : Env τ} {s s' : State alg τ} {c : Copies GoString σ compare}
    (h : Inv env s c) (hext : Extends s s') : Inv env s' c := by
  have hle : s.applied ≤ s.log.length := h.applied_le.trans h.committed_le
  refine ⟨?_, h.below, ?_, hext.committed_le h.committed_le, ?_, ?_⟩
  · rw [hext.node]
    exact h.represents
  · rw [hext.applied]
    exact h.applied_le.trans hext.committed
  · rw [hext.take_applied hle]
    exact h.applied
  · rw [hext.owed]
    exact h.owed

/-- A batch acts on the pair of maps as its committed entries do. -/
theorem ready_represents (halg : alg.IsJoin) {env : Env τ} (hsaves : ∀ k, env.out k = .ok)
    {n n' : Node alg τ} {rd : Ready} (h : n.ready env rd = some n')
    {c : Copies GoString σ compare} (hc : n.Represents c) :
    n'.Represents
      ((rd.committedEntries.map (Entry.update env.proto alg)).foldl Copies.apply c) := by
  obtain ⟨storage, live, rfl, hengine, hstore, -⟩ := Node.ready_applies h
  have hc' : Node.Represents { n with storage } c := hc
  have hready := Node.applyEntries_represents halg hsaves hc' rd.committedEntries
  unfold Node.Represents at hready ⊢
  rw [hengine, hstore]
  exact hready

/-- A batch makes the adds it applies durable. -/
theorem inv_ready (halg : alg.IsJoin) {env : Env τ} (hproto : env.proto.Lawful)
    (hsaves : ∀ k, env.out k = .ok) {s s' : State alg τ} {c : Copies GoString σ compare}
    (h : Inv env s c) {count : ℕ} (hstep : ready env count s = some s') :
    ∃ c', Inv env s' c' := by
  obtain ⟨hcount, node, hnode, rfl⟩ := ready_eq_some_iff.mp hstep
  set us := ((s.log.drop s.applied).take count).map (Entry.update env.proto alg) with hus
  have hbelow := Copies.below_foldl_apply h.below us
  refine ⟨us.foldl Copies.apply c, ready_represents halg hsaves hnode h.represents, hbelow, hcount,
    h.committed_le, fun e he group id hcarries => ?_, fun add hadd => ?_⟩
  · -- the entry was applied before, or is one of this batch
    have hsplit : s.log.take (s.applied + count)
        = s.log.take s.applied ++ (s.log.drop s.applied).take count := List.take_add ..
    rcases List.mem_append.mp (hsplit ▸ he) with hold | hnew
    · exact (h.applied e hold group id hcarries).foldl_apply h.below us
    · have hupdate : e.update env.proto alg = ⟨group, some (alg.single id), true⟩ :=
        Entry.update_of_carries hproto hcarries
      have hmem : e.update env.proto alg ∈ us := List.mem_map_of_mem hnew
      rw [hupdate] at hmem
      exact Copies.durable_foldl_of_mem h.below hmem rfl rfl
  · exact (h.owed add hadd).foldl_apply h.below us

/-- The condition on a restart: the entry of every acknowledged add has been applied. -/
def AppliedBeforeRestart (env : Env τ) (s : State alg τ) (l : Label) : Prop :=
  l = .restart → ∀ add ∈ s.acked, ∃ e ∈ s.log.take s.applied,
    e.Carries env.proto (addCommand add.1 add.2)

/-- A restart is always possible, and what was acknowledged and applied is durable. -/
theorem inv_restart (halg : alg.IsJoin) {env : Env τ} {s : State alg τ}
    {c : Copies GoString σ compare} (h : Inv env s c) :
    ∃ s', restart env s = some s' ∧
      (AppliedBeforeRestart env s .restart → Inv env s' c.restart) := by
  refine ⟨_, restart_eq_some_iff.mpr ⟨_, _, restoreAll_of_holds halg h.represents.2, rfl⟩,
    fun happlied => ⟨⟨rfl, h.represents.2⟩, c.below_restart, le_rfl, le_rfl,
    fun e he => absurd he List.not_mem_nil, fun add hadd => ?_⟩⟩
  -- what was owed is durable already, and the condition says so of what was acknowledged
  rcases List.mem_append.mp hadd with howed | hacked
  · exact h.owed add howed
  · obtain ⟨e, he, hcarries⟩ := happlied rfl add hacked
    exact h.applied e he add.1 add.2 hcarries

/-- One step of a run that meets the condition. -/
theorem inv_step (halg : alg.IsJoin) {env : Env τ} (hproto : env.proto.Lawful)
    (hsaves : ∀ k, env.out k = .ok) {s s' : State alg τ} {l : Label}
    (h : ∃ c, Inv env s c) (hcond : AppliedBeforeRestart env s l)
    (hstep : step env s l = some s') : ∃ c, Inv env s' c := by
  obtain ⟨c, h⟩ := h
  rcases step_cases hstep with ⟨count, -, hready⟩ | ⟨rfl, hrestart⟩ | hext
  · exact inv_ready halg hproto hsaves h hready
  · obtain ⟨t, ht, hinv⟩ := inv_restart halg h
    obtain rfl : t = s' := Option.some.inj (ht.symm.trans hrestart)
    exact ⟨_, hinv hcond⟩
  · exact ⟨c, h.extends hext⟩

end Join

/-- **Acknowledged adds that were applied survive.** In every run of the process whose
restarts all find the entries of the acknowledged adds applied, with saves that succeed, in
every state reached: each add that was acknowledged before a restart is contained in the
sketch of its group, and the process can be restarted. -/
theorem acked_adds_survive (sum64 : Bytes → UInt64) (env : Env τ) (hproto : env.proto.Lawful)
    (hsaves : ∀ k, env.out k = .ok) (labels : List Label)
    (hrestarts : Meets (step env) (fun _ s l => AppliedBeforeRestart env s l)
      (init env (Hll.algorithm sum64)) labels)
    (s : State (Hll.algorithm sum64) τ)
    (hrun : run (step env) (init env (Hll.algorithm sum64)) labels = some s) :
    (∀ add ∈ s.owed, ∃ sk, s.node.engine.groups[add.1]? = some sk ∧ sk.Contains sum64 add.2) ∧
      ∃ s', step env s .restart = some s' := by
  have halg := Hll.isJoin sum64
  have hnext : ∀ (_ : List Label) (t : State (Hll.algorithm sum64) τ) l t', (∃ c, Inv env t c) →
      AppliedBeforeRestart env t l → step env t l = some t' → ∃ c, Inv env t' c :=
    fun _ _ _ _ h hcond hstep => inv_step halg hproto hsaves h hcond hstep
  obtain ⟨c, h⟩ := invariant_of_meets ⟨_, inv_init env⟩ hnext hrestarts hrun
  refine ⟨fun add hadd => ?_, ?_⟩
  · obtain ⟨sk, hsk, hle⟩ := (h.owed add hadd).live h.below
    rw [h.represents.1]
    exact ⟨sk, hsk, (Hll.Sketch.contains_iff sum64 sk add.2).mpr hle⟩
  · obtain ⟨s', hs', -⟩ := inv_restart halg h
    exact ⟨s', hs'⟩

/-! ## Two runs -/

/-- The bootstrap of a node: the configuration entry, then the empty entry of the leader. -/
def bootLabels : List Label :=
  [.internal .confChange 1 [8, 0, 16, 0, 24, 1], .commit 1, .ready 1, .internal .normal 2 [],
    .commit 2, .ready 1]

/-- An `Add` of id 5 to the group `g`, up to its response. -/
def addLabels : List Label :=
  [.submit (str "g") [5], .propose 0, .receive, .accept 0 2, .result 0, .respond 0]

/-- The add is committed and applied. -/
def appliedLabels : List Label := bootLabels ++ addLabels ++ [.commit 3, .ready 1]

/-- What has been acknowledged and applied after these labels. -/
theorem run_appliedLabels :
    (run (step savingEnv) (init savingEnv (Hll.algorithm Murmur3.sum64)) appliedLabels).map
        (fun s => (s.acked, (s.log.take s.applied).getLast?))
      = some ([(str "g", 5)], some (addFive 2 3)) := by
  decide +kernel

/-- After that, a restart keeps it. -/
theorem acked_adds_survive_applied :
    ∃ s, run (step savingEnv) (init savingEnv (Hll.algorithm Murmur3.sum64))
        (appliedLabels ++ [.restart]) = some s ∧
      (str "g", 5) ∈ s.owed ∧
      ∃ sk, s.node.engine.groups[str "g"]? = some sk ∧ sk.Contains Murmur3.sum64 5 := by
  obtain ⟨t, ht, hvalues⟩ := Option.map_eq_some_iff.mp run_appliedLabels
  obtain ⟨hacked, hlast⟩ := Prod.mk.inj hvalues
  -- these labels have no restart
  have hmeets : Meets (step savingEnv) (fun _ s l => AppliedBeforeRestart savingEnv s l)
      (init savingEnv (Hll.algorithm Murmur3.sum64)) appliedLabels :=
    meets_of_forall fun l hl _ _ hrestart => absurd (hrestart ▸ hl) (by decide)
  -- so another one is possible
  obtain ⟨-, s, hs⟩ := acked_adds_survive Murmur3.sum64 savingEnv Protobuf.codec_lawful
    (fun _ => rfl) appliedLabels hmeets t ht
  have hrun : run (step savingEnv) (init savingEnv (Hll.algorithm Murmur3.sum64))
      (appliedLabels ++ [.restart]) = some s := run_concat_eq_some.mpr ⟨t, ht, hs⟩
  -- the entry of the add is the last one that was applied
  have hcond : AppliedBeforeRestart savingEnv t .restart := by
    intro _ add hadd
    rw [hacked, List.mem_singleton] at hadd
    subst hadd
    exact ⟨addFive 2 3, List.mem_of_getLast? hlast, rfl, by decide +kernel⟩
  have hmeets' : Meets (step savingEnv) (fun _ s l => AppliedBeforeRestart savingEnv s l)
      (init savingEnv (Hll.algorithm Murmur3.sum64)) (appliedLabels ++ [.restart]) := by
    refine hmeets.concat fun t' ht' => ?_
    obtain rfl : t = t' := Option.some.inj (ht.symm.trans ht')
    exact hcond
  have howed : (str "g", 5) ∈ s.owed := by
    obtain ⟨engine, restored, -, rfl⟩ := restart_eq_some_iff.mp hs
    rw [hacked]
    exact List.mem_append_right _ List.mem_cons_self
  obtain ⟨hcontained, -⟩ := acked_adds_survive Murmur3.sum64 savingEnv Protobuf.codec_lawful
    (fun _ => rfl) _ hmeets' s hrun
  exact ⟨s, hrun, howed, hcontained _ howed⟩

/-- **An acknowledged add is lost.** The process ends after the response of the add and before
its entry is applied: nothing of it is left after the restart. -/
theorem acked_add_lost :
    ∃ s, run (step savingEnv) (init savingEnv (Hll.algorithm Murmur3.sum64))
        (bootLabels ++ addLabels ++ [.restart]) = some s ∧
      (str "g", 5) ∈ s.owed ∧ s.node.engine.groups[str "g"]? = none := by
  have hvalues : (run (step savingEnv) (init savingEnv (Hll.algorithm Murmur3.sum64))
      (bootLabels ++ addLabels ++ [.restart])).map
        (fun s => (s.owed, s.node.engine.groups[str "g"]?.isNone))
          = some ([(str "g", 5)], true) := by
    decide +kernel
  obtain ⟨s, hrun, hs⟩ := Option.map_eq_some_iff.mp hvalues
  obtain ⟨howed, hnone⟩ := Prod.mk.inj hs
  refine ⟨s, hrun, ?_, Option.isNone_iff_eq_none.mp hnone⟩
  rw [howed]
  exact List.mem_singleton.mpr rfl

end RaftMode
end CardinalityTracker
