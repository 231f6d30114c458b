import CardinalityTracker.Raft.Process

/-!
# What each step can do

One lemma for each step of the process in Raft mode: when the step can be taken, and the state it
leads to. Later files reason from these and do not unfold the steps.
-/

namespace CardinalityTracker
namespace RaftMode

variable {σ τ : Type} {alg : Algorithm σ} {s s' : State alg τ}

/-! ## Handlers -/

/-- The handler submits its next id, or `proto.Marshal` refuses the command. -/
theorem propose_eq_some_iff {proto : Proto} {r : ℕ} :
    propose proto r s = some s' ↔
      ∃ (w : Write) (id : UInt64), s.writes[r]? = some w ∧ w.ids[w.done]? = some id ∧
        w.phase = .running ∧
        ((∃ err, proto.marshal (addCommand w.group id) = .error err ∧
            s' = s.setWrite r { w with phase := .returned (some (.raftPropose err)) }) ∨
          ∃ data, proto.marshal (addCommand w.group id) = .ok data ∧
            s.proposals.countP (fun p => p.state = .queued) < proposeCap ∧
            s' = { s.setWrite r { w with phase := .waiting s.proposals.length } with
              proposals := s.proposals ++ [⟨data, .queued⟩] }) := by
  simp only [propose, Option.bind_eq_bind, Option.bind_eq_some_iff, Option.guard_eq_some',
    exists_const]
  refine exists_congr fun w => ?_
  constructor
  · rintro ⟨hw, id, hid, hrunning, h⟩
    refine ⟨id, hw, hid, hrunning, ?_⟩
    split at h
    · next err hmarshal => exact Or.inl ⟨err, hmarshal, (Option.some.inj h).symm⟩
    · next data hmarshal =>
      simp only [Option.bind_eq_some_iff, Option.guard_eq_some', exists_const] at h
      exact Or.inr ⟨data, hmarshal, h.1, (Option.some.inj h.2).symm⟩
  · rintro ⟨id, hw, hid, hrunning, ⟨err, hmarshal, rfl⟩ | ⟨data, hmarshal, hroom, rfl⟩⟩
    · exact ⟨hw, id, hid, hrunning, by rw [hmarshal]; rfl⟩
    · refine ⟨hw, id, hid, hrunning, ?_⟩
      simp only [hmarshal, Option.bind_eq_some_iff, Option.guard_eq_some', exists_const]
      exact ⟨hroom, rfl⟩

/-- The handler gets nil and goes on to its next id, or gets an error and returns it. -/
theorem result_eq_some_iff {r : ℕ} :
    result r s = some s' ↔
      ∃ (w : Write) (k : ℕ) (p : Proposal), s.writes[r]? = some w ∧ w.phase = .waiting k ∧
        s.proposals[k]? = some p ∧
        ((p.state = .answered none ∧
            s' = s.setWrite r { w with done := w.done + 1, phase := .running }) ∨
          ∃ err, p.state = .answered (some err) ∧
            s' = s.setWrite r { w with phase := .returned (some (.raftPropose err)) }) := by
  simp only [result, Option.bind_eq_bind, Option.bind_eq_some_iff]
  refine exists_congr fun w => ?_
  constructor
  · rintro ⟨hw, h⟩
    split at h
    · next k hwaiting =>
      obtain ⟨p, hp, h⟩ := Option.bind_eq_some_iff.mp h
      refine ⟨k, p, hw, hwaiting, hp, ?_⟩
      split at h
      · next hans => exact Or.inl ⟨hans, (Option.some.inj h).symm⟩
      · next err hans => exact Or.inr ⟨err, hans, (Option.some.inj h).symm⟩
      · cases h
    · cases h
  · rintro ⟨k, p, hw, hwaiting, hp, ⟨hans, rfl⟩ | ⟨err, hans, rfl⟩⟩
    · refine ⟨hw, ?_⟩
      simp only [hwaiting, hp, hans, Option.bind_some]
      rfl
    · refine ⟨hw, ?_⟩
      simp only [hwaiting, hp, hans, Option.bind_some]
      rfl

theorem cancel_eq_some_iff {r : ℕ} {err : GoString} :
    cancel r err s = some s' ↔
      ∃ w : Write, s.writes[r]? = some w ∧ w.inProposeAdd = true ∧
        s' = s.setWrite r { w with phase := .returned (some (.raftPropose err)) } := by
  simp only [cancel, Option.bind_eq_bind, Option.bind_eq_some_iff, Option.guard_eq_some',
    exists_const, Option.pure_def, Option.some.injEq, @eq_comm _ s']

theorem respond_eq_some_iff {r : ℕ} :
    respond r s = some s' ↔
      ∃ w : Write, s.writes[r]? = some w ∧ (w.phase = .running ∧ w.done = w.ids.length) ∧
        s' = { s.setWrite r { w with phase := .returned none } with
          acked := s.acked ++ w.ids.map fun id => (w.group, id) } := by
  simp only [respond, Option.bind_eq_bind, Option.bind_eq_some_iff, Option.guard_eq_some',
    exists_const, Option.pure_def, Option.some.injEq, @eq_comm _ s']
  rfl

/-! ## Proposals -/

theorem receive_cases (h : receive s = some s') :
    ∃ (k : ℕ) (p : Proposal), s.proposals[k]? = some p ∧ p.state = .queued ∧
      s' = s.setProposal k { p with state := .proposed } := by
  simp only [receive, Option.bind_eq_bind, Option.bind_eq_some_iff] at h
  obtain ⟨k, hk, p, hp, h⟩ := h
  refine ⟨k, p, hp, ?_, (Option.some.inj h).symm⟩
  obtain ⟨hlt, hfound, -⟩ := List.findIdx?_eq_some_iff_getElem.mp hk
  obtain ⟨_, rfl⟩ := List.getElem?_eq_some_iff.mp hp
  exact of_decide_eq_true hfound

theorem accept_eq_some_iff {k term : ℕ} :
    accept k term s = some s' ↔
      ∃ p : Proposal, s.proposals[k]? = some p ∧ p.state = .proposed ∧
        s' = (s.setProposal k { p with state := .answered none }).append .normal term p.data := by
  simp only [accept, Option.bind_eq_bind, Option.bind_eq_some_iff, Option.guard_eq_some',
    exists_const, Option.pure_def, Option.some.injEq, @eq_comm _ s']

theorem refuse_eq_some_iff {k : ℕ} {err : GoString} :
    refuse k err s = some s' ↔
      ∃ p : Proposal, s.proposals[k]? = some p ∧ p.state = .proposed ∧
        s' = s.setProposal k { p with state := .answered (some err) } := by
  simp only [refuse, Option.bind_eq_bind, Option.bind_eq_some_iff, Option.guard_eq_some',
    exists_const, Option.pure_def, Option.some.injEq, @eq_comm _ s']

/-! ## The library and the loop -/

theorem internal_eq_some_iff {type : EntryType} {term : ℕ} {data : Bytes} :
    internal type term data s = some s' ↔
      (type ≠ .normal ∨ data = []) ∧ s' = s.append type term data := by
  simp only [internal, Option.bind_eq_bind, Option.bind_eq_some_iff, Option.guard_eq_some',
    exists_const, Option.pure_def, Option.some.injEq, @eq_comm _ s']

theorem commit_eq_some_iff {length : ℕ} :
    commit length s = some s' ↔
      (s.committed ≤ length ∧ length ≤ s.log.length) ∧ s' = { s with committed := length } := by
  simp only [commit, Option.bind_eq_bind, Option.bind_eq_some_iff, Option.guard_eq_some',
    exists_const, Option.pure_def, Option.some.injEq, @eq_comm _ s']

/-- A batch of committed entries changes the node and the positions in the log. -/
theorem ready_eq_some_iff {env : Env τ} {count : ℕ} :
    ready env count s = some s' ↔
      s.applied + count ≤ s.committed ∧ ∃ node,
        s.node.ready env ⟨s.log.drop s.stable, (s.log.drop s.applied).take count⟩ = some node ∧
        s' = { s with node, stable := s.log.length, applied := s.applied + count } := by
  simp only [ready, Option.bind_eq_bind, Option.bind_eq_some_iff, Option.guard_eq_some',
    exists_const, Option.pure_def, Option.some.injEq, @eq_comm _ s']

/-- A restart keeps the store and what is owed; the rest is new. -/
theorem restart_eq_some_iff {env : Env τ} :
    restart env s = some s' ↔
      ∃ engine restored, restoreAll alg s.node.store = ((engine, restored), none) ∧
        s' = ⟨Node.new env engine s.node.store, [], 0, 0, 0, [], [], [], s.owed ++ s.acked⟩ := by
  unfold restart
  constructor
  · intro h
    split at h
    · cases h
    · next engine restored hrestore => exact ⟨engine, restored, hrestore, (Option.some.inj h).symm⟩
  · rintro ⟨engine, restored, hrestore, rfl⟩
    rw [hrestore]

end RaftMode
end CardinalityTracker
