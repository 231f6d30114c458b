import CardinalityTracker.Raft.Reads
import CardinalityTracker.Standalone

/-!
# Where the entries of the log come from

A handler submits the ids of its request one after another, each as a proposal of its own, and goes
on when the proposal is answered. Handlers run concurrently, contexts expire while a proposal is
under way, and the library accepts proposals in any order. `adds_logged_once` says what is left of
that in the log: its commands are ids of requests, no id of a request is there twice, and the ids
that a handler has got an answer for are there. `only_submitted` follows the ids on into the engine
and the store, over restarts and with any outcomes of the saves.

The ghost of the proof is where each proposal comes from, a request and a position in it
(`Provenance`). It is not a part of the state: the steps that do not propose leave it alone.
-/

namespace CardinalityTracker
namespace RaftMode

open Lib EtcdStorage

variable {σ τ : Type} {alg : Algorithm σ}

/-- The entries of a log that carry a command. -/
def commands (log : List Entry) : List Entry :=
  log.filter fun e => e.type = .normal ∧ e.data ≠ []

theorem commands_concat (log : List Entry) (e : Entry) :
    commands (log ++ [e])
      = if e.type = .normal ∧ e.data ≠ [] then commands log ++ [e] else commands log := by
  unfold commands
  rw [List.filter_append, List.filter_singleton]
  by_cases h : e.type = .normal ∧ e.data ≠ []
  · rw [if_pos h, cond_eq_ite, if_pos (decide_eq_true h)]
  · rw [if_neg h, cond_eq_ite, if_neg (by simpa using h), List.append_nil]

theorem normal_of_mem_commands {log : List Entry} {e : Entry} (h : e ∈ commands log) :
    e.type = .normal :=
  (of_decide_eq_true (List.mem_filter.mp h).2).1

/-- The data is the encoding of the id at position `o.2` of request `o.1`. -/
def Requested (proto : Proto) (writes : List Write) (data : Bytes) (o : ℕ × ℕ) : Prop :=
  ∃ (w : Write) (id : UInt64), writes[o.1]? = some w ∧ w.ids[o.2]? = some id ∧
    proto.marshal (addCommand w.group id) = .ok data

/-- How many ids of the request may have been submitted. -/
def Write.begun (w : Write) : ℕ := if w.phase = .running then w.done else w.done + 1

/-- `origins` says where the proposals come from, and `logged` where the commands of the log do. -/
structure Provenance (proto : Proto) (s : State alg τ) (origins logged : List (ℕ × ℕ)) : Prop where
  length_eq : origins.length = s.proposals.length
  nodup : origins.Nodup
  requested : ∀ (k : ℕ) (p : Proposal) o, s.proposals[k]? = some p → origins[k]? = some o →
    Requested proto s.writes p.data o
  begun : ∀ o ∈ origins, ∃ w : Write, s.writes[o.1]? = some w ∧ o.2 < w.begun
  waiting : ∀ (r : ℕ) (w : Write) k, s.writes[r]? = some w → w.phase = .waiting k →
    origins[k]? = some (r, w.done)
  answered : ∀ (k : ℕ) (p : Proposal) o, s.proposals[k]? = some p → origins[k]? = some o →
    (p.state = .answered none ↔ o ∈ logged)
  log : List.Forall₂ (fun e o => Requested proto s.writes e.data o) (commands s.log) logged
  logged_nodup : logged.Nodup
  logged_subset : logged ⊆ origins
  done : ∀ (r : ℕ) (w : Write) j, s.writes[r]? = some w → j < w.done → (r, j) ∈ logged
  returned : ∀ (r : ℕ) (w : Write), s.writes[r]? = some w → w.phase = .returned none →
    w.done = w.ids.length

/-- The requests are still there, each with its group and ids. -/
def KeepsRequests (writes writes' : List Write) : Prop :=
  ∀ (r : ℕ) (w : Write), writes[r]? = some w →
    ∃ w' : Write, writes'[r]? = some w' ∧ w'.group = w.group ∧ w'.ids = w.ids

theorem Requested.mono {proto : Proto} {writes writes' : List Write} {data : Bytes} {o : ℕ × ℕ}
    (h : Requested proto writes data o) (hkeeps : KeepsRequests writes writes') :
    Requested proto writes' data o := by
  obtain ⟨w, id, hw, hid, hdata⟩ := h
  obtain ⟨w', hw', hgroup, hids⟩ := hkeeps o.1 w hw
  exact ⟨w', id, hw', hids ▸ hid, hgroup ▸ hdata⟩

theorem keepsRequests_set {writes : List Write} {r : ℕ} {w w' : Write} (hw : writes[r]? = some w)
    (hgroup : w'.group = w.group) (hids : w'.ids = w.ids) :
    KeepsRequests writes (writes.set r w') := by
  intro j v hv
  by_cases hj : r = j
  · subst hj
    obtain rfl : w = v := Option.some.inj (hw.symm.trans hv)
    obtain ⟨hlt, -⟩ := List.getElem?_eq_some_iff.mp hw
    exact ⟨w', List.getElem?_set_self hlt, hgroup, hids⟩
  · exact ⟨v, (List.getElem?_set_ne hj).trans hv, rfl, rfl⟩

theorem keepsRequests_append (writes extra : List Write) :
    KeepsRequests writes (writes ++ extra) := by
  intro r w hw
  obtain ⟨hlt, -⟩ := List.getElem?_eq_some_iff.mp hw
  exact ⟨w, (List.getElem?_append_left hlt).trans hw, rfl, rfl⟩

/-- The write at a position after one of them has changed. -/
theorem getElem?_set_cases {α : Type} {l : List α} {r j : ℕ} {a b : α}
    (h : (l.set r a)[j]? = some b) : (r = j ∧ b = a) ∨ (r ≠ j ∧ l[j]? = some b) := by
  by_cases hj : r = j
  · subst hj
    refine Or.inl ⟨rfl, ?_⟩
    obtain ⟨hlt, -⟩ := List.getElem?_eq_some_iff.mp h
    rw [List.length_set] at hlt
    rw [List.getElem?_set_self hlt] at h
    exact (Option.some.inj h).symm
  · rw [List.getElem?_set_ne hj] at h
    exact Or.inr ⟨hj, h⟩

/-- The element at a position after one has been appended. -/
theorem getElem?_concat_cases {α : Type} {l : List α} {j : ℕ} {a b : α}
    (h : (l ++ [a])[j]? = some b) : l[j]? = some b ∨ (j = l.length ∧ b = a) := by
  by_cases hj : j < l.length
  · rw [List.getElem?_append_left hj] at h
    exact Or.inl h
  · rw [List.getElem?_append_right (not_lt.mp hj), List.getElem?_singleton] at h
    split at h
    · exact Or.inr ⟨by omega, (Option.some.inj h).symm⟩
    · cases h

/-- The elements of two parallel lists at one position, after both have been extended. -/
theorem getElem?_concat_parallel {α β : Type} {l : List α} {l' : List β}
    (hlength : l'.length = l.length) {k : ℕ} {a p : α} {b o : β}
    (hp : (l ++ [a])[k]? = some p) (ho : (l' ++ [b])[k]? = some o) :
    (l[k]? = some p ∧ l'[k]? = some o) ∨ (p = a ∧ o = b) := by
  obtain hp | ⟨rfl, rfl⟩ := getElem?_concat_cases hp
  · obtain ho | ⟨rfl, -⟩ := getElem?_concat_cases ho
    · exact Or.inl ⟨hp, ho⟩
    · rw [hlength, List.getElem?_length] at hp
      cases hp
  · rw [← hlength, List.getElem?_concat_length] at ho
    exact Or.inr ⟨rfl, (Option.some.inj ho).symm⟩

/-- The data of a proposal is not empty. -/
theorem Requested.data_ne_nil {proto : Proto} (hproto : proto.Lawful) {writes : List Write}
    {data : Bytes} {o : ℕ × ℕ} (h : Requested proto writes data o) : data ≠ [] := by
  obtain ⟨w, id, -, -, hdata⟩ := h
  intro hnil
  have hdecode := hproto.unmarshal_marshal _ _ hdata
  rw [hnil, hproto.unmarshal_nil, Except.ok.injEq] at hdecode
  exact absurd (congrArg Command.type hdecode) (show ([] : GoString) ≠ typeAdd by decide)

namespace Provenance

variable {proto : Proto} {s : State alg τ} {origins logged : List (ℕ × ℕ)}

/-- A process that has just started. -/
theorem empty (hproposals : s.proposals = []) (hwrites : s.writes = []) (hlog : s.log = []) :
    Provenance proto s [] [] where
  length_eq := by rw [hproposals]; rfl
  nodup := List.nodup_nil
  requested k p o hp := by simp [hproposals] at hp
  begun o ho := absurd ho List.not_mem_nil
  waiting r w k hw := by simp [hwrites] at hw
  answered k p o hp := by simp [hproposals] at hp
  log := by rw [hlog]; exact .nil
  logged_nodup := List.nodup_nil
  logged_subset := List.nil_subset _
  done r w j hw := by simp [hwrites] at hw
  returned r w hw := by simp [hwrites] at hw

/-- A handler moves on. -/
theorem setWrite (h : Provenance proto s origins logged) {r : ℕ} {w w' : Write}
    (hw : s.writes[r]? = some w) (hgroup : w'.group = w.group) (hids : w'.ids = w.ids)
    (hbegun : w.begun ≤ w'.begun)
    (hwaiting : ∀ k, w'.phase = .waiting k → origins[k]? = some (r, w'.done))
    (hdone : ∀ j < w'.done, (r, j) ∈ logged)
    (hreturned : w'.phase = .returned none → w'.done = w'.ids.length) :
    Provenance proto (s.setWrite r w') origins logged := by
  have hkeeps : KeepsRequests s.writes (s.setWrite r w').writes :=
    keepsRequests_set hw hgroup hids
  refine
    { h with
      requested := fun k p o hp ho => (h.requested k p o hp ho).mono hkeeps
      begun := fun o ho => ?_
      waiting := fun j v k hv hk => ?_
      log := h.log.imp fun e o he => he.mono hkeeps
      done := fun j v i hv hi => ?_
      returned := fun j v hv hret => ?_ }
  · obtain ⟨v, hv, hlt⟩ := h.begun o ho
    by_cases hr : r = o.1
    · subst hr
      obtain rfl : w = v := Option.some.inj (hw.symm.trans hv)
      obtain ⟨hlength, -⟩ := List.getElem?_eq_some_iff.mp hw
      exact ⟨w', List.getElem?_set_self hlength, hlt.trans_le hbegun⟩
    · exact ⟨v, (List.getElem?_set_ne hr).trans hv, hlt⟩
  · obtain ⟨rfl, rfl⟩ | ⟨-, hv⟩ := getElem?_set_cases hv
    · exact hwaiting k hk
    · exact h.waiting j v k hv hk
  · obtain ⟨rfl, rfl⟩ | ⟨-, hv⟩ := getElem?_set_cases hv
    · exact hdone i hi
    · exact h.done j v i hv hi
  · obtain ⟨rfl, rfl⟩ | ⟨-, hv⟩ := getElem?_set_cases hv
    · exact hreturned hret
    · exact h.returned j v hv hret

/-- A proposal that has not been accepted moves on, and is not accepted. -/
theorem setProposal (h : Provenance proto s origins logged) {k : ℕ} {p : Proposal}
    (hp : s.proposals[k]? = some p) (hpending : p.state ≠ .answered none) (state : ProposalState)
    (hstate : state ≠ .answered none) :
    Provenance proto (s.setProposal k { p with state }) origins logged := by
  refine
    { h with
      length_eq := h.length_eq.trans (List.length_set).symm
      requested := fun j q o hq ho => ?_
      answered := fun j q o hq ho => ?_ }
  · obtain ⟨rfl, rfl⟩ | ⟨-, hq⟩ := getElem?_set_cases hq
    · exact h.requested k p o hp ho
    · exact h.requested j q o hq ho
  · obtain ⟨rfl, rfl⟩ | ⟨-, hq⟩ := getElem?_set_cases hq
    · exact iff_of_false hstate ((h.answered k p o hp ho).not.mp hpending)
    · exact h.answered j q o hq ho

/-- The library appends an entry of its own. -/
theorem internal (h : Provenance proto s origins logged) {type : EntryType} (term : ℕ)
    {data : Bytes} (hinternal : type ≠ .normal ∨ data = []) :
    Provenance proto (s.append type term data) origins logged := by
  refine { h with log := ?_ }
  have hnone : ¬(type = .normal ∧ data ≠ []) := by
    rintro ⟨hnormal, hdata⟩
    exact hinternal.elim (fun hne => hne hnormal) hdata
  unfold State.append
  dsimp only
  rw [commands_concat, if_neg hnone]
  exact h.log

/-- The library accepts a proposal. -/
theorem accept (hproto : proto.Lawful) (h : Provenance proto s origins logged) {k term : ℕ}
    {s' : State alg τ} (hstep : RaftMode.accept k term s = some s') :
    ∃ o, Provenance proto s' origins (logged ++ [o]) := by
  obtain ⟨p, hp, hstate, rfl⟩ := accept_eq_some_iff.mp hstep
  obtain ⟨hlt, -⟩ := List.getElem?_eq_some_iff.mp hp
  rw [← h.length_eq] at hlt
  have ho : origins[k]? = some origins[k] := List.getElem?_eq_getElem hlt
  have hfresh : origins[k] ∉ logged := by
    rw [← h.answered k p _ hp ho, hstate]
    simp
  have hrequested := h.requested k p _ hp ho
  refine ⟨origins[k],
    { h with
      length_eq := h.length_eq.trans (List.length_set).symm
      requested := fun j q o hq ho => ?_
      answered := fun j q o hq ho' => ?_
      log := ?_
      logged_nodup := ?_
      logged_subset := ?_
      done := fun r w j hw hj => List.mem_append_left _ (h.done r w j hw hj) }⟩
  · obtain ⟨rfl, rfl⟩ | ⟨-, hq⟩ := getElem?_set_cases hq
    · exact h.requested k p o hp ho
    · exact h.requested j q o hq ho
  · obtain ⟨rfl, rfl⟩ | ⟨hj, hq⟩ := getElem?_set_cases hq
    · obtain rfl : origins[k] = o := Option.some.inj (ho.symm.trans ho')
      exact iff_of_true rfl (List.mem_append_right _ (List.mem_singleton.mpr rfl))
    · -- another proposal has another origin
      have hne : o ≠ origins[k] := by
        rintro rfl
        exact hj ((List.getElem?_inj hlt h.nodup).mp (ho.trans ho'.symm))
      rw [h.answered j q o hq ho', List.mem_append, List.mem_singleton]
      exact (or_iff_left hne).symm
  · unfold State.append State.setProposal
    dsimp only
    rw [commands_concat, if_pos ⟨rfl, hrequested.data_ne_nil hproto⟩]
    exact List.rel_append h.log (.cons hrequested .nil)
  · exact List.nodup_append.mpr ⟨h.logged_nodup, List.nodup_singleton _, fun a ha b hb hab =>
      hfresh (List.mem_singleton.mp hb ▸ hab ▸ ha)⟩
  · refine List.append_subset.mpr ⟨h.logged_subset, fun o ho => ?_⟩
    rw [List.mem_singleton.mp ho]
    exact List.getElem_mem hlt

/-- A request arrives. -/
theorem submit (h : Provenance proto s origins logged) (group : GoString) (ids : List UInt64) :
    Provenance proto (submit group ids s) origins logged := by
  have hkeeps : KeepsRequests s.writes (RaftMode.submit group ids s).writes :=
    keepsRequests_append s.writes _
  refine
    { h with
      requested := fun k p o hp ho => (h.requested k p o hp ho).mono hkeeps
      begun := fun o ho => ?_
      waiting := fun r w k hw hk => ?_
      log := h.log.imp fun e o he => he.mono hkeeps
      done := fun r w j hw hj => ?_
      returned := fun r w hw hret => ?_ }
  · obtain ⟨w, hw, hlt⟩ := h.begun o ho
    obtain ⟨hlength, -⟩ := List.getElem?_eq_some_iff.mp hw
    exact ⟨w, (List.getElem?_append_left hlength).trans hw, hlt⟩
  · obtain hw | ⟨-, rfl⟩ := getElem?_concat_cases hw
    · exact h.waiting r w k hw hk
    · dsimp only at hk
      split at hk <;> cases hk
  · obtain hw | ⟨-, rfl⟩ := getElem?_concat_cases hw
    · exact h.done r w j hw hj
    · exact absurd hj (Nat.not_lt_zero j)
  · obtain hw | ⟨-, rfl⟩ := getElem?_concat_cases hw
    · exact h.returned r w hw hret
    · dsimp only at hret
      split at hret <;> cases hret

/-- A handler submits its next id, which it has not submitted before. -/
theorem propose (h : Provenance proto s origins logged) {r : ℕ} {s' : State alg τ}
    (hstep : RaftMode.propose proto r s = some s') :
    ∃ origins', Provenance proto s' origins' logged := by
  obtain ⟨w, id, hw, hid, hrunning, hcases⟩ := propose_eq_some_iff.mp hstep
  have hbegun : w.begun = w.done := if_pos hrunning
  obtain ⟨err, -, rfl⟩ | ⟨data, hmarshal, -, rfl⟩ := hcases
  · refine ⟨origins, h.setWrite hw rfl rfl ?_ (by simp) (fun j hj => h.done r w j hw hj) (by simp)⟩
    rw [hbegun]
    exact Nat.le_succ _
  · -- the id at this position is a new origin
    have hfresh : (r, w.done) ∉ origins := by
      intro hmem
      obtain ⟨v, hv, hlt⟩ := h.begun _ hmem
      obtain rfl : w = v := Option.some.inj (hw.symm.trans hv)
      rw [hbegun] at hlt
      exact lt_irrefl _ hlt
    set w' : Write := { w with phase := .waiting s.proposals.length } with hw'
    have hkeeps : KeepsRequests s.writes (s.writes.set r w') := keepsRequests_set hw rfl rfl
    obtain ⟨hlength, -⟩ := List.getElem?_eq_some_iff.mp hw
    have hself : (s.writes.set r w')[r]? = some w' := List.getElem?_set_self hlength
    refine ⟨origins ++ [(r, w.done)],
      { length_eq := ?_
        nodup := ?_
        requested := fun k p o hp ho => ?_
        begun := fun o ho => ?_
        waiting := fun j v k hv hk => ?_
        answered := fun k p o hp ho => ?_
        log := h.log.imp fun e o he => he.mono hkeeps
        logged_nodup := h.logged_nodup
        logged_subset := fun o ho => List.mem_append_left _ (h.logged_subset ho)
        done := fun j v i hv hi => ?_
        returned := fun j v hv hret => ?_ }⟩
    · rw [List.length_append, List.length_append, h.length_eq]
      rfl
    · exact List.nodup_append.mpr ⟨h.nodup, List.nodup_singleton _, fun a ha b hb hab =>
        hfresh (List.mem_singleton.mp hb ▸ hab ▸ ha)⟩
    · obtain ⟨hp, ho⟩ | ⟨rfl, rfl⟩ := getElem?_concat_parallel h.length_eq hp ho
      · exact (h.requested k p o hp ho).mono hkeeps
      · exact ⟨w', id, hself, hid, hmarshal⟩
    · rcases List.mem_append.mp ho with hold | hnew
      · obtain ⟨v, hv, hlt⟩ := h.begun o hold
        by_cases hr : r = o.1
        · subst hr
          obtain rfl : w = v := Option.some.inj (hw.symm.trans hv)
          rw [hbegun] at hlt
          exact ⟨w', hself, hlt.trans (Nat.lt_succ_self _)⟩
        · exact ⟨v, (List.getElem?_set_ne hr).trans hv, hlt⟩
      · rw [List.mem_singleton.mp hnew]
        exact ⟨w', hself, Nat.lt_succ_self _⟩
    · obtain ⟨rfl, rfl⟩ | ⟨-, hv⟩ := getElem?_set_cases hv
      · obtain rfl := Phase.waiting.inj hk
        rw [← h.length_eq, List.getElem?_concat_length]
      · have hold := h.waiting j v k hv hk
        obtain ⟨hlt, -⟩ := List.getElem?_eq_some_iff.mp hold
        rw [List.getElem?_append_left hlt]
        exact hold
    · obtain ⟨hp, ho⟩ | ⟨rfl, rfl⟩ := getElem?_concat_parallel h.length_eq hp ho
      · exact h.answered k p o hp ho
      · exact iff_of_false (by simp) fun hmem => hfresh (h.logged_subset hmem)
    · obtain ⟨rfl, rfl⟩ | ⟨-, hv⟩ := getElem?_set_cases hv
      · exact h.done r w i hw hi
      · exact h.done j v i hv hi
    · obtain ⟨rfl, rfl⟩ | ⟨-, hv⟩ := getElem?_set_cases hv
      · cases hret
      · exact h.returned j v hv hret

/-- A handler gets the result of its proposal. -/
theorem result (h : Provenance proto s origins logged) {r : ℕ} {s' : State alg τ}
    (hstep : RaftMode.result r s = some s') : Provenance proto s' origins logged := by
  obtain ⟨w, k, p, hw, hwaiting, hp, hcases⟩ := result_eq_some_iff.mp hstep
  have hbegun : w.begun = w.done + 1 := if_neg (by simp [hwaiting])
  have horigin := h.waiting r w k hw hwaiting
  obtain ⟨hans, rfl⟩ | ⟨err, -, rfl⟩ := hcases
  · refine h.setWrite hw rfl rfl hbegun.le (by simp) (fun j hj => ?_) (by simp)
    rcases Nat.lt_succ_iff_lt_or_eq.mp hj with hlt | rfl
    · exact h.done r w j hw hlt
    · exact (h.answered k p _ hp horigin).mp hans
  · exact h.setWrite hw rfl rfl hbegun.le (by simp) (fun j hj => h.done r w j hw hj) (by simp)

theorem begun_le (w : Write) : w.begun ≤ w.done + 1 := by
  unfold Write.begun
  split <;> omega

/-- **Every step** keeps the origins. -/
theorem step {env : Env τ} (hproto : env.proto.Lawful)
    (h : ∃ origins logged, Provenance env.proto s origins logged) {l : Label} {s' : State alg τ}
    (hstep : RaftMode.step env s l = some s') :
    ∃ origins logged, Provenance env.proto s' origins logged := by
  obtain ⟨origins, logged, h⟩ := h
  cases l with
  | submit group ids =>
    obtain rfl := Option.some.inj hstep
    exact ⟨_, _, h.submit group ids⟩
  | propose r =>
    obtain ⟨origins', h'⟩ := h.propose hstep
    exact ⟨_, _, h'⟩
  | receive =>
    obtain ⟨k, p, hp, hqueued, rfl⟩ := receive_cases hstep
    exact ⟨_, _, h.setProposal hp (by simp [hqueued]) .proposed (by simp)⟩
  | accept k term =>
    obtain ⟨o, h'⟩ := h.accept hproto hstep
    exact ⟨_, _, h'⟩
  | refuse k err =>
    obtain ⟨p, hp, hproposed, rfl⟩ := refuse_eq_some_iff.mp hstep
    exact ⟨_, _, h.setProposal hp (by simp [hproposed]) (.answered (some err)) (by simp)⟩
  | result r => exact ⟨_, _, h.result hstep⟩
  | cancel r err =>
    obtain ⟨w, hw, -, rfl⟩ := cancel_eq_some_iff.mp hstep
    exact ⟨_, _, h.setWrite hw rfl rfl (begun_le w) (by simp) (fun j hj => h.done r w j hw hj)
      (by simp)⟩
  | respond r =>
    obtain ⟨w, hw, ⟨-, hall⟩, rfl⟩ := respond_eq_some_iff.mp hstep
    have hset : Provenance env.proto (s.setWrite r { w with phase := .returned none }) origins
        logged :=
      h.setWrite hw rfl rfl (begun_le w) (by simp) (fun j hj => h.done r w j hw hj) (fun _ => hall)
    exact ⟨_, _, { hset with }⟩
  | internal type term data =>
    obtain ⟨hinternal, rfl⟩ := internal_eq_some_iff.mp hstep
    exact ⟨_, _, h.internal term hinternal⟩
  | commit length =>
    obtain ⟨-, rfl⟩ := commit_eq_some_iff.mp hstep
    exact ⟨_, _, { h with }⟩
  | ready count =>
    obtain ⟨-, node, -, rfl⟩ := ready_eq_some_iff.mp hstep
    exact ⟨_, _, { h with }⟩
  | restart =>
    obtain ⟨engine, restored, -, rfl⟩ := restart_eq_some_iff.mp hstep
    exact ⟨[], [], empty rfl rfl rfl⟩

/-- **Run.** -/
theorem of_run {env : Env τ} (hproto : env.proto.Lawful) {labels : List Label}
    (hrun : run (RaftMode.step env) (init env alg) labels = some s) :
    ∃ origins logged, Provenance env.proto s origins logged :=
  invariant_of_run (P := fun t => ∃ origins logged, Provenance env.proto t origins logged)
    ⟨[], [], empty rfl rfl rfl⟩ (fun _ _ _ ht hstep => step hproto ht hstep) hrun

end Provenance

/-- **Every id of a request is logged at most once, and exactly once when its handler has got the
answer.** In every run of the process there is a list of origins, a request and a position in its
ids each, such that: no origin is in it twice; the commands of the log are, one by one, the adds of
the ids at these origins; the ids that a handler is done with are among them, and these are all ids
of a request that was answered with `Ok: true`. -/
theorem adds_logged_once {env : Env τ} (hproto : env.proto.Lawful) {labels : List Label}
    {s : State alg τ} (hrun : run (step env) (init env alg) labels = some s) :
    ∃ origins : List (ℕ × ℕ), origins.Nodup ∧
      List.Forall₂ (fun e o => ∃ (w : Write) (id : UInt64), s.writes[o.1]? = some w ∧
        w.ids[o.2]? = some id ∧ e.Carries env.proto (addCommand w.group id)) (commands s.log)
        origins ∧
      ∀ (r : ℕ) (w : Write), s.writes[r]? = some w →
        (∀ j < w.done, (r, j) ∈ origins) ∧ (w.phase = .returned none → w.done = w.ids.length) := by
  obtain ⟨_, logged, h⟩ := Provenance.of_run hproto hrun
  refine ⟨logged, h.logged_nodup, ?_, fun r w hw => ⟨fun j hj => h.done r w j hw hj,
    h.returned r w hw⟩⟩
  refine ((List.forall₂_and_left _ _).mpr ⟨fun e he => normal_of_mem_commands he, h.log⟩).imp ?_
  rintro e o ⟨hnormal, w, id, hw, hid, hdata⟩
  exact ⟨w, id, hw, hid, hnormal, hdata⟩

/-- A `BatchAdd` of two ids and an `Add` at the same time. The context of the `Add` expires while
its proposal is in `Propose`, which accepts it before the ids of the other request. -/
def concurrentLabels : List Label :=
  bootLabels ++ [.submit (str "g") [5, 7], .submit (str "h") [9], .propose 0, .propose 1, .receive,
    .receive, .cancel 1 (str "context deadline exceeded"), .accept 1 2, .accept 0 2, .result 0,
    .propose 0, .receive, .accept 2 2, .result 0, .respond 0, .commit 5, .ready 3]

/-- What has become of the two requests, and how much of them is in the log and in the engine. -/
theorem run_concurrentLabels :
    (run (step savingEnv) (init savingEnv (Hll.algorithm Murmur3.sum64)) concurrentLabels).map
        (fun s => (s.writes, (commands s.log).length, s.node.engine.groups[str "h"]?.isSome))
      = some ([⟨str "g", [5, 7], 2, .returned none⟩,
          ⟨str "h", [9], 0, .returned (some (.raftPropose (str "context deadline exceeded")))⟩],
        3, true) := by
  decide +kernel

/-- In that run each of the three ids is logged once, the one that was given up too. -/
theorem adds_logged_once_concurrent :
    ∃ s, run (step savingEnv) (init savingEnv (Hll.algorithm Murmur3.sum64)) concurrentLabels
        = some s ∧
      ∃ origins : List (ℕ × ℕ), origins.Perm [(0, 0), (0, 1), (1, 0)] ∧
        List.Forall₂ (fun e o => ∃ (w : Write) (id : UInt64), s.writes[o.1]? = some w ∧
          w.ids[o.2]? = some id ∧ e.Carries savingEnv.proto (addCommand w.group id))
          (commands s.log) origins := by
  obtain ⟨s, hs, hvalues⟩ := Option.map_eq_some_iff.mp run_concurrentLabels
  obtain ⟨hwrites, hvalues'⟩ := Prod.mk.inj hvalues
  obtain ⟨hlength, -⟩ := Prod.mk.inj hvalues'
  obtain ⟨origins, hnodup, hlog, -⟩ := adds_logged_once Protobuf.codec_lawful hs
  -- an origin is a position of one of the two requests, and there are three
  have hsubset : origins ⊆ [(0, 0), (0, 1), (1, 0)] := by
    rintro ⟨r, j⟩ ho
    obtain ⟨k, hk, hget⟩ := List.mem_iff_getElem.mp ho
    obtain ⟨w, id, hw, hid, -⟩ := hlog.get (hlog.length_eq ▸ hk) hk
    rw [List.get_eq_getElem, hget] at hw hid
    rw [hwrites] at hw
    rcases r with _ | _ | r
    · obtain rfl := Option.some.inj hw
      rcases j with _ | _ | j
      · exact List.mem_cons_self
      · exact List.mem_cons_of_mem _ List.mem_cons_self
      · cases hid
    · obtain rfl := Option.some.inj hw
      rcases j with _ | j
      · exact List.mem_cons_of_mem _ (List.mem_cons_of_mem _ List.mem_cons_self)
      · cases hid
    · cases hw
  refine ⟨s, hs, origins, ?_, hlog⟩
  refine (List.subperm_of_subset hnodup hsubset).perm_of_length_le ?_
  rw [← hlog.length_eq, hlength]
  exact le_rfl

/-! ## From the log to the engine and the store -/

/-- The adds that clients have submitted, over all lives of the process. -/
def submitted (labels : List Label) : List (GoString × UInt64) :=
  labels.flatMap fun l =>
    match l with
    | .submit group ids => ids.map fun id => (group, id)
    | _ => []

theorem submitted_subset_concat (labels : List Label) (l : Label) :
    submitted labels ⊆ submitted (labels ++ [l]) := by
  unfold submitted
  rw [List.flatMap_append]
  exact List.subset_append_left _ _

/-- **What a step can do to the requests**: nothing, let one handler move on, add the one that is
submitted, or forget them all. -/
theorem writes_cases {env : Env τ} {s s' : State alg τ} {l : Label}
    (hstep : step env s l = some s') :
    s'.writes = s.writes ∨
      (∃ (r : ℕ) (w w' : Write), s.writes[r]? = some w ∧ s'.writes = s.writes.set r w' ∧
        w'.group = w.group ∧ w'.ids = w.ids) ∨
      (∃ group ids phase, l = .submit group ids ∧
        s'.writes = s.writes ++ [⟨group, ids, 0, phase⟩]) ∨
      s'.writes = [] := by
  cases l with
  | submit group ids =>
    obtain rfl := Option.some.inj hstep
    exact Or.inr (Or.inr (Or.inl ⟨group, ids, _, rfl, rfl⟩))
  | propose r =>
    obtain ⟨w, id, hw, -, -, ⟨err, -, rfl⟩ | ⟨data, -, -, rfl⟩⟩ := propose_eq_some_iff.mp hstep
    · exact Or.inr (Or.inl ⟨r, w, _, hw, rfl, rfl, rfl⟩)
    · exact Or.inr (Or.inl ⟨r, w, _, hw, rfl, rfl, rfl⟩)
  | receive =>
    obtain ⟨k, p, -, -, rfl⟩ := receive_cases hstep
    exact Or.inl rfl
  | accept k term =>
    obtain ⟨p, -, -, rfl⟩ := accept_eq_some_iff.mp hstep
    exact Or.inl rfl
  | refuse k err =>
    obtain ⟨p, -, -, rfl⟩ := refuse_eq_some_iff.mp hstep
    exact Or.inl rfl
  | result r =>
    obtain ⟨w, k, p, hw, -, -, ⟨-, rfl⟩ | ⟨err, -, rfl⟩⟩ := result_eq_some_iff.mp hstep
    · exact Or.inr (Or.inl ⟨r, w, _, hw, rfl, rfl, rfl⟩)
    · exact Or.inr (Or.inl ⟨r, w, _, hw, rfl, rfl, rfl⟩)
  | cancel r err =>
    obtain ⟨w, hw, -, rfl⟩ := cancel_eq_some_iff.mp hstep
    exact Or.inr (Or.inl ⟨r, w, _, hw, rfl, rfl, rfl⟩)
  | respond r =>
    obtain ⟨w, hw, -, rfl⟩ := respond_eq_some_iff.mp hstep
    exact Or.inr (Or.inl ⟨r, w, _, hw, rfl, rfl, rfl⟩)
  | internal type term data =>
    obtain ⟨-, rfl⟩ := internal_eq_some_iff.mp hstep
    exact Or.inl rfl
  | commit length =>
    obtain ⟨-, rfl⟩ := commit_eq_some_iff.mp hstep
    exact Or.inl rfl
  | ready count =>
    obtain ⟨-, node, -, rfl⟩ := ready_eq_some_iff.mp hstep
    exact Or.inl rfl
  | restart =>
    obtain ⟨engine, restored, -, rfl⟩ := restart_eq_some_iff.mp hstep
    exact Or.inr (Or.inr (Or.inr rfl))

/-- The requests of the process ask for nothing but submitted adds. -/
theorem requests_submitted {env : Env τ} {labels : List Label} {s : State alg τ}
    (hrun : run (step env) (init env alg) labels = some s) :
    ∀ w ∈ s.writes, ∀ id ∈ w.ids, (w.group, id) ∈ submitted labels := by
  have hnext : ∀ (hist : List Label) (t : State alg τ) l t',
      (∀ w ∈ t.writes, ∀ id ∈ w.ids, (w.group, id) ∈ submitted hist) → True →
      step env t l = some t' →
      ∀ w ∈ t'.writes, ∀ id ∈ w.ids, (w.group, id) ∈ submitted (hist ++ [l]) := by
    intro hist t l t' h _ hstep w hw id hid
    have hold : ∀ v ∈ t.writes, ∀ id ∈ v.ids, (v.group, id) ∈ submitted (hist ++ [l]) :=
      fun v hv id hid => submitted_subset_concat hist l (h v hv id hid)
    obtain hsame | ⟨r, v, v', hv, hset, hgroup, hids⟩ | ⟨group, ids, phase, rfl, hsubmit⟩ | hnil :=
      writes_cases hstep
    · exact hold w (hsame ▸ hw) id hid
    · rcases List.mem_or_eq_of_mem_set (hset ▸ hw) with hmem | rfl
      · exact hold w hmem id hid
      · rw [hgroup]
        exact hold v (List.mem_of_getElem? hv) id (hids ▸ hid)
    · rcases List.mem_append.mp (hsubmit ▸ hw) with hmem | hnew
      · exact hold w hmem id hid
      · rw [List.mem_singleton.mp hnew] at hid ⊢
        unfold submitted
        rw [List.flatMap_append]
        refine List.mem_append_right _ ?_
        simpa using hid
    · rw [hnil] at hw
      cases hw
  have hinit : ∀ w ∈ (init env alg).writes, ∀ id ∈ w.ids, (w.group, id) ∈ submitted [] :=
    fun w hw => absurd hw List.not_mem_nil
  exact invariant_of_meets hinit hnext (meets_true labels) hrun

section Join

variable [SemilatticeSup σ] [OrderBot σ]

/-- An entry that is no command, or the command of one of the adds. -/
def AddEntry (proto : Proto) (adds : List (GoString × UInt64)) (e : Entry) : Prop :=
  e.command proto = none ∨
    ∃ group id, (group, id) ∈ adds ∧ e.Carries proto (addCommand group id)

/-- The node has a pair of maps, the stored one below, that hold nothing but the adds. -/
def OnlyAdds (adds : List (GoString × UInt64)) (n : Node alg τ) : Prop :=
  ∃ c, n.Represents c ∧ c.Below ∧ c.Bounded (allowed alg adds)

theorem OnlyAdds.applyEntries (halg : alg.IsJoin) {env : Env τ} (hproto : env.proto.Lawful)
    {adds : List (GoString × UInt64)} {n : Node alg τ} (h : OnlyAdds adds n) {es : List Entry}
    (hes : ∀ e ∈ es, AddEntry env.proto adds e) : OnlyAdds adds (n.applyEntries env es) := by
  unfold Node.applyEntries
  induction es generalizing n with
  | nil => exact h
  | cons e es ih =>
    obtain ⟨c, hc, hbelow, hbounded⟩ := h
    refine ih ⟨_, Node.applyEntry_represents halg env hc e, Copies.below_apply hbelow _,
      hbounded.apply fun v hv => ?_⟩ fun e' he' => hes e' (List.mem_cons_of_mem _ he')
    have hcontent : (e.update env.proto alg).content = some v := hv
    rcases hes e List.mem_cons_self with hnone | ⟨group, id, hadd, hcarries⟩
    · unfold Entry.update at hcontent
      rw [hnone] at hcontent
      cases hcontent
    · have hupdate : e.update env.proto alg = ⟨group, some (alg.single id), true⟩ :=
        Entry.update_of_carries hproto hcarries
      rw [hupdate] at hcontent
      obtain rfl := Option.some.inj hcontent
      show alg.single id ≤ allowed alg adds (e.update env.proto alg).key
      rw [hupdate]
      exact single_le_allowed halg hadd

theorem OnlyAdds.ready (halg : alg.IsJoin) {env : Env τ} (hproto : env.proto.Lawful)
    {adds : List (GoString × UInt64)} {n n' : Node alg τ} (h : OnlyAdds adds n) {rd : Ready}
    (hrd : ∀ e ∈ rd.committedEntries, AddEntry env.proto adds e)
    (hready : n.ready env rd = some n') : OnlyAdds adds n' := by
  obtain ⟨storage, live, rfl, hengine, hstore, -⟩ := Node.ready_applies hready
  have hstorage : OnlyAdds adds { n with storage } := h
  obtain ⟨c, hc, hrest⟩ := hstorage.applyEntries halg hproto hrd
  refine ⟨c, ?_, hrest⟩
  unfold Node.Represents at hc ⊢
  rw [hengine, hstore]
  exact hc

omit [OrderBot σ] [SemilatticeSup σ] in
/-- The entries of a log whose commands come from requests. -/
theorem Provenance.addEntry {proto : Proto} {s : State alg τ} {origins logged : List (ℕ × ℕ)}
    (h : Provenance proto s origins logged) {adds : List (GoString × UInt64)}
    (hrequests : ∀ w ∈ s.writes, ∀ id ∈ w.ids, (w.group, id) ∈ adds) {e : Entry}
    (he : e ∈ s.log) : AddEntry proto adds e := by
  by_cases hcommand : e.type = .normal ∧ e.data ≠ []
  · have hmem : e ∈ commands s.log := List.mem_filter.mpr ⟨he, decide_eq_true hcommand⟩
    obtain ⟨k, hk, rfl⟩ := List.mem_iff_getElem.mp hmem
    have hk' : k < logged.length := h.log.length_eq ▸ hk
    obtain ⟨w, id, hw, hid, hdata⟩ := h.log.get hk hk'
    right
    exact ⟨w.group, id, hrequests w (List.mem_of_getElem? hw) id (List.mem_of_getElem? hid),
      hcommand.1, hdata⟩
  · left
    unfold Entry.command
    rw [if_pos]
    rw [List.length_eq_zero_iff]
    tauto

/-- A restart is possible, and keeps what is stored. -/
theorem OnlyAdds.restart (halg : alg.IsJoin) (env : Env τ) {adds : List (GoString × UInt64)}
    {s : State alg τ} (h : OnlyAdds adds s.node) :
    ∃ s', restart env s = some s' ∧ OnlyAdds adds s'.node := by
  obtain ⟨c, hc, hbelow, hbounded⟩ := h
  exact ⟨_, restart_eq_some_iff.mpr ⟨_, _, restoreAll_of_holds halg hc.2, rfl⟩, c.restart,
    ⟨rfl, hc.2⟩, c.below_restart, hbounded.restart hbelow⟩

/-- **Nothing is counted that no client has submitted.** In every run of the process, over all
its restarts and with any outcomes of the saves: the stored sketch of every group is at most the
live one, the live one is at most the sketch of the ids that clients have submitted to the group,
and the process can be restarted. -/
theorem only_submitted (halg : alg.IsJoin) {env : Env τ} (hproto : env.proto.Lawful)
    {labels : List Label} {s : State alg τ}
    (hrun : run (step env) (init env alg) labels = some s) :
    (∃ stored, s.node.store.Holds alg stored ∧ ∀ g,
      value stored g ≤ value s.node.engine.groups g ∧
      value s.node.engine.groups g ≤ alg.sketchOf (idsOf (submitted labels) g)) ∧
    ∃ s', step env s .restart = some s' := by
  have hnext : ∀ (hist : List Label) (t : State alg τ) l t',
      (run (step env) (init env alg) hist = some t ∧ OnlyAdds (submitted hist) t.node) → True →
      step env t l = some t' →
      run (step env) (init env alg) (hist ++ [l]) = some t' ∧
        OnlyAdds (submitted (hist ++ [l])) t'.node := by
    rintro hist t l t' ⟨hrun, h⟩ - hstep
    refine ⟨run_concat_eq_some.mpr ⟨t, hrun, hstep⟩, ?_⟩
    have hgrown : OnlyAdds (submitted (hist ++ [l])) t.node := by
      obtain ⟨c, hc, hbelow, hbounded⟩ := h
      exact ⟨c, hc, hbelow, hbounded.mono (allowed_mono halg (submitted_subset_concat hist l))⟩
    rcases step_cases hstep with ⟨count, -, hready⟩ | ⟨-, hrestart⟩ | hext
    · obtain ⟨-, node, hnode, rfl⟩ := ready_eq_some_iff.mp hready
      obtain ⟨origins, logged, hprov⟩ := Provenance.of_run hproto hrun
      refine hgrown.ready halg hproto (fun e he => ?_) hnode
      refine hprov.addEntry (fun w hw id hid => ?_) (List.mem_of_mem_drop (List.mem_of_mem_take he))
      exact submitted_subset_concat hist l (requests_submitted hrun w hw id hid)
    · obtain ⟨s', hs', h'⟩ := hgrown.restart halg env
      obtain rfl : s' = t' := Option.some.inj (hs'.symm.trans hrestart)
      exact h'
    · rw [hext.node]
      exact hgrown
  have hinit : OnlyAdds (submitted []) (init env alg).node := by
    refine ⟨⟨∅, ∅⟩, ⟨rfl, holds_empty⟩, fun k w hw => absurd hw (by simp), fun k => ?_⟩
    rw [value_empty]
    exact bot_le
  obtain ⟨-, h⟩ := invariant_of_meets ⟨run_nil, hinit⟩ hnext (meets_true labels) hrun
  obtain ⟨s', hs', -⟩ := h.restart halg env
  obtain ⟨c, hc, hbelow, hbounded⟩ := h
  refine ⟨⟨c.stored, hc.2, fun g => ⟨?_, ?_⟩⟩, s', hs'⟩
  · rw [hc.1]
    exact hbelow.value_le g
  · rw [hc.1]
    exact hbounded g

end Join

/-- In the same run both groups have nothing but the ids of their request. The client of the `Add`
has got an error, and its id is counted. -/
theorem only_submitted_concurrent :
    ∃ s, run (step savingEnv) (init savingEnv (Hll.algorithm Murmur3.sum64)) concurrentLabels
        = some s ∧
      value s.node.engine.groups (str "g") ≤ (Hll.algorithm Murmur3.sum64).sketchOf [5, 7] ∧
      ∃ sk, s.node.engine.groups[str "h"]? = some sk ∧
        sk ≤ (Hll.algorithm Murmur3.sum64).sketchOf [9] := by
  obtain ⟨s, hs, hvalues⟩ := Option.map_eq_some_iff.mp run_concurrentLabels
  obtain ⟨-, hvalues'⟩ := Prod.mk.inj hvalues
  obtain ⟨sk, hsk⟩ := Option.isSome_iff_exists.mp (Prod.mk.inj hvalues').2
  obtain ⟨⟨stored, -, hle⟩, -⟩ :=
    only_submitted (Hll.isJoin Murmur3.sum64) Protobuf.codec_lawful hs
  refine ⟨s, hs, (hle (str "g")).2, sk, hsk, ?_⟩
  have hgroup := (hle (str "h")).2
  rw [value_of_getElem? hsk] at hgroup
  exact hgroup

end RaftMode
end CardinalityTracker
