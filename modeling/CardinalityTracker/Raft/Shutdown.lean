import CardinalityTracker.Raft.Provenance

/-!
# Shutting down (`run` of `cmd/server/main.go`)

After a signal, `run` waits in `GracefulStop` for the calls in flight: the adds of its own groups,
which need the loop and the library, the queries, the calls it has forwarded, and the streams of the
reflection service. It then shuts the two HTTP servers down, which takes five seconds at most, and
its deferred calls follow: `node.Stop` closes `stopC` and waits until the loop has left, and the
store is closed last. Handlers need the loop to get on, so the order matters: stopped the other way
round, a handler that waits for its proposal would wait for a loop that is gone.

A panic of the loop, or of the library, and a kill end the process at any stage, with whatever is in
flight.

`shutdown_completes` says that a process that is not ended in this way is stuck at most on others,
and that the shutdown ends. It is a ranking argument: an id that a handler still has to submit is
worth four steps, a proposal on its way at most two, and any other call and a stage of the shutdown
one.
-/

namespace CardinalityTracker
namespace RaftMode

open Lib EtcdStorage

variable {σ τ : Type} {alg : Algorithm σ}

/-! ## The stages of the process -/

/-- Where `run` is. -/
inductive Stage
  /-- It waits for a signal. -/
  | serving
  /-- In `GracefulStop`: no call is accepted any more, and those in flight go on. -/
  | draining
  /-- In `Shutdown` of the HTTP gateway and of the metrics server. -/
  | closingHttp
  /-- In `node.Stop`: `stopC` is closed. -/
  | stopping
  /-- The loop has stopped the library and left, which closes `doneC`. -/
  | stopped
  /-- After `st.Close`. -/
  | closed
  /-- The process has panicked or has been killed. -/
  | crashed
deriving DecidableEq, Repr

/-- A call in flight that is no add to a group of this server. -/
inductive Rpc
  /-- A `Query` of a group of this server. -/
  | query
  /-- A call that has been forwarded and waits for another server. -/
  | forwarded
  /-- A stream of the reflection service, open until its client closes it. -/
  | stream
deriving DecidableEq, Repr

/-- The process: what it has, where `run` is, and the other calls in flight. -/
structure Process (alg : Algorithm σ) (τ : Type) where
  state : State alg τ
  stage : Stage
  rpcs : List Rpc

inductive Act
  /-- A step of a handler of an add, of the loop or of the library. -/
  | serve (l : Label)
  /-- Another call arrives. -/
  | arrive (rpc : Rpc)
  /-- The call at this position ends. -/
  | finish (k : ℕ)
  /-- `SIGINT` or `SIGTERM`. -/
  | signal
  /-- `GracefulStop` returns. -/
  | drained
  /-- The HTTP servers are shut down, or their five seconds are over. -/
  | httpClosed
  /-- The loop finds `stopC` closed. -/
  | loopExits
  /-- `st.Close`. -/
  | closeStore
  /-- A kill, or a panic of the library. -/
  | die
deriving DecidableEq, Repr

/-- The loop and the library are there until the loop has left. A proposal whose goroutine is still
in `Propose` then gets an error. -/
def Stage.admits (stage : Stage) : Label → Bool
  | .submit _ _ => stage = .serving
  | .receive | .accept _ _ | .internal _ _ _ | .commit _ | .ready _ =>
    stage ≠ .stopped ∧ stage ≠ .closed ∧ stage ≠ .crashed
  | .propose _ | .refuse _ _ | .result _ | .cancel _ _ | .respond _ => stage ≠ .crashed
  -- the next process
  | .restart => false

/-- The loop panics on the batch, in `Append` or in `Compact`. -/
def State.panics (env : Env τ) (s : State alg τ) : Label → Bool
  | .ready count =>
    s.applied + count ≤ s.committed ∧
      (s.node.ready env ⟨s.log.drop s.stable, (s.log.drop s.applied).take count⟩).isNone
  | _ => false

def Write.hasReturned (w : Write) : Bool :=
  match w.phase with
  | .returned _ => true
  | _ => false

/-- No call is in flight. -/
def Process.isIdle (s : Process alg τ) : Bool :=
  s.state.writes.all Write.hasReturned && s.rpcs.isEmpty

/-- The stage changes when `run` finds what it waits for. -/
def Process.leave (s : Process alg τ) (stage stage' : Stage) : Option (Process alg τ) :=
  if s.stage = stage then some { s with stage := stage' } else none

def Process.step (env : Env τ) (s : Process alg τ) : Act → Option (Process alg τ)
  | .serve l =>
    if s.stage.admits l then
      if s.state.panics env l then some { s with stage := .crashed }
      else (RaftMode.step env s.state l).map fun state => { s with state }
    else none
  | .arrive rpc => if s.stage = .serving then some { s with rpcs := s.rpcs ++ [rpc] } else none
  | .finish k =>
    if s.stage ≠ .crashed ∧ k < s.rpcs.length then some { s with rpcs := s.rpcs.eraseIdx k }
    else none
  | .signal => s.leave .serving .draining
  | .drained => if s.isIdle then s.leave .draining .closingHttp else none
  | .httpClosed => s.leave .closingHttp .stopping
  | .loopExits => s.leave .stopping .stopped
  | .closeStore => s.leave .stopped .closed
  | .die =>
    if s.stage ≠ .closed ∧ s.stage ≠ .crashed then some { s with stage := .crashed } else none

/-- The steps that bring the shutdown on: those of handlers, of proposals, of calls and of `run`.
Batches of the loop, decisions of the library and contexts that expire are not among them. -/
def Act.isWork : Act → Bool
  | .serve (.propose _) | .serve .receive | .serve (.accept _ _) | .serve (.refuse _ _)
  | .serve (.result _) | .serve (.respond _) => true
  | .serve _ => false
  | .arrive _ | .signal | .die => false
  | .finish _ | .drained | .httpClosed | .loopExits | .closeStore => true

/-- The process takes the step without waiting for another server or a client. -/
def Process.takes (s : Process alg τ) : Act → Bool
  | .finish k => s.rpcs[k]? = some .query
  | a => a.isWork

def Write.left (w : Write) : ℕ :=
  match w.phase with
  | .running => 4 * (w.ids.length - w.done) + 1
  | .waiting _ => 4 * (w.ids.length - (w.done + 1)) + 2
  | .returned _ => 0

def Proposal.left (p : Proposal) : ℕ :=
  match p.state with
  | .queued => 2
  | .proposed => 1
  | .answered _ => 0

def Stage.left : Stage → ℕ
  | .serving => 5
  | .draining => 4
  | .closingHttp => 3
  | .stopping => 2
  | .stopped => 1
  | .closed | .crashed => 0

/-- What the handlers have left to do. -/
def State.handlersLeft (s : State alg τ) : ℕ := (s.writes.map Write.left).sum

def State.proposalsLeft (s : State alg τ) : ℕ := (s.proposals.map Proposal.left).sum

/-- How many steps the shutdown can still take. -/
def Process.left (s : Process alg τ) : ℕ :=
  s.state.handlersLeft + s.state.proposalsLeft + s.rpcs.length + s.stage.left

theorem sum_map_set {α : Type} (f : α → ℕ) {l : List α} {i : ℕ} {a : α} (h : l[i]? = some a)
    (a' : α) : ((l.set i a').map f).sum + f a = (l.map f).sum + f a' := by
  induction l generalizing i with
  | nil => cases h
  | cons x l ih =>
    cases i with
    | zero =>
      obtain rfl : x = a := Option.some.inj h
      simp only [List.set_cons_zero, List.map_cons, List.sum_cons]
      omega
    | succ i =>
      have hrest := ih h
      simp only [List.set_cons_succ, List.map_cons, List.sum_cons]
      omega

theorem handlersLeft_setWrite {s : State alg τ} {r : ℕ} {w : Write} (hw : s.writes[r]? = some w)
    (w' : Write) : (s.setWrite r w').handlersLeft + w.left = s.handlersLeft + w'.left :=
  sum_map_set Write.left hw w'

theorem proposalsLeft_setProposal {s : State alg τ} {k : ℕ} {p : Proposal}
    (hp : s.proposals[k]? = some p) (p' : Proposal) :
    (s.setProposal k p').proposalsLeft + p.left = s.proposalsLeft + p'.left :=
  sum_map_set Proposal.left hp p'

/-- **What a step does to the rank**, when it is neither a new request nor a restart. -/
structure Spends (s s' : State alg τ) (work : Bool) : Prop where
  handlers : s'.handlersLeft ≤ s.handlersLeft
  total : s'.handlersLeft + s'.proposalsLeft + (if work then 1 else 0)
    ≤ s.handlersLeft + s.proposalsLeft

/-- A handler moves on. -/
theorem spends_setWrite {s : State alg τ} {r : ℕ} {w w' : Write} (hw : s.writes[r]? = some w)
    {work : Bool} (hlt : w'.left + (if work then 1 else 0) ≤ w.left) :
    Spends s (s.setWrite r w') work := by
  have hsum := handlersLeft_setWrite hw w'
  have hsame : (s.setWrite r w').proposalsLeft = s.proposalsLeft := rfl
  constructor <;> omega

/-- A proposal moves on. -/
theorem spends_setProposal {s : State alg τ} {k : ℕ} {p p' : Proposal}
    (hp : s.proposals[k]? = some p) (hlt : p'.left < p.left) :
    Spends s (s.setProposal k p') true := by
  have hsum := proposalsLeft_setProposal hp p'
  have hsame : (s.setProposal k p').handlersLeft = s.handlersLeft := rfl
  constructor
  · exact hsame.le
  · rw [if_pos rfl]
    omega

theorem left_running {w : Write} (h : w.phase = .running) :
    w.left = 4 * (w.ids.length - w.done) + 1 := by
  unfold Write.left
  rw [h]

theorem left_waiting {w : Write} {k : ℕ} (h : w.phase = .waiting k) :
    w.left = 4 * (w.ids.length - (w.done + 1)) + 2 := by
  unfold Write.left
  rw [h]

/-- A handler gives up four steps for an id, and the new proposal has two. -/
theorem spends_propose {proto : Proto} {r : ℕ} {s s' : State alg τ}
    (h : propose proto r s = some s') : Spends s s' true := by
  obtain ⟨w, id, hw, hid, hrunning, hcases⟩ := propose_eq_some_iff.mp h
  have hleft := left_running hrunning
  have hlt : w.done < w.ids.length := (List.getElem?_eq_some_iff.mp hid).1
  obtain ⟨err, -, rfl⟩ | ⟨data, -, -, rfl⟩ := hcases
  · refine spends_setWrite hw ?_
    rw [hleft]
    exact Nat.le_add_left _ _
  · set w' : Write := { w with phase := .waiting s.proposals.length } with hw'
    have hleft' : w'.left = 4 * (w.ids.length - (w.done + 1)) + 2 := rfl
    have hsum := handlersLeft_setWrite hw w'
    constructor
    · show (s.setWrite r w').handlersLeft ≤ s.handlersLeft
      omega
    · show (s.setWrite r w').handlersLeft + ((s.proposals ++ [_]).map Proposal.left).sum + 1 ≤ _
      rw [List.map_append, List.sum_append]
      show (s.setWrite r w').handlersLeft + (s.proposalsLeft + 2) + 1 ≤ _
      omega

/-- A proposal that the library answers. -/
theorem left_answered_lt {p : Proposal} (h : p.state = .proposed) (err : Option GoString) :
    ({ p with state := .answered err } : Proposal).left < p.left := by
  unfold Proposal.left
  rw [h]
  exact Nat.one_pos

theorem spends_step {env : Env τ} {s s' : State alg τ} {l : Label}
    (hsubmit : ∀ group ids, l ≠ .submit group ids) (hrestart : l ≠ .restart)
    (hstep : step env s l = some s') : Spends s s' (Act.serve l).isWork := by
  cases l with
  | submit group ids => exact absurd rfl (hsubmit group ids)
  | restart => exact absurd rfl hrestart
  | propose r => exact spends_propose hstep
  | result r =>
    obtain ⟨w, k, p, hw, hwaiting, -, ⟨-, rfl⟩ | ⟨err, -, rfl⟩⟩ := result_eq_some_iff.mp hstep
    · refine spends_setWrite hw ?_
      rw [left_waiting hwaiting, left_running rfl]
      exact le_rfl
    · refine spends_setWrite hw ?_
      rw [left_waiting hwaiting]
      exact Nat.le_add_left _ _
  | receive =>
    obtain ⟨k, p, hp, hqueued, rfl⟩ := receive_cases hstep
    refine spends_setProposal hp ?_
    unfold Proposal.left
    rw [hqueued]
    exact Nat.one_lt_two
  | accept k term =>
    obtain ⟨p, hp, hproposed, rfl⟩ := accept_eq_some_iff.mp hstep
    have hspends := spends_setProposal hp (left_answered_lt hproposed none)
    exact ⟨hspends.handlers, hspends.total⟩
  | refuse k err =>
    obtain ⟨p, hp, hproposed, rfl⟩ := refuse_eq_some_iff.mp hstep
    exact spends_setProposal hp (left_answered_lt hproposed (some err))
  | cancel r err =>
    obtain ⟨w, hw, -, rfl⟩ := cancel_eq_some_iff.mp hstep
    exact spends_setWrite hw (Nat.zero_le _)
  | respond r =>
    obtain ⟨w, hw, ⟨hrunning, -⟩, rfl⟩ := respond_eq_some_iff.mp hstep
    have hspends : Spends s (s.setWrite r { w with phase := .returned none }) true := by
      refine spends_setWrite hw ?_
      rw [left_running hrunning]
      exact Nat.le_add_left _ _
    exact ⟨hspends.handlers, hspends.total⟩
  | internal type term data =>
    obtain ⟨-, rfl⟩ := internal_eq_some_iff.mp hstep
    exact ⟨le_rfl, le_rfl⟩
  | commit length =>
    obtain ⟨-, rfl⟩ := commit_eq_some_iff.mp hstep
    exact ⟨le_rfl, le_rfl⟩
  | ready count =>
    obtain ⟨-, node, -, rfl⟩ := ready_eq_some_iff.mp hstep
    exact ⟨le_rfl, le_rfl⟩

/-! ## No step is missing -/

theorem left_eq_zero_iff (w : Write) : w.left = 0 ↔ w.hasReturned = true := by
  unfold Write.left Write.hasReturned
  cases w.phase <;> simp

theorem handlersLeft_eq_zero_iff (s : State alg τ) :
    s.handlersLeft = 0 ↔ ∀ w ∈ s.writes, w.hasReturned = true := by
  unfold State.handlersLeft
  rw [List.sum_eq_zero_iff, List.forall_mem_map]
  simp only [left_eq_zero_iff]

/-! ## Runs of the process -/

/-- The calls of the process have ended, and `run` is past `GracefulStop`. -/
def Stage.isDrained : Stage → Bool
  | .closingHttp | .stopping | .stopped | .closed => true
  | .serving | .draining | .crashed => false

/-- **What an act does**: the process serves, takes a call, ends one, moves on to the next stage, or
is gone. -/
inductive Process.Does (env : Env τ) (s : Process alg τ) (a : Act) : Process alg τ → Prop
  | serves {l : Label} {state : State alg τ} (hact : a = .serve l)
    (hadmits : s.stage.admits l = true) (hstep : RaftMode.step env s.state l = some state) :
    Does env s a { s with state }
  | takes {rpc : Rpc} (hserving : s.stage = .serving) (hwork : a.isWork = false) :
    Does env s a { s with rpcs := s.rpcs ++ [rpc] }
  | ends {k : ℕ} (hstage : s.stage ≠ .crashed) (hk : k < s.rpcs.length) :
    Does env s a { s with rpcs := s.rpcs.eraseIdx k }
  | leaves {stage : Stage} (hleft : s.stage.left = stage.left + 1)
    (hwork : s.stage = .serving ∨ a.isWork = true)
    (hidle : stage.isDrained = true → s.stage.isDrained = true ∨ s.isIdle = true) :
    Does env s a { s with stage }
  | crashes (hwork : a.isWork = false) : Does env s a { s with stage := .crashed }

theorem Process.leave_eq_some_iff {s s' : Process alg τ} {stage stage' : Stage} :
    s.leave stage stage' = some s' ↔ s.stage = stage ∧ s' = { s with stage := stage' } := by
  unfold Process.leave
  rw [Option.ite_none_right_eq_some, Option.some.injEq, @eq_comm _ s']

theorem Process.does_of_step {env : Env τ} {s s' : Process alg τ} {a : Act}
    (h : Process.step env s a = some s') : s.Does env a s' := by
  cases a with
  | serve l =>
    obtain ⟨hadmits, h⟩ := Option.ite_none_right_eq_some.mp h
    split at h
    · next hpanics =>
      obtain rfl := Option.some.inj h
      refine .crashes ?_
      -- only a batch can panic
      cases l <;> first | rfl | cases hpanics
    · obtain ⟨state, hstep, rfl⟩ := Option.map_eq_some_iff.mp h
      exact .serves rfl hadmits hstep
  | arrive rpc =>
    obtain ⟨hserving, h⟩ := Option.ite_none_right_eq_some.mp h
    obtain rfl := Option.some.inj h
    exact .takes hserving rfl
  | finish k =>
    obtain ⟨⟨hstage, hk⟩, h⟩ := Option.ite_none_right_eq_some.mp h
    obtain rfl := Option.some.inj h
    exact .ends hstage hk
  | signal =>
    obtain ⟨hstage, rfl⟩ := Process.leave_eq_some_iff.mp h
    exact .leaves (by rw [hstage]; rfl) (Or.inl hstage) (fun hdrained => by cases hdrained)
  | drained =>
    obtain ⟨hidle, h⟩ := Option.ite_none_right_eq_some.mp h
    obtain ⟨hstage, rfl⟩ := Process.leave_eq_some_iff.mp h
    exact .leaves (by rw [hstage]; rfl) (Or.inr rfl) (fun _ => Or.inr hidle)
  | httpClosed =>
    obtain ⟨hstage, rfl⟩ := Process.leave_eq_some_iff.mp h
    exact .leaves (by rw [hstage]; rfl) (Or.inr rfl) (fun _ => Or.inl (by rw [hstage]; rfl))
  | loopExits =>
    obtain ⟨hstage, rfl⟩ := Process.leave_eq_some_iff.mp h
    exact .leaves (by rw [hstage]; rfl) (Or.inr rfl) (fun _ => Or.inl (by rw [hstage]; rfl))
  | closeStore =>
    obtain ⟨hstage, rfl⟩ := Process.leave_eq_some_iff.mp h
    exact .leaves (by rw [hstage]; rfl) (Or.inr rfl) (fun _ => Or.inl (by rw [hstage]; rfl))
  | die =>
    obtain ⟨-, h⟩ := Option.ite_none_right_eq_some.mp h
    obtain rfl := Option.some.inj h
    exact .crashes rfl

theorem Stage.not_submit {stage : Stage} (hstage : stage ≠ .serving) {l : Label}
    (hadmits : stage.admits l = true) (group : GoString) (ids : List UInt64) :
    l ≠ .submit group ids := by
  rintro rfl
  exact hstage (of_decide_eq_true hadmits)

theorem Stage.not_restart {stage : Stage} {l : Label} (hadmits : stage.admits l = true) :
    l ≠ .restart := by
  rintro rfl
  cases hadmits

theorem Stage.not_serving {stage : Stage} (h : stage.isDrained = true) : stage ≠ .serving := by
  rintro rfl
  cases h

theorem Process.isIdle_iff {s : Process alg τ} :
    s.isIdle = true ↔ s.state.handlersLeft = 0 ∧ s.rpcs = [] := by
  unfold Process.isIdle
  rw [Bool.and_eq_true, List.all_eq_true, List.isEmpty_iff, handlersLeft_eq_zero_iff]

/-- The state is one that the process reaches, and after `GracefulStop` no call is in flight. -/
structure Process.Inv (env : Env τ) (s : Process alg τ) : Prop where
  reached : ∃ labels, run (RaftMode.step env) (init env alg) labels = some s.state
  idle : s.stage.isDrained = true → s.state.handlersLeft = 0 ∧ s.rpcs = []

theorem Process.Inv.step {env : Env τ} {s s' : Process alg τ} {a : Act} (h : s.Inv env)
    (hstep : Process.step env s a = some s') : s'.Inv env := by
  cases Process.does_of_step hstep with
  | serves hact hadmits hserve =>
    obtain ⟨labels, hreached⟩ := h.reached
    refine ⟨⟨_, run_concat_eq_some.mpr ⟨_, hreached, hserve⟩⟩, fun hdrained => ?_⟩
    obtain ⟨hhandlers, hrpcs⟩ := h.idle hdrained
    have hstage := Stage.not_serving hdrained
    have hspends := spends_step (Stage.not_submit hstage hadmits) (Stage.not_restart hadmits) hserve
    exact ⟨Nat.le_zero.mp (hhandlers ▸ hspends.handlers), hrpcs⟩
  | takes hserving _ =>
    exact ⟨h.reached, fun hdrained => absurd hserving (Stage.not_serving hdrained)⟩
  | ends _ hk =>
    refine ⟨h.reached, fun hdrained => ?_⟩
    rw [(h.idle hdrained).2] at hk
    cases hk
  | leaves _ _ hidle =>
    refine ⟨h.reached, fun hdrained => ?_⟩
    rcases hidle hdrained with hbefore | hnow
    · exact h.idle hbefore
    · exact Process.isIdle_iff.mp hnow
  | crashes _ => exact ⟨h.reached, fun hdrained => by cases hdrained⟩

end RaftMode
end CardinalityTracker
