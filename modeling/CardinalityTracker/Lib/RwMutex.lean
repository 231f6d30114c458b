import CardinalityTracker.Lib.Runs

/-!
# Critical sections under a readers-writer mutex

Calls run concurrently on a shared state that a readers-writer mutex protects. A call computes
something of its own, takes the mutex for reading or for writing, executes its critical section
one statement at a time, releases the mutex and returns. Statements of different calls interleave
in any way the mutex allows.

`linearizable` is what the mutex is for: the calls that have left their section, in the order in
which they did, are a sequential execution with the same results, and the shared state is the one
it ends in whenever no writer is inside. With a refinement of each section executed alone, the
calls are atomic operations of what the shared state represents (`atomic_of_sections`). A call that
has returned before another one starts comes first in that order (`left_of_run`). `completes` says
that no call is stuck: from every state on, some schedule lets all calls return.

Between the statements of a section the shared state may be any that its code passes through.
`invariant_of_sections`, `guarantee_of_sections` and `established_of_sections` carry what holds at
every statement of a section executed alone over to every state of every interleaving, also to
those with a writer inside.

The mutex of the Go library also keeps new readers out while a writer is waiting. That makes
fewer schedules, and what is said here about every schedule covers them.
-/

namespace Lib
namespace RwMutex

/-- How a call holds the mutex. -/
inductive Mode
  | read
  | write
deriving DecidableEq, Repr

/-- The statements of a critical section. One statement writes the shared state, and what comes
after it may depend on what it has read there. -/
inductive Body (S R : Type)
  | ret (r : R)
  | stmt (write : S → S) (rest : S → Body S R)

/-- The code of a call: it may return without the mutex, or take it and execute its section. -/
inductive Code (S R : Type)
  | done (r : R)
  | take (mode : Mode) (body : Body S R)

/-- Where a call is. -/
inductive Place (S R : Type)
  | started
  | inside (mode : Mode) (rest : Body S R)
  | outside (r : R)
  | returned (r : R)

structure Call (Op : Type*) (S R : Type) where
  op : Op
  place : Place S R

/-- The shared state and the calls, in the order in which they were made. `left` are the calls
that have left their critical section, or have returned without one, in the order in which they
did. -/
structure State (Op : Type*) (S R : Type) where
  shared : S
  calls : List (Call Op S R)
  left : List ℕ

/-- What happens next; `k` is the number of the call that moves on. -/
inductive Label (Op : Type*)
  | invoke (op : Op)
  | lock (k : ℕ)
  | exec (k : ℕ)
  | unlock (k : ℕ)
  | skip (k : ℕ)
  | ret (k : ℕ)

variable {Op : Type*} {S R : Type}

/-- No call has been made. -/
def State.initial (s₀ : S) : State Op S R := ⟨s₀, [], []⟩

/-- A call at this place does not keep the mutex from being taken. -/
def Place.admits (mode : Mode) : Place S R → Bool
  | .inside mode' _ => mode = .read ∧ mode' = .read
  | _ => true

/-- Call `k` moves on. -/
def State.move (st : State Op S R) (k : ℕ) (op : Op) (place : Place S R) : State Op S R :=
  { st with calls := st.calls.set k ⟨op, place⟩ }

/-- One step; `none` when it cannot be taken. -/
def step (code : Op → Code S R) (st : State Op S R) : Label Op → Option (State Op S R)
  | .invoke op => some { st with calls := st.calls ++ [⟨op, .started⟩] }
  | .lock k =>
    match st.calls[k]? with
    | some ⟨op, .started⟩ =>
      match code op with
      | .take mode body =>
        if st.calls.all fun c => c.place.admits mode then some (st.move k op (.inside mode body))
        else none
      | .done _ => none
    | _ => none
  | .exec k =>
    match st.calls[k]? with
    | some ⟨op, .inside mode (.stmt write rest)⟩ =>
      some { st.move k op (.inside mode (rest st.shared)) with shared := write st.shared }
    | _ => none
  | .unlock k =>
    match st.calls[k]? with
    | some ⟨op, .inside _ (.ret r)⟩ =>
      some { st.move k op (.outside r) with left := st.left ++ [k] }
    | _ => none
  | .skip k =>
    match st.calls[k]? with
    | some ⟨op, .started⟩ =>
      match code op with
      | .done r => some { st.move k op (.returned r) with left := st.left ++ [k] }
      | .take _ _ => none
    | _ => none
  | .ret k =>
    match st.calls[k]? with
    | some ⟨op, .outside r⟩ => some (st.move k op (.returned r))
    | _ => none

/-! ## Sequential executions -/

/-- The section executed from its start to its end, with nothing in between. -/
def Body.exec : Body S R → S → S × R
  | .ret r, s => (s, r)
  | .stmt write rest, s => (rest s).exec (write s)

/-- The call alone. -/
def Code.alone (s : S) : Code S R → S × R
  | .done r => (s, r)
  | .take _ body => body.exec s

/-- Calls one after another, each with its result. -/
inductive Serial (code : Op → Code S R) (s₀ : S) : List (Op × R) → S → Prop
  | nil : Serial code s₀ [] s₀
  | concat {log : List (Op × R)} {s s' : S} {op : Op} {r : R} : Serial code s₀ log s →
      (code op).alone s = (s', r) → Serial code s₀ (log ++ [(op, r)]) s'

/-- No statement of the section writes. -/
inductive Body.ReadOnly : Body S R → Prop
  | ret (r : R) : ReadOnly (.ret r)
  | stmt {write : S → S} {rest : S → Body S R} : (∀ s, write s = s) → (∀ s, (rest s).ReadOnly) →
      ReadOnly (.stmt write rest)

/-- Sections under the mutex for reading do not write. -/
def ReadOnly (code : Op → Code S R) : Prop :=
  ∀ op body, code op = .take .read body → body.ReadOnly

/-! ## What a step does -/

variable {code : Op → Code S R} {st st' : State Op S R}

/-- The steps, as a relation. -/
inductive Trans (code : Op → Code S R) (st : State Op S R) : State Op S R → Prop
  | invoke (op : Op) : Trans code st { st with calls := st.calls ++ [⟨op, .started⟩] }
  | lock {k : ℕ} {op : Op} {mode : Mode} {body : Body S R}
      (hk : st.calls[k]? = some ⟨op, .started⟩) (hcode : code op = .take mode body)
      (hfree : ∀ c ∈ st.calls, c.place.admits mode = true) :
      Trans code st (st.move k op (.inside mode body))
  | exec {k : ℕ} {op : Op} {mode : Mode} {write : S → S} {rest : S → Body S R}
      (hk : st.calls[k]? = some ⟨op, .inside mode (.stmt write rest)⟩) :
      Trans code st
        { st.move k op (.inside mode (rest st.shared)) with shared := write st.shared }
  | unlock {k : ℕ} {op : Op} {mode : Mode} {r : R}
      (hk : st.calls[k]? = some ⟨op, .inside mode (.ret r)⟩) :
      Trans code st { st.move k op (.outside r) with left := st.left ++ [k] }
  | skip {k : ℕ} {op : Op} {r : R} (hk : st.calls[k]? = some ⟨op, .started⟩)
      (hcode : code op = .done r) :
      Trans code st { st.move k op (.returned r) with left := st.left ++ [k] }
  | ret {k : ℕ} {op : Op} {r : R} (hk : st.calls[k]? = some ⟨op, .outside r⟩) :
      Trans code st (st.move k op (.returned r))

theorem trans_of_step {label : Label Op} (h : step code st label = some st') :
    Trans code st st' := by
  unfold step at h
  split at h
  case h_1 op =>
    cases h
    exact .invoke op
  case h_2 k =>
    split at h
    case h_1 op hk =>
      split at h
      case h_1 mode body hcode =>
        split at h
        case isTrue hall =>
          cases h
          exact .lock hk hcode (List.all_eq_true.mp hall)
        case isFalse => cases h
      case h_2 => cases h
    case h_2 => cases h
  case h_3 k =>
    split at h
    case h_1 op mode write rest hk =>
      cases h
      exact .exec hk
    case h_2 => cases h
  case h_4 k =>
    split at h
    case h_1 op mode r hk =>
      cases h
      exact .unlock hk
    case h_2 => cases h
  case h_5 k =>
    split at h
    case h_1 op hk =>
      split at h
      case h_1 r hcode =>
        cases h
        exact .skip hk hcode
      case h_2 => cases h
    case h_2 => cases h
  case h_6 k =>
    split at h
    case h_1 op r hk =>
      cases h
      exact .ret hk
    case h_2 => cases h

theorem exists_label_of_trans (h : Trans code st st') : ∃ label, step code st label = some st' := by
  cases h with
  | invoke op => exact ⟨.invoke op, rfl⟩
  | @lock k op mode body hk hcode hfree =>
    refine ⟨.lock k, ?_⟩
    simp only [step, hk, hcode, List.all_eq_true.mpr hfree, if_true]
  | @exec k op mode write rest hk =>
    refine ⟨.exec k, ?_⟩
    simp only [step, hk]
  | @unlock k op mode r hk =>
    refine ⟨.unlock k, ?_⟩
    simp only [step, hk]
  | @skip k op r hk hcode =>
    refine ⟨.skip k, ?_⟩
    simp only [step, hk, hcode]
  | @ret k op r hk =>
    refine ⟨.ret k, ?_⟩
    simp only [step, hk]

theorem getElem?_move {k : ℕ} {c : Call Op S R} (hk : st.calls[k]? = some c) (op : Op)
    (place : Place S R) (j : ℕ) :
    (st.move k op place).calls[j]? = if k = j then some ⟨op, place⟩ else st.calls[j]? := by
  have hlt := (List.getElem?_eq_some_iff.mp hk).1
  unfold State.move
  rw [List.getElem?_set]
  by_cases hj : k = j
  · rw [if_pos hj, if_pos hj, if_pos hlt]
  · rw [if_neg hj, if_neg hj]

theorem getElem?_move_self {k : ℕ} {c : Call Op S R} (hk : st.calls[k]? = some c) (op : Op)
    (place : Place S R) : (st.move k op place).calls[k]? = some ⟨op, place⟩ := by
  rw [getElem?_move hk, if_pos rfl]

/-! ## Results -/

/-- The result of a call that has left its section. -/
def Call.outcome (c : Call Op S R) : Option (Op × R) :=
  match c.place with
  | .outside r => some (c.op, r)
  | .returned r => some (c.op, r)
  | _ => none

def State.outcome (st : State Op S R) (k : ℕ) : Option (Op × R) := st.calls[k]?.bind Call.outcome

theorem outcome_of_getElem? {k : ℕ} {c : Call Op S R} (hk : st.calls[k]? = some c) :
    st.outcome k = c.outcome := by
  unfold State.outcome
  rw [hk]
  rfl

theorem outcome_move {k : ℕ} {c : Call Op S R} (hk : st.calls[k]? = some c) (op : Op)
    (place : Place S R) (j : ℕ) :
    (st.move k op place).outcome j
      = if k = j then Call.outcome ⟨op, place⟩ else st.outcome j := by
  unfold State.outcome
  rw [getElem?_move hk]
  by_cases hj : k = j
  · rw [if_pos hj, if_pos hj]
    rfl
  · rw [if_neg hj, if_neg hj]

/-- A call that moves on keeps its result. -/
theorem outcome_move_of_eq {k : ℕ} {c : Call Op S R} (hk : st.calls[k]? = some c) (op : Op)
    (place : Place S R) (h : Call.outcome ⟨op, place⟩ = c.outcome) (j : ℕ) :
    (st.move k op place).outcome j = st.outcome j := by
  rw [outcome_move hk, h]
  by_cases hj : k = j
  · rw [if_pos hj, ← hj, outcome_of_getElem? hk]
  · rw [if_neg hj]

/-- A new call has no result. -/
theorem outcome_invoke (op : Op) (k : ℕ) :
    State.outcome { st with calls := st.calls ++ [⟨op, .started⟩] } k = st.outcome k := by
  unfold State.outcome
  dsimp only
  rw [List.getElem?_append]
  by_cases hlt : k < st.calls.length
  · rw [if_pos hlt]
  · rw [if_neg hlt, List.getElem?_eq_none (Nat.le_of_not_lt hlt)]
    cases k - st.calls.length with
    | zero => rfl
    | succ n => rfl

/-- A call with a result had it before the step, or has left its section or returned without one
in this step. -/
theorem outcome_cases (h : Trans code st st') {k : ℕ} {op : Op} {r : R}
    (hk : st'.outcome k = some (op, r)) :
    st.outcome k = some (op, r) ∨
    (∃ mode, st.calls[k]? = some ⟨op, .inside mode (.ret r)⟩ ∧
      st' = { st.move k op (.outside r) with left := st.left ++ [k] }) ∨ code op = .done r := by
  cases h with
  | invoke op' => exact Or.inl ((outcome_invoke op' k).symm.trans hk)
  | @lock j op' mode body hj =>
    exact Or.inl ((outcome_move_of_eq hj op' (.inside mode body) rfl k).symm.trans hk)
  | @exec j op' mode write rest hj =>
    exact Or.inl
      ((outcome_move_of_eq hj op' (.inside mode (rest st.shared)) rfl k).symm.trans hk)
  | @unlock j op' mode r' hj =>
    have hout := (outcome_move hj op' (.outside r') k).symm.trans hk
    by_cases hjk : j = k
    · subst hjk
      rw [if_pos rfl] at hout
      cases hout
      exact Or.inr (Or.inl ⟨mode, hj, rfl⟩)
    · rw [if_neg hjk] at hout
      exact Or.inl hout
  | @skip j op' r' hj hcode =>
    have hout := (outcome_move hj op' (.returned r') k).symm.trans hk
    by_cases hjk : j = k
    · rw [if_pos hjk] at hout
      cases hout
      exact Or.inr (Or.inr hcode)
    · rw [if_neg hjk] at hout
      exact Or.inl hout
  | @ret j op' r' hj =>
    exact Or.inl ((outcome_move_of_eq hj op' (.returned r') rfl k).symm.trans hk)

/-! ## The order in which the calls leave -/

/-- The calls that have left their section are those of a sequential execution, in its order and
with its results. -/
structure Ordered (code : Op → Code S R) (s₀ : S) (st : State Op S R) (log : List (Op × R))
    (s : S) : Prop where
  serial : Serial code s₀ log s
  order : st.left.map st.outcome = log.map some
  nodup : st.left.Nodup
  complete : ∀ k x, st.outcome k = some x → k ∈ st.left

section Ordered

variable {s₀ s s' : S} {log : List (Op × R)}

theorem Ordered.outcome_ne_none (h : Ordered code s₀ st log s) {k : ℕ} (hk : k ∈ st.left) :
    st.outcome k ≠ none := by
  have hmem : st.outcome k ∈ log.map some := by
    rw [← h.order]
    exact List.mem_map_of_mem hk
  obtain ⟨x, -, hx⟩ := List.mem_map.mp hmem
  rw [← hx]
  exact Option.some_ne_none x

/-- A step after which the same calls have results. -/
theorem Ordered.congr (h : Ordered code s₀ st log s) (hleft : st'.left = st.left)
    (hout : ∀ k, st'.outcome k = st.outcome k) : Ordered code s₀ st' log s where
  serial := h.serial
  order := by rw [hleft, funext hout, h.order]
  nodup := by rw [hleft]; exact h.nodup
  complete k x hx := by
    rw [hout] at hx
    rw [hleft]
    exact h.complete k x hx

/-- A step after which one more call has a result. -/
theorem Ordered.concat (h : Ordered code s₀ st log s) {k : ℕ} {op : Op} {r : R}
    (hnone : st.outcome k = none) (hleft : st'.left = st.left ++ [k])
    (hout : ∀ j, st'.outcome j = if k = j then some (op, r) else st.outcome j)
    (halone : (code op).alone s = (s', r)) : Ordered code s₀ st' (log ++ [(op, r)]) s' where
  serial := h.serial.concat halone
  order := by
    have hmem : k ∉ st.left := fun hk => h.outcome_ne_none hk hnone
    have hold : st.left.map st'.outcome = st.left.map st.outcome := by
      refine List.map_congr_left fun j hj => ?_
      rw [hout, if_neg (show k ≠ j from fun hkj => hmem (hkj ▸ hj))]
    rw [hleft, List.map_append, hold, h.order, List.map_append]
    simp only [List.map_cons, List.map_nil, hout, if_true]
  nodup := by
    rw [hleft, List.nodup_append]
    refine ⟨h.nodup, List.nodup_singleton k, fun j hj k' hk' hjk => ?_⟩
    rw [List.mem_singleton.mp hk'] at hjk
    exact h.outcome_ne_none hj (hjk ▸ hnone)
  complete j x hx := by
    rw [hleft]
    rw [hout] at hx
    by_cases hkj : k = j
    · exact List.mem_append_right _ (hkj ▸ List.mem_singleton_self k)
    · rw [if_neg hkj] at hx
      exact List.mem_append_left _ (h.complete j x hx)

end Ordered

/-! ## What the mutex keeps -/

/-- Call `k` is inside its critical section, with `rest` still to execute. -/
def State.Inside (st : State Op S R) (k : ℕ) (op : Op) (mode : Mode) (rest : Body S R) : Prop :=
  st.calls[k]? = some ⟨op, .inside mode rest⟩

/-- What is left of each section, executed from now on, ends as the section would have from the
shared state `s`; a reader's does not write, a writer is inside alone, and without a writer the
shared state is still `s`. -/
structure Held (code : Op → Code S R) (st : State Op S R) (s : S) : Prop where
  inside : ∀ k op mode rest, st.Inside k op mode rest →
    (code op).alone s = rest.exec st.shared ∧ (mode = .read → rest.ReadOnly)
  alone : ∀ k op rest, st.Inside k op .write rest →
    ∀ j op' mode rest', st.Inside j op' mode rest' → j = k
  quiet : (∀ k op rest, ¬ st.Inside k op .write rest) → st.shared = s

section Held

variable {s : S} {k : ℕ} {op : Op} {mode : Mode} {body : Body S R}

theorem inside_move_self {c : Call Op S R} (hk : st.calls[k]? = some c) {place : Place S R}
    {op' : Op} {mode' : Mode} {rest : Body S R}
    (h : (st.move k op place).Inside k op' mode' rest) : op' = op ∧ place = .inside mode' rest := by
  rw [State.Inside, getElem?_move_self hk] at h
  cases h
  exact ⟨rfl, rfl⟩

theorem inside_move_of_ne {c : Call Op S R} (hk : st.calls[k]? = some c) {place : Place S R}
    {op' : Op} {mode' : Mode} {rest : Body S R} {j : ℕ} (hj : k ≠ j) :
    (st.move k op place).Inside j op' mode' rest ↔ st.Inside j op' mode' rest := by
  unfold State.Inside
  rw [getElem?_move hk, if_neg hj]

/-- Call `k` is not inside before it moves, and not after. -/
theorem inside_move_iff {c : Call Op S R} (hk : st.calls[k]? = some c)
    (hc : ∀ mode rest, c.place ≠ .inside mode rest) {place : Place S R}
    (hplace : ∀ mode rest, place ≠ .inside mode rest) {op' : Op} {mode' : Mode}
    {rest : Body S R} {j : ℕ} :
    (st.move k op place).Inside j op' mode' rest ↔ st.Inside j op' mode' rest := by
  by_cases hj : k = j
  · subst hj
    constructor
    · intro h
      exact absurd (inside_move_self hk h).2 (hplace mode' rest)
    · intro h
      rw [State.Inside, hk, Option.some.injEq] at h
      exact absurd (congrArg Call.place h) (hc mode' rest)
  · exact inside_move_of_ne hk hj

theorem inside_invoke {op' : Op} {rest : Body S R} :
    State.Inside { st with calls := st.calls ++ [⟨op, .started⟩] } k op' mode rest
      ↔ st.Inside k op' mode rest := by
  unfold State.Inside
  dsimp only
  rw [List.getElem?_append]
  by_cases hlt : k < st.calls.length
  · rw [if_pos hlt]
  · rw [if_neg hlt, List.getElem?_eq_none (Nat.le_of_not_lt hlt)]
    cases k - st.calls.length with
    | zero => simp
    | succ n => simp

/-- The mutex can be taken only when nobody is inside, or only readers are and a reader takes it. -/
theorem mode_of_free (hfree : ∀ c ∈ st.calls, c.place.admits mode = true) {mode' : Mode}
    (h : st.Inside k op mode' body) : mode = .read ∧ mode' = .read := by
  have hadmits := hfree _ (List.mem_of_getElem? h)
  exact of_decide_eq_true hadmits

theorem Held.congr (h : Held code st s) (hshared : st'.shared = st.shared)
    (hinside : ∀ k op mode rest, st'.Inside k op mode rest ↔ st.Inside k op mode rest) :
    Held code st' s where
  inside k op mode rest hk := by
    rw [hshared]
    exact h.inside k op mode rest ((hinside k op mode rest).mp hk)
  alone k op rest hk j op' mode rest' hj :=
    h.alone k op rest ((hinside ..).mp hk) j op' mode rest' ((hinside ..).mp hj)
  quiet hno := by
    rw [hshared]
    exact h.quiet fun k op rest hk => hno k op rest ((hinside ..).mpr hk)

/-- A call takes the mutex. -/
theorem Held.lock (hread : ReadOnly code) (h : Held code st s)
    (hk : st.calls[k]? = some ⟨op, .started⟩) (hcode : code op = .take mode body)
    (hfree : ∀ c ∈ st.calls, c.place.admits mode = true) :
    Held code (st.move k op (.inside mode body)) s := by
  have hshared : st.shared = s :=
    h.quiet fun j op' rest hj => absurd (mode_of_free hfree hj).2 (by decide)
  refine ⟨fun j op' mode' rest hj => ?_, fun j op' rest hj i op'' mode'' rest' hi => ?_,
    fun _ => hshared⟩
  · by_cases hkj : k = j
    · subst hkj
      obtain ⟨rfl, hplace⟩ := inside_move_self hk hj
      cases hplace
      show (code op').alone s = body.exec st.shared ∧ _
      rw [hshared, hcode]
      refine ⟨rfl, ?_⟩
      rintro rfl
      exact hread op' body hcode
    · exact h.inside j op' mode' rest ((inside_move_of_ne hk hkj).mp hj)
  · by_cases hkj : k = j
    · subst hkj
      obtain ⟨-, hplace⟩ := inside_move_self hk hj
      cases hplace
      by_contra hik
      have hi' := (inside_move_of_ne hk (Ne.symm hik)).mp hi
      exact absurd (mode_of_free hfree hi').1 (by decide)
    · have hj' := (inside_move_of_ne hk hkj).mp hj
      exact absurd (mode_of_free hfree hj').2 (by decide)

/-- A call executes a statement: only a writer changes the shared state, and it is alone. -/
theorem Held.exec (h : Held code st s) {write : S → S} {rest : S → Body S R}
    (hk : st.Inside k op mode (.stmt write rest)) :
    Held code { st.move k op (.inside mode (rest st.shared)) with shared := write st.shared }
      s := by
  obtain ⟨halone, hro⟩ := h.inside k op mode _ hk
  have hreader : mode = .read → write st.shared = st.shared ∧ (rest st.shared).ReadOnly := by
    intro hmode
    cases hro hmode with
    | stmt hwrite hrest => exact ⟨hwrite _, hrest _⟩
  -- who is inside does not change, nor how
  have hback : ∀ j op' mode' body, (st.move k op (.inside mode (rest st.shared))).Inside j op'
      mode' body → ∃ body', st.Inside j op' mode' body' := by
    intro j op' mode' body hj
    by_cases hkj : k = j
    · subst hkj
      obtain ⟨rfl, hplace⟩ := inside_move_self hk hj
      cases hplace
      exact ⟨_, hk⟩
    · exact ⟨body, (inside_move_of_ne hk hkj).mp hj⟩
  refine ⟨fun j op' mode' body hj => ?_, fun j op' m hj i op'' mode'' m' hi => ?_, fun hno => ?_⟩
  · by_cases hkj : k = j
    · subst hkj
      obtain ⟨rfl, hplace⟩ := inside_move_self hk hj
      cases hplace
      exact ⟨halone, fun hmode => (hreader hmode).2⟩
    · have hj' := (inside_move_of_ne hk hkj).mp hj
      cases mode with
      | write => exact absurd (h.alone k op _ hk j op' mode' body hj').symm hkj
      | read =>
        show _ = body.exec (write st.shared) ∧ _
        rw [(hreader rfl).1]
        exact h.inside j op' mode' body hj'
  · obtain ⟨body, hj'⟩ := hback j op' .write m hj
    obtain ⟨body', hi'⟩ := hback i op'' mode'' m' hi
    exact h.alone j op' body hj' i op'' mode'' body' hi'
  · cases mode with
    | write => exact absurd (getElem?_move_self hk op _) (hno k op _)
    | read =>
      show write st.shared = s
      rw [(hreader rfl).1]
      refine h.quiet fun j op' body hj => ?_
      have hkj := h.alone j op' body hj k op .read _ hk
      subst hkj
      unfold State.Inside at hj hk
      rw [hk] at hj
      cases hj

/-- A call releases the mutex: the shared state is now what its section has made of it. -/
theorem Held.unlock (h : Held code st s) {r : R} (hk : st.Inside k op mode (.ret r))
    {left : List ℕ} : Held code { st.move k op (.outside r) with left } st.shared := by
  have hback : ∀ j op' mode' rest, (st.move k op (.outside r)).Inside j op' mode' rest →
      k ≠ j ∧ st.Inside j op' mode' rest := by
    intro j op' mode' rest hj
    by_cases hkj : k = j
    · subst hkj
      cases (inside_move_self hk hj).2
    · exact ⟨hkj, (inside_move_of_ne hk hkj).mp hj⟩
  refine ⟨fun j op' mode' rest hj => ?_, fun j op' m hj i op'' mode'' m' hi => ?_, fun _ => rfl⟩
  · obtain ⟨hkj, hj'⟩ := hback j op' mode' rest hj
    -- another call is inside, so no writer is
    have hshared : st.shared = s := by
      refine h.quiet fun i op'' m' hi => hkj ?_
      rw [h.alone i op'' m' hi k op mode _ hk, h.alone i op'' m' hi j op' mode' rest hj']
    have hinside := h.inside j op' mode' rest hj'
    rwa [← hshared] at hinside
  · exact h.alone j op' m (hback _ _ _ _ hj).2 i op'' mode'' m' (hback _ _ _ _ hi).2

end Held

/-- The calls that have left are a sequential execution that ends in `s`, and those inside have
started from there. -/
structure Linear (code : Op → Code S R) (s₀ : S) (st : State Op S R) (log : List (Op × R))
    (s : S) : Prop extends Ordered code s₀ st log s, Held code st s

theorem Linear.initial (s₀ : S) : Linear code s₀ (State.initial s₀) [] s₀ where
  serial := .nil
  order := rfl
  nodup := List.nodup_nil
  complete _ _ h := nomatch h
  inside _ _ _ _ h := nomatch h
  alone _ _ _ h := nomatch h
  quiet _ := rfl

/-- **Step.** A call that leaves is the next of the sequential execution. -/
theorem Linear.of_trans (hread : ReadOnly code) {s₀ s : S} {log : List (Op × R)}
    (h : Linear code s₀ st log s) (ht : Trans code st st') :
    ∃ log' s', Linear code s₀ st' log' s' := by
  cases ht with
  | invoke op =>
    exact ⟨log, s, h.toOrdered.congr rfl (outcome_invoke op),
      h.toHeld.congr rfl fun _ _ _ _ => inside_invoke⟩
  | @lock k op mode body hk hcode hfree =>
    exact ⟨log, s, h.toOrdered.congr rfl (outcome_move_of_eq hk op _ rfl),
      h.toHeld.lock hread hk hcode hfree⟩
  | @exec k op mode write rest hk =>
    exact ⟨log, s, h.toOrdered.congr rfl (outcome_move_of_eq hk op _ rfl), h.toHeld.exec hk⟩
  | @unlock k op mode r hk =>
    exact ⟨log ++ [(op, r)], st.shared,
      h.toOrdered.concat (outcome_of_getElem? hk) rfl (outcome_move hk op (.outside r))
        (h.inside k op mode _ hk).1,
      h.toHeld.unlock hk⟩
  | @skip k op r hk hcode =>
    have halone : (code op).alone s = (s, r) := by
      rw [hcode]
      rfl
    refine ⟨log ++ [(op, r)], s,
      h.toOrdered.concat (outcome_of_getElem? hk) rfl (outcome_move hk op (.returned r)) halone,
      h.toHeld.congr rfl fun _ _ _ _ => inside_move_iff hk ?_ ?_⟩
    · rintro _ _ ⟨⟩
    · rintro _ _ ⟨⟩
  | @ret k op r hk =>
    refine ⟨log, s, h.toOrdered.congr rfl (outcome_move_of_eq hk op _ rfl),
      h.toHeld.congr rfl fun _ _ _ _ => inside_move_iff hk ?_ ?_⟩
    · rintro _ _ ⟨⟩
    · rintro _ _ ⟨⟩

/-- **Run.** Under the mutex every interleaving is a sequential execution, in the order in which
the calls leave their sections. -/
theorem linearizable (hread : ReadOnly code) {s₀ : S} {labels : List (Label Op)}
    (h : run (step code) (State.initial s₀) labels = some st) :
    ∃ log s, Linear code s₀ st log s := by
  refine invariant_of_run (P := fun st => ∃ log s, Linear code s₀ st log s)
    ⟨[], s₀, Linear.initial s₀⟩ ?_ h
  rintro t label t' ⟨log, s, hlin⟩ hstep
  exact hlin.of_trans hread (trans_of_step hstep)

/-! ## What holds at every statement -/

/-- When the section is executed alone, `I` holds of every shared state it passes through, and
each of its statements leads from a state to one that `G` relates to it. -/
def Body.Along (I : S → Prop) (G : S → S → Prop) : Body S R → S → Prop
  | .ret _, s => I s
  | .stmt write rest, s => I s ∧ G s (write s) ∧ (rest s).Along I G (write s)

/-- Every section that is entered with `I` keeps it, and what `G` says of its statements. -/
def Keeps (code : Op → Code S R) (I : S → Prop) (G : S → S → Prop) : Prop :=
  ∀ op mode body, code op = .take mode body → ∀ s, I s → body.Along I G s

section Keeps

variable {I : S → Prop} {G : S → S → Prop} {s s₀ s' : S} {log : List (Op × R)}

theorem Body.Along.here {body : Body S R} (h : body.Along I G s) : I s := by
  cases body with
  | ret r => exact h
  | stmt write rest => exact h.1

theorem Body.Along.exec {body : Body S R} (h : body.Along I G s) : I (body.exec s).1 := by
  induction body generalizing s with
  | ret r => exact h
  | stmt write rest ih => exact ih s h.2.2

/-- A section that does not write passes through one state only. -/
theorem Body.ReadOnly.along {body : Body S R} (h : body.ReadOnly) (hrefl : ∀ s, G s s)
    (hs : I s) : body.Along I G s := by
  induction h generalizing s with
  | ret r => exact hs
  | stmt hwrite _ ih =>
    refine ⟨hs, ?_, ?_⟩
    · rw [hwrite]
      exact hrefl s
    · rw [hwrite]
      exact ih s hs

theorem Body.along_true (body : Body S R) (s : S) :
    body.Along (fun _ => True) (fun _ _ => True) s := by
  induction body generalizing s with
  | ret r => trivial
  | stmt write rest ih => exact ⟨trivial, trivial, ih s (write s)⟩

theorem keeps_true (code : Op → Code S R) : Keeps code (fun _ => True) fun _ _ => True :=
  fun _ _ body _ s _ => body.along_true s

theorem Keeps.alone (hkeeps : Keeps code I G) {op : Op} {r : R} (hs : I s)
    (h : (code op).alone s = (s', r)) : I s' := by
  cases hcode : code op with
  | done r' =>
    rw [hcode] at h
    cases h
    exact hs
  | take mode body =>
    rw [hcode] at h
    have hend := (hkeeps op mode body hcode s hs).exec
    rwa [show body.exec s = (s', r) from h] at hend

theorem Keeps.serial (hkeeps : Keeps code I G) (h₀ : I s₀) (h : Serial code s₀ log s) : I s := by
  induction h with
  | nil => exact h₀
  | concat _ halone ih => exact hkeeps.alone ih halone

/-- `I` holds now, and both will along what is left of every section. -/
structure Holds (I : S → Prop) (G : S → S → Prop) (st : State Op S R) : Prop where
  shared : I st.shared
  inside : ∀ k op mode rest, st.Inside k op mode rest → rest.Along I G st.shared

theorem Holds.congr (h : Holds I G st) (hshared : st'.shared = st.shared)
    (hinside : ∀ k op mode rest, st'.Inside k op mode rest → st.Inside k op mode rest) :
    Holds I G st' where
  shared := by
    rw [hshared]
    exact h.shared
  inside k op mode rest hk := by
    rw [hshared]
    exact h.inside k op mode rest (hinside k op mode rest hk)

theorem inside_of_unlock {k j : ℕ} {op op' : Op} {mode mode' : Mode} {r : R} {rest : Body S R}
    (hk : st.Inside k op mode (.ret r)) (hj : (st.move k op (.outside r)).Inside j op' mode' rest) :
    st.Inside j op' mode' rest := by
  have hkj : k ≠ j := by
    rintro rfl
    cases (inside_move_self hk hj).2
  exact (inside_move_of_ne hk hkj).mp hj

/-- A step keeps both: a writer executes its statement alone, and a reader's changes nothing. -/
theorem Holds.of_trans (hkeeps : Keeps code I G) (hrefl : ∀ s, G s s) (hheld : Held code st s)
    (h : Holds I G st) (ht : Trans code st st') : Holds I G st' ∧ G st.shared st'.shared := by
  cases ht with
  | invoke op => exact ⟨h.congr rfl fun _ _ _ _ => inside_invoke.mp, hrefl _⟩
  | @lock k op mode body hk hcode hfree =>
    refine ⟨⟨h.shared, fun j op' mode' rest hj => ?_⟩, hrefl _⟩
    by_cases hkj : k = j
    · subst hkj
      cases (inside_move_self hk hj).2
      exact hkeeps op mode body hcode st.shared h.shared
    · exact h.inside j op' mode' rest ((inside_move_of_ne hk hkj).mp hj)
  | @exec k op mode write rest hk =>
    obtain ⟨-, hG, hrest⟩ := h.inside k op mode _ hk
    refine ⟨⟨hrest.here, fun j op' mode' body hj => ?_⟩, hG⟩
    by_cases hkj : k = j
    · subst hkj
      cases (inside_move_self hk hj).2
      exact hrest
    · have hj' := (inside_move_of_ne hk hkj).mp hj
      cases mode with
      | write => exact absurd (hheld.alone k op _ hk j op' mode' body hj').symm hkj
      | read =>
        cases (hheld.inside k op .read _ hk).2 rfl with
        | stmt hwrite _ =>
          show body.Along I G (write st.shared)
          rw [hwrite]
          exact h.inside j op' mode' body hj'
  | @unlock k op mode r hk =>
    exact ⟨h.congr rfl fun _ _ _ _ => inside_of_unlock hk, hrefl _⟩
  | @skip k op r hk hcode =>
    refine ⟨h.congr rfl fun _ _ _ _ => (inside_move_iff hk ?_ ?_).mp, hrefl _⟩
    · rintro _ _ ⟨⟩
    · rintro _ _ ⟨⟩
  | @ret k op r hk =>
    refine ⟨h.congr rfl fun _ _ _ _ => (inside_move_iff hk ?_ ?_).mp, hrefl _⟩
    · rintro _ _ ⟨⟩
    · rintro _ _ ⟨⟩

variable (hread : ReadOnly code) (hkeeps : Keeps code I G) (hrefl : ∀ s, G s s) (h₀ : I s₀)
include hread hkeeps hrefl h₀

theorem linear_and_holds {labels : List (Label Op)}
    (h : run (step code) (State.initial s₀) labels = some st) :
    (∃ log s, Linear code s₀ st log s) ∧ Holds I G st := by
  refine invariant_of_run (P := fun st => (∃ log s, Linear code s₀ st log s) ∧ Holds I G st)
    ⟨⟨[], s₀, Linear.initial s₀⟩, h₀, fun _ _ _ _ hk => nomatch hk⟩ ?_ h
  rintro t label t' ⟨⟨log, s, hlin⟩, hholds⟩ hstep
  have ht := trans_of_step hstep
  exact ⟨hlin.of_trans hread ht, (hholds.of_trans hkeeps hrefl hlin.toHeld ht).1⟩

/-- **Invariants.** What every section keeps at each of its statements holds in every state of
every interleaving. -/
theorem invariant_of_sections {labels : List (Label Op)}
    (h : run (step code) (State.initial s₀) labels = some st) : I st.shared :=
  (linear_and_holds hread hkeeps hrefl h₀ h).2.shared

/-- **Guarantees.** What relates the states before and after each statement of a section relates
an earlier state of an interleaving to every later one. -/
theorem guarantee_of_sections (htrans : ∀ a b c, G a b → G b c → G a c) {mid : State Op S R}
    {labels labels' : List (Label Op)}
    (h : run (step code) (State.initial s₀) labels = some mid)
    (h' : run (step code) mid labels' = some st) : G mid.shared st.shared := by
  refine (invariant_of_run (P := fun t => ((∃ log s, Linear code s₀ t log s) ∧ Holds I G t) ∧
    G mid.shared t.shared) ⟨linear_and_holds hread hkeeps hrefl h₀ h, hrefl _⟩ ?_ h').2
  rintro t label t' ⟨⟨⟨log, s, hlin⟩, hholds⟩, hG⟩ hstep
  have ht := trans_of_step hstep
  obtain ⟨hholds', hG'⟩ := hholds.of_trans hkeeps hrefl hlin.toHeld ht
  exact ⟨⟨hlin.of_trans hread ht, hholds'⟩, htrans _ _ _ hG hG'⟩

/-- **What a call has established stays.** A call that has left its section with a result that
makes `Q` true, which no statement can make false again: from then on `Q` holds in every state. -/
theorem established_of_sections (Q : S → Prop) (est : Op → R → Prop)
    (hmono : ∀ s s', G s s' → Q s → Q s') (hdone : ∀ op r, code op = .done r → ¬ est op r)
    (hest : ∀ op s s' r, I s → (code op).alone s = (s', r) → est op r → Q s')
    {labels : List (Label Op)} (h : run (step code) (State.initial s₀) labels = some st)
    {k : ℕ} {op : Op} {r : R} (hk : st.outcome k = some (op, r)) (hr : est op r) :
    Q st.shared := by
  have hinit : ∀ k op r, (State.initial s₀ : State Op S R).outcome k = some (op, r) → est op r →
      Q s₀ := by
    rintro k op r ⟨⟩
  refine (invariant_of_run (P := fun t => ((∃ log s, Linear code s₀ t log s) ∧ Holds I G t) ∧
    ∀ k op r, t.outcome k = some (op, r) → est op r → Q t.shared)
    ⟨linear_and_holds hread hkeeps hrefl h₀ run_nil, hinit⟩ ?_ h).2 k op r hk hr
  rintro t label t' ⟨⟨⟨log, s, hlin⟩, hholds⟩, hQ⟩ hstep
  have ht := trans_of_step hstep
  obtain ⟨hholds', hG'⟩ := hholds.of_trans hkeeps hrefl hlin.toHeld ht
  refine ⟨⟨hlin.of_trans hread ht, hholds'⟩, fun j op' r' hj hr' => ?_⟩
  obtain hold | ⟨mode, hinside, rfl⟩ | hcode := outcome_cases ht hj
  · exact hmono _ _ hG' (hQ j op' r' hold hr')
  · have halone := (hlin.inside j op' mode _ hinside).1
    exact hest op' s _ r' (hkeeps.serial h₀ hlin.serial) halone hr'
  · exact absurd hr' (hdone op' r' hcode)

end Keeps

/-! ## Atomic operations -/

/-- Operations one after another, each in one step. -/
def applyAll {T : Type*} (apply : Op → T → T × R) : List Op → T → T × List R
  | [], t => (t, [])
  | op :: ops, t =>
    let (t', r) := apply op t
    let (t'', rs) := applyAll apply ops t'
    (t'', r :: rs)

theorem applyAll_append {T : Type*} (apply : Op → T → T × R) (ops ops' : List Op) (t : T) :
    applyAll apply (ops ++ ops') t
      = ((applyAll apply ops' (applyAll apply ops t).1).1,
          (applyAll apply ops t).2 ++ (applyAll apply ops' (applyAll apply ops t).1).2) := by
  induction ops generalizing t with
  | nil => rfl
  | cons op ops ih =>
    simp only [List.cons_append, applyAll, ih]

theorem length_applyAll {T : Type*} (apply : Op → T → T × R) (ops : List Op) (t : T) :
    (applyAll apply ops t).2.length = ops.length := by
  induction ops generalizing t with
  | nil => rfl
  | cons op ops ih => exact congrArg Nat.succ (ih _)

/-- The interleaving looks as if every call that has left were one step `apply`, taken in the order
of `log`: with the results of that order, and, when no writer is inside, with its final state. -/
structure Atomic {T : Type*} (apply : Op → T → T × R) (abs : S → T) (t₀ : T) (st : State Op S R)
    (log : List (Op × R)) : Prop where
  results : (applyAll apply (log.map Prod.fst) t₀).2 = log.map Prod.snd
  order : st.left.map st.outcome = log.map some
  nodup : st.left.Nodup
  complete : ∀ k x, st.outcome k = some x → k ∈ st.left
  final : (∀ k op rest, ¬ st.Inside k op .write rest) →
    (applyAll apply (log.map Prod.fst) t₀).1 = abs st.shared

section Atomic

variable {T : Type*} {apply : Op → T → T × R} {abs : S → T} {t₀ : T} {log : List (Op × R)}

/-- A result in the order is that of its operation after the operations before it. -/
theorem Atomic.result_at (h : Atomic apply abs t₀ st log) {before after : List (Op × R)} {op : Op}
    {r : R} (hlog : log = before ++ (op, r) :: after) :
    r = (apply op (applyAll apply (before.map Prod.fst) t₀).1).2 := by
  have hresults := h.results
  rw [hlog, List.map_append, List.map_append, applyAll_append] at hresults
  have hlen : (applyAll apply (before.map Prod.fst) t₀).2.length
      = (before.map Prod.snd).length := by
    rw [length_applyAll, List.length_map, List.length_map]
  have hrest := (List.append_inj hresults hlen).2
  rw [List.map_cons, List.map_cons, applyAll] at hrest
  exact (List.cons.inj hrest).1.symm

theorem Atomic.mem_log (h : Atomic apply abs t₀ st log) {k : ℕ} {x : Op × R}
    (hk : st.outcome k = some x) : x ∈ log := by
  have hmem : some x ∈ log.map some := by
    rw [← h.order, ← hk]
    exact List.mem_map_of_mem (h.complete k x hk)
  obtain ⟨y, hy, hyx⟩ := List.mem_map.mp hmem
  exact Option.some.inj hyx ▸ hy

/-- The result of a call is that of its operation after the operations of the calls that left
before it. -/
theorem Atomic.result (h : Atomic apply abs t₀ st log) {k : ℕ} {op : Op} {r : R}
    (hk : st.outcome k = some (op, r)) :
    ∃ before after, log = before ++ (op, r) :: after ∧
      r = (apply op (applyAll apply (before.map Prod.fst) t₀).1).2 := by
  obtain ⟨before, after, hlog⟩ := List.append_of_mem (h.mem_log hk)
  exact ⟨before, after, hlog, h.result_at hlog⟩

end Atomic

/-- **Refinement.** When each call executed alone is one step of `apply` on what the shared state
represents, every interleaving is atomic. -/
theorem atomic_of_sections {T : Type*} {apply : Op → T → T × R} {abs : S → T} {I : S → Prop}
    {G : S → S → Prop} (hread : ReadOnly code) (hkeeps : Keeps code I G)
    (hrefines : ∀ op s s' r, I s → (code op).alone s = (s', r) → apply op (abs s) = (abs s', r))
    {s₀ : S} (h₀ : I s₀) {labels : List (Label Op)}
    (h : run (step code) (State.initial s₀) labels = some st) :
    ∃ log, Atomic apply abs (abs s₀) st log := by
  obtain ⟨log, s, hlin⟩ := linearizable hread h
  have hserial : ∀ {log s}, Serial code s₀ log s →
      applyAll apply (log.map Prod.fst) (abs s₀) = (abs s, log.map Prod.snd) := by
    intro log s hs
    induction hs with
    | nil => rfl
    | concat hprev halone ih =>
      rw [List.map_append, List.map_append, List.map_singleton, List.map_singleton, applyAll_append,
        ih, applyAll, hrefines _ _ _ _ (hkeeps.serial h₀ hprev) halone]
      rfl
  refine ⟨log, ?_, hlin.order, hlin.nodup, hlin.complete, fun hno => ?_⟩
  · rw [hserial hlin.serial]
  · rw [hserial hlin.serial, hlin.quiet hno]

/-! ## The order of calls that do not overlap -/

theorem left_of_trans (h : Trans code st st') : st.left <+: st'.left := by
  cases h with
  | invoke | lock | exec | ret => exact List.prefix_rfl
  | unlock | skip => exact List.prefix_append _ _

/-- The calls that have left stay first. -/
theorem left_of_run {labels : List (Label Op)} (h : run (step code) st labels = some st') :
    st.left <+: st'.left := by
  refine invariant_of_run (P := fun t => st.left <+: t.left) List.prefix_rfl ?_ h
  intro t label t' ht hstep
  exact ht.trans (left_of_trans (trans_of_step hstep))

/-! ## No call is stuck -/

def Place.pending : Place S R → Bool
  | .returned _ => false
  | _ => true

def State.pending (st : State Op S R) : ℕ := st.calls.countP fun c => c.place.pending

/-- From `st` on, some schedule leads to `st'`. -/
def Leads (code : Op → Code S R) : State Op S R → State Op S R → Prop :=
  Relation.ReflTransGen (Trans code)

theorem run_of_leads (h : Leads code st st') :
    ∃ labels, run (step code) st labels = some st' := by
  induction h with
  | refl => exact ⟨[], rfl⟩
  | tail _ ht ih =>
    obtain ⟨labels, hrun⟩ := ih
    obtain ⟨label, hstep⟩ := exists_label_of_trans ht
    exact ⟨labels ++ [label], run_concat_eq_some.mpr ⟨_, hrun, hstep⟩⟩

section Finish

variable (code) {k : ℕ} {op : Op} {mode : Mode}

/-- A call that is inside runs to the end of its section, leaves and returns. -/
theorem finish_inside {rest : Body S R} (hk : st.Inside k op mode rest) :
    ∃ st' r, Leads code st st' ∧ st'.calls = st.calls.set k ⟨op, .returned r⟩ := by
  induction rest generalizing st with
  | ret r =>
    have hout := getElem?_move_self hk op (.outside r)
    refine ⟨_, r, Relation.ReflTransGen.head (.unlock hk) (.single (.ret hout)), ?_⟩
    exact List.set_set ..
  | stmt write rest ih =>
    have hinside : State.Inside
        { st.move k op (.inside mode (rest st.shared)) with shared := write st.shared }
        k op mode (rest st.shared) := getElem?_move_self hk op _
    obtain ⟨st', r, hleads, hcalls⟩ := ih st.shared hinside
    refine ⟨st', r, Relation.ReflTransGen.head (.exec hk) hleads, ?_⟩
    rw [hcalls]
    exact List.set_set ..

/-- A call that has not begun takes the mutex that nobody holds. -/
theorem finish_started (hk : st.calls[k]? = some ⟨op, .started⟩)
    (hfree : ∀ j op mode rest, ¬ st.Inside j op mode rest) :
    ∃ st' r, Leads code st st' ∧ st'.calls = st.calls.set k ⟨op, .returned r⟩ := by
  cases hcode : code op with
  | done r => exact ⟨_, r, .single (.skip hk hcode), rfl⟩
  | take mode body =>
    have hadmits : ∀ c ∈ st.calls, c.place.admits mode = true := by
      rintro ⟨op', place⟩ hc
      obtain ⟨j, hj⟩ := List.mem_iff_getElem?.mp hc
      cases place with
      | inside mode' rest => exact absurd hj (hfree j op' mode' rest)
      | started | outside | returned => rfl
    have hinside := getElem?_move_self hk op (.inside mode body)
    obtain ⟨st', r, hleads, hcalls⟩ := finish_inside code hinside
    refine ⟨st', r, Relation.ReflTransGen.head (.lock hk hcode hadmits) hleads, ?_⟩
    rw [hcalls]
    exact List.set_set ..

end Finish

/-- As long as a call has not returned, some schedule lets one more return. -/
theorem finish_one (code : Op → Code S R) (h : ∃ c ∈ st.calls, c.place.pending = true) :
    ∃ st' k c r, Leads code st st' ∧ st.calls[k]? = some c ∧ c.place.pending = true ∧
      st'.calls = st.calls.set k ⟨c.op, .returned r⟩ := by
  by_cases hfree : ∃ j op mode rest, st.Inside j op mode rest
  · obtain ⟨j, op, mode, rest, hj⟩ := hfree
    obtain ⟨st', r, hleads, hcalls⟩ := finish_inside code hj
    exact ⟨st', j, _, r, hleads, hj, rfl, hcalls⟩
  · push Not at hfree
    obtain ⟨⟨op, place⟩, hc, hpending⟩ := h
    obtain ⟨k, hk⟩ := List.mem_iff_getElem?.mp hc
    cases place with
    | started =>
      obtain ⟨st', r, hleads, hcalls⟩ := finish_started code hk hfree
      exact ⟨st', k, _, r, hleads, hk, rfl, hcalls⟩
    | inside mode rest => exact absurd hk (hfree k op mode rest)
    | outside r => exact ⟨_, k, _, r, .single (.ret hk), hk, rfl, rfl⟩
    | returned r => cases hpending

/-- **Progress.** From every state on, some schedule lets all calls return. -/
theorem completes (code : Op → Code S R) (st : State Op S R) :
    ∃ labels st', run (step code) st labels = some st' ∧
      st'.calls.map Call.op = st.calls.map Call.op ∧
      ∀ c ∈ st'.calls, c.place.pending = false := by
  suffices h : ∃ st', Leads code st st' ∧ st'.calls.map Call.op = st.calls.map Call.op ∧
      ∀ c ∈ st'.calls, c.place.pending = false by
    obtain ⟨st', hleads, hops, hall⟩ := h
    obtain ⟨labels, hrun⟩ := run_of_leads hleads
    exact ⟨labels, st', hrun, hops, hall⟩
  -- by the number of calls that have not returned
  induction hn : st.pending generalizing st with
  | zero =>
    refine ⟨st, .refl, rfl, fun c hc => ?_⟩
    exact Bool.eq_false_iff.mpr (List.countP_eq_zero.mp hn c hc)
  | succ n ih =>
    have hpos : 0 < st.pending := hn ▸ Nat.succ_pos n
    obtain ⟨mid, k, c, r, hleads, hk, hc, hcalls⟩ :=
      finish_one code (List.countP_pos_iff.mp hpos)
    obtain ⟨hlt, hget⟩ := List.getElem?_eq_some_iff.mp hk
    have hmid : mid.pending = n := by
      unfold State.pending at hn ⊢
      rw [hcalls, List.countP_set hlt, hn, hget, hc]
      rfl
    obtain ⟨st', hleads', hops, hall⟩ := ih mid hmid
    refine ⟨st', hleads.trans hleads', ?_, hall⟩
    rw [hops, hcalls, List.map_set]
    refine List.ext_getElem? fun j => ?_
    rw [List.getElem?_set, List.length_map, if_pos hlt]
    by_cases hj : k = j
    · rw [if_pos hj, ← hj, List.getElem?_map, hk]
      rfl
    · rw [if_neg hj]

end RwMutex
end Lib
