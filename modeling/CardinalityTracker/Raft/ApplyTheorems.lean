import CardinalityTracker.HandlerTheorems
import CardinalityTracker.Raft.Node
import CardinalityTracker.Recovery

/-!
# What `applyEntries` does

An entry of the log acts on a node through the `Update` it carries: a join into one group,
flushed to the store when the command is accepted. `applyEntry` is related to three
abstractions of it, one for each part of the node:

* the engine's groups are the fold of the joins (`applyEntries_groups`);
* the live groups and the stored ones move as `Lib.Copies` does (`applyEntries_represents`);
* the applied index and the snapshot counter depend on the accepted entries only
  (`applyEntries_snapCount`, `applyEntries_appliedIdx`).
-/

namespace CardinalityTracker

open Lib

variable {σ τ : Type}

/-- The command an entry carries, if it is a normal one whose data decodes. -/
def Entry.command (proto : Proto) (e : Entry) : Option Command :=
  if e.type ≠ .normal ∨ e.data.length = 0 then none else (proto.unmarshal e.data).toOption

/-- The update an entry makes; an entry that is skipped makes none. -/
def Entry.update (proto : Proto) (alg : Algorithm σ) (e : Entry) : Update GoString σ :=
  match e.command proto with
  | none => ⟨[], none, false⟩
  | some cmd => ⟨cmd.group, (cmd.effect alg).content, (cmd.effect alg).accepted⟩

theorem Entry.update_of_command {proto : Proto} (alg : Algorithm σ) {e : Entry} {cmd : Command}
    (h : e.command proto = some cmd) :
    e.update proto alg = ⟨cmd.group, (cmd.effect alg).content, (cmd.effect alg).accepted⟩ := by
  unfold Entry.update
  rw [h]

/-- An entry is accepted when it reaches the end of the loop's body: its index becomes the
applied index and it counts towards the next snapshot. -/
def Entry.accepted (proto : Proto) (alg : Algorithm σ) (e : Entry) : Bool :=
  (e.update proto alg).flush

/-- Entries whose indices follow each other, from `first` on: a piece of a Raft log. -/
def Contiguous (first : ℕ) (es : List Entry) : Prop :=
  ∀ i e, es[i]? = some e → e.index = first + i

theorem contiguous_append {first : ℕ} {es es' : List Entry} (h : Contiguous first es)
    (h' : Contiguous (first + es.length) es') : Contiguous first (es ++ es') := by
  intro i e he
  by_cases hi : i < es.length
  · rw [List.getElem?_append_left hi] at he
    exact h i e he
  · rw [List.getElem?_append_right (not_lt.mp hi)] at he
    have := h' _ e he
    omega

theorem contiguous_singleton (e : Entry) : Contiguous e.index [e] := by
  intro i e' he
  rcases i with _ | i
  · rw [List.getElem?_cons_zero, Option.some.injEq] at he
    rw [he, Nat.add_zero]
  · simp at he

theorem Contiguous.pairwise {first : ℕ} {es : List Entry} (h : Contiguous first es) :
    es.Pairwise fun e e' => e.index < e'.index := by
  rw [List.pairwise_iff_getElem]
  intro i j hi hj hij
  have hi' := h i _ (List.getElem?_eq_getElem hi)
  have hj' := h j _ (List.getElem?_eq_getElem hj)
  omega

namespace Node

variable {alg : Algorithm σ}

/-- An entry that carries no command is skipped. -/
theorem applyEntry_of_skipped (env : Env τ) (n : Node alg τ) {e : Entry}
    (h : e.command env.proto = none) : n.applyEntry env e = n := by
  unfold Entry.command at h
  unfold applyEntry
  by_cases hskip : e.type ≠ .normal ∨ e.data.length = 0
  · rw [if_pos hskip]
  · rw [if_neg hskip] at h ⊢
    cases hdata : env.proto.unmarshal e.data with
    | error err => rfl
    | ok cmd =>
      rw [hdata] at h
      cases h

/-- An entry with a command is dispatched. -/
theorem applyEntry_of_command (env : Env τ) (n : Node alg τ) {e : Entry} {cmd : Command}
    (h : e.command env.proto = some cmd) :
    n.applyEntry env e
      = match defaultRegistry.dispatch (some cmd) (some (Engine.adder alg)) n.engine with
        | (engine, some _) => { n with engine }
        | (engine, none) =>
          { n with
            engine
            store := (engine.persist cmd.group (Store.save env.out cmd.group) n.store).1
            appliedIdx := e.index
            snapCount := n.snapCount + 1 } := by
  unfold Entry.command at h
  unfold applyEntry
  by_cases hskip : e.type ≠ .normal ∨ e.data.length = 0
  · rw [if_pos hskip] at h
    cases h
  · rw [if_neg hskip] at h ⊢
    cases hdata : env.proto.unmarshal e.data with
    | error err =>
      rw [hdata] at h
      cases h
    | ok cmd' =>
      rw [hdata] at h
      obtain rfl : cmd' = cmd := Option.some.inj h
      rfl

section Join

variable [SemilatticeSup σ] [OrderBot σ]

/-- **One entry.** With a command whose effect is known, the entry either stops at the
dispatch error or goes through; the engine is joined with the content in both cases. -/
theorem applyEntry_cases (halg : alg.IsJoin) (env : Env τ) (n : Node alg τ) (e : Entry) :
    let u := e.update env.proto alg
    let engine : Engine alg := ⟨joinOpt n.engine.groups u.joins⟩
    n.applyEntry env e
      = if u.flush then
          { n with
            engine
            store := (engine.persist u.key (Store.save env.out u.key) n.store).1
            appliedIdx := e.index
            snapCount := n.snapCount + 1 }
        else { n with engine } := by
  unfold Entry.update
  cases hcmd : e.command env.proto with
  | none => exact applyEntry_of_skipped env n hcmd
  | some cmd =>
    obtain ⟨hgroups, herr⟩ := dispatch_eq_effect halg cmd n.engine
    rw [applyEntry_of_command env n hcmd]
    rcases hd : defaultRegistry.dispatch (some cmd) (some (Engine.adder alg)) n.engine
      with ⟨engine, err⟩
    rw [hd] at hgroups herr
    obtain rfl : engine = ⟨joinOpt n.engine.groups
        ((cmd.effect alg).content.map fun s => (cmd.group, s))⟩ := Engine.ext hgroups
    -- the error decides between the two ends of the loop body, not what the engine holds
    cases err with
    | none => simp only [herr.mp rfl, if_true, Update.joins]
    | some err =>
      have hrefused : (cmd.effect alg).accepted = false := by
        cases hacc : (cmd.effect alg).accepted with
        | false => rfl
        | true => exact absurd (herr.mpr hacc) (Option.some_ne_none err)
      simp only [hrefused, Bool.false_eq_true, if_false, Update.joins]

/-! ## The engine -/

theorem applyEntry_groups (halg : alg.IsJoin) (env : Env τ) (n : Node alg τ) (e : Entry) :
    (n.applyEntry env e).engine.groups
      = joinOpt n.engine.groups (e.update env.proto alg).joins := by
  rw [applyEntry_cases halg]
  cases (e.update env.proto alg).flush <;> rfl

/-- The engine after a list of entries is the fold of their joins, whatever the store, the
indices and the counter do. -/
theorem applyEntries_groups (halg : alg.IsJoin) (env : Env τ) (n : Node alg τ)
    (es : List Entry) :
    (n.applyEntries env es).engine.groups
      = (es.map fun e => (e.update env.proto alg).joins).foldl joinOpt n.engine.groups := by
  unfold applyEntries
  induction es generalizing n with
  | nil => rfl
  | cons e es ih =>
    rw [List.foldl_cons, ih, applyEntry_groups halg, List.map_cons, List.foldl_cons]

/-! ## The index, the counter and the storage -/

theorem applyEntry_storage (halg : alg.IsJoin) (env : Env τ) (n : Node alg τ) (e : Entry) :
    (n.applyEntry env e).storage = n.storage := by
  rw [applyEntry_cases halg]
  cases (e.update env.proto alg).flush <;> rfl

theorem applyEntry_snapCount (halg : alg.IsJoin) (env : Env τ) (n : Node alg τ) (e : Entry) :
    (n.applyEntry env e).snapCount
      = n.snapCount + if e.accepted env.proto alg then 1 else 0 := by
  rw [applyEntry_cases halg]
  unfold Entry.accepted
  cases (e.update env.proto alg).flush <;> rfl

theorem applyEntry_appliedIdx (halg : alg.IsJoin) (env : Env τ) (n : Node alg τ) (e : Entry) :
    (n.applyEntry env e).appliedIdx
      = if e.accepted env.proto alg then e.index else n.appliedIdx := by
  rw [applyEntry_cases halg]
  unfold Entry.accepted
  cases (e.update env.proto alg).flush <;> rfl

theorem applyEntries_storage (halg : alg.IsJoin) (env : Env τ) (n : Node alg τ)
    (es : List Entry) : (n.applyEntries env es).storage = n.storage := by
  unfold applyEntries
  induction es generalizing n with
  | nil => rfl
  | cons e es ih => rw [List.foldl_cons, ih, applyEntry_storage halg]

/-- The counter grows by the number of accepted entries. -/
theorem applyEntries_snapCount (halg : alg.IsJoin) (env : Env τ) (n : Node alg τ)
    (es : List Entry) :
    (n.applyEntries env es).snapCount
      = n.snapCount + es.countP (Entry.accepted env.proto alg) := by
  unfold applyEntries
  induction es generalizing n with
  | nil => rfl
  | cons e es ih =>
    rw [List.foldl_cons, ih, applyEntry_snapCount halg, List.countP_cons]
    omega

/-- The index of the last accepted entry, or `idx` when none is. -/
def lastAccepted (proto : Proto) (alg : Algorithm σ) (idx : ℕ) (es : List Entry) : ℕ :=
  es.foldl (fun idx e => if e.accepted proto alg then e.index else idx) idx

omit [SemilatticeSup σ] [OrderBot σ] in
theorem lastAccepted_concat (proto : Proto) (alg : Algorithm σ) (idx : ℕ) (es : List Entry)
    (e : Entry) :
    lastAccepted proto alg idx (es ++ [e])
      = if e.accepted proto alg then e.index else lastAccepted proto alg idx es := by
  unfold lastAccepted
  rw [List.foldl_append, List.foldl_cons, List.foldl_nil]

omit [SemilatticeSup σ] [OrderBot σ] in
theorem applyEntries_concat (env : Env τ) (n : Node alg τ) (es : List Entry) (e : Entry) :
    n.applyEntries env (es ++ [e]) = (n.applyEntries env es).applyEntry env e := by
  unfold applyEntries
  rw [List.foldl_append, List.foldl_cons, List.foldl_nil]

theorem applyEntries_appliedIdx (halg : alg.IsJoin) (env : Env τ) (n : Node alg τ)
    (es : List Entry) :
    (n.applyEntries env es).appliedIdx = lastAccepted env.proto alg n.appliedIdx es := by
  unfold applyEntries lastAccepted
  induction es generalizing n with
  | nil => rfl
  | cons e es ih => rw [List.foldl_cons, ih, applyEntry_appliedIdx halg, List.foldl_cons]

/-! ## The live groups and the stored ones -/

/-- A node represents a pair of maps: its engine is the live one and its store holds the
stored one. -/
def Represents (n : Node alg τ) (c : Copies GoString σ compare) : Prop :=
  n.engine.groups = c.live ∧ n.store.Holds alg c.stored

/-- An entry's update, flushed only if the save it makes writes its bytes. -/
def savedUpdate (env : Env τ) (n : Node alg τ) (e : Entry) : Update GoString σ :=
  { e.update env.proto alg with
    flush := e.accepted env.proto alg && (env.out n.store.saves).written }

theorem applyEntry_represents (halg : alg.IsJoin) (env : Env τ) {n : Node alg τ}
    {c : Copies GoString σ compare} (h : n.Represents c) (e : Entry) :
    (n.applyEntry env e).Represents (c.apply (savedUpdate env n e)) := by
  obtain ⟨hlive, hstored⟩ := h
  refine ⟨?_, ?_⟩
  · rw [applyEntry_groups halg, hlive]
    rfl
  · rw [applyEntry_cases halg]
    unfold savedUpdate Entry.accepted Copies.apply
    -- the store is only reached by an accepted entry
    cases hflush : (e.update env.proto alg).flush with
    | false => exact hstored
    | true =>
      simp only [if_true, Bool.true_and, ← hlive]
      exact hstored.persist _ env.out _

/-- With saves that all succeed, a list of entries acts on the pair as its updates do. -/
theorem applyEntries_represents (halg : alg.IsJoin) {env : Env τ} (hok : ∀ k, env.out k = .ok)
    {n : Node alg τ} {c : Copies GoString σ compare} (h : n.Represents c) (es : List Entry) :
    (n.applyEntries env es).Represents
      ((es.map (Entry.update env.proto alg)).foldl Copies.apply c) := by
  unfold applyEntries
  induction es generalizing n c with
  | nil => exact h
  | cons e es ih =>
    have hsaved : savedUpdate env n e = e.update env.proto alg := by
      unfold savedUpdate Entry.accepted
      rw [hok, SaveOutcome.written, Bool.and_true]
    have hstep := applyEntry_represents halg env h e
    rw [hsaved] at hstep
    exact ih hstep

end Join

end Node

end CardinalityTracker
