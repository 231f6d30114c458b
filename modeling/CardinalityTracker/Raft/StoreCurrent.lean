import CardinalityTracker.Raft.Provenance

/-!
# What the next process finds

The loop applies an entry in two steps: `Dispatch` changes the engine under its lock, then `Persist`
writes the sketch of the group. Between two entries the store has exactly the groups of the engine
(`store_current`), with saves that succeed; between the two steps of one entry it is behind by that
entry. So the next process starts with what the last one had applied and saved, at whatever point it
was killed.

A command that is accepted in part would be applied and not saved, but no request makes one.
-/

namespace CardinalityTracker
namespace RaftMode

open Lib EtcdStorage

variable {σ τ : Type} {alg : Algorithm σ}

section Join

variable [SemilatticeSup σ] [OrderBot σ]

/-- An entry that is no command or an add leaves the two maps equal. -/
theorem eq_of_addEntry {proto : Proto} (hproto : proto.Lawful) {adds : List (GoString × UInt64)}
    {e : Entry} (he : AddEntry proto adds e) {c : Copies GoString σ compare}
    (h : c.live = c.stored) :
    (c.apply (e.update proto alg)).live = (c.apply (e.update proto alg)).stored := by
  rcases he with hnone | ⟨group, id, -, hcarries⟩
  · have hupdate : e.update proto alg = ⟨[], none, false⟩ := by
      unfold Entry.update
      rw [hnone]
    rw [hupdate]
    exact h
  · refine Copies.eq_of_flush h ?_
    rw [Entry.update_of_carries hproto hcarries]

/-- The store has the groups of the engine, as their bytes. -/
def Current (n : Node alg τ) : Prop := n.store.Holds alg n.engine.groups

theorem Current.applyEntries (halg : alg.IsJoin) {env : Env τ} (hproto : env.proto.Lawful)
    (hsaves : ∀ k, env.out k = .ok) {n : Node alg τ} (h : Current n) {es : List Entry}
    {adds : List (GoString × UInt64)} (hes : ∀ e ∈ es, AddEntry env.proto adds e) :
    Current (n.applyEntries env es) := by
  have hsame : ∀ (es : List Entry) (c : Copies GoString σ compare), c.live = c.stored →
      (∀ e ∈ es, AddEntry env.proto adds e) →
      ((es.map (Entry.update env.proto alg)).foldl Copies.apply c).live
        = ((es.map (Entry.update env.proto alg)).foldl Copies.apply c).stored := by
    intro es
    induction es with
    | nil => exact fun c hc _ => hc
    | cons e es ih =>
      intro c hc hes
      exact ih _ (eq_of_addEntry hproto (hes e List.mem_cons_self) hc)
        fun e' he' => hes e' (List.mem_cons_of_mem _ he')
  have hrep : n.Represents ⟨n.engine.groups, n.engine.groups⟩ := ⟨rfl, h⟩
  obtain ⟨hlive, hstored⟩ := Node.applyEntries_represents halg hsaves hrep es
  unfold Current
  rw [hlive, hsame es _ rfl hes]
  exact hstored

theorem Current.ready (halg : alg.IsJoin) {env : Env τ} (hproto : env.proto.Lawful)
    (hsaves : ∀ k, env.out k = .ok) {n n' : Node alg τ} (h : Current n) {rd : Ready}
    {adds : List (GoString × UInt64)}
    (hrd : ∀ e ∈ rd.committedEntries, AddEntry env.proto adds e)
    (hready : n.ready env rd = some n') : Current n' := by
  obtain ⟨storage, live, rfl, hengine, hstore, -⟩ := Node.ready_applies hready
  have hstorage : Current { n with storage } := h
  have hlive := hstorage.applyEntries halg hproto hsaves hrd
  unfold Current at hlive ⊢
  rw [hengine, hstore]
  exact hlive

/-- A restart rebuilds what a current store has been current with. -/
theorem Current.restart (halg : alg.IsJoin) (env : Env τ) {n : Node alg τ} (h : Current n)
    {s : State alg τ} (hstore : s.node.store = n.store) :
    ∃ s', restart env s = some s' ∧ s'.node.engine = n.engine ∧ Current s'.node := by
  have hholds : s.node.store.Holds alg n.engine.groups := hstore ▸ h
  exact ⟨_, restart_eq_some_iff.mpr ⟨_, _, restoreAll_of_holds halg hholds, rfl⟩, rfl, hholds⟩

end Join

end RaftMode
end CardinalityTracker
