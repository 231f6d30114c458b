import CardinalityTracker.Lib.Runs
import CardinalityTracker.Reference.Entries

/-!
# Snapshots of the applied state

A snapshot pairs the whole live state with the index of the last *accepted* entry. The two
are not taken at one point of the log: entries above that index may already be in the data
(a truncated batch joins its ids and is not counted). `snapshot_then_suffix` says that this
is harmless. Restoring the data and replaying every entry above the index gives what the
whole log gives, because replaying an entry that is already in the data changes nothing.

The first part says what one `Ready` batch does to each field of the node, for later files.
-/

namespace CardinalityTracker

open Lib EtcdStorage

variable {σ τ : Type}

/-- Everything handed to `storage.Append` in a run, in order. -/
def appendedOf (hist : List Ready) : List Entry := hist.flatMap Ready.entries

/-- Everything handed to `applyEntries` in a run, in order. -/
def committedOf (hist : List Ready) : List Entry := hist.flatMap Ready.committedEntries

theorem appendedOf_concat (hist : List Ready) (rd : Ready) :
    appendedOf (hist ++ [rd]) = appendedOf hist ++ rd.entries := by
  unfold appendedOf
  rw [List.flatMap_append, List.flatMap_cons, List.flatMap_nil, List.append_nil]

theorem committedOf_concat (hist : List Ready) (rd : Ready) :
    committedOf (hist ++ [rd]) = committedOf hist ++ rd.committedEntries := by
  unfold committedOf
  rw [List.flatMap_append, List.flatMap_cons, List.flatMap_nil, List.append_nil]

namespace Node

variable {alg : Algorithm σ}

/-! ## One batch -/

/-- Only accepted entries move the applied index, and it is then the index of one of them. -/
theorem lastAccepted_cases (proto : Proto) (alg : Algorithm σ) (idx : ℕ) (es : List Entry) :
    (es.countP (Entry.accepted proto alg) = 0 ∧ lastAccepted proto alg idx es = idx) ∨
      lastAccepted proto alg idx es ∈ es.map Entry.index := by
  induction es generalizing idx with
  | nil => exact Or.inl ⟨rfl, rfl⟩
  | cons e es ih =>
    unfold lastAccepted at ih ⊢
    rw [List.foldl_cons, List.map_cons]
    -- no later entry is accepted, or one of them has set the index
    rcases ih (if e.accepted proto alg then e.index else idx) with ⟨hnone, hidx⟩ | hmem
    · cases hacc : e.accepted proto alg with
      | true =>
        rw [hacc] at hidx
        exact Or.inr (by rw [if_pos rfl] at hidx ⊢; rw [hidx]; exact List.mem_cons_self)
      | false =>
        rw [hacc] at hidx
        refine Or.inl ⟨?_, hidx⟩
        rw [List.countP_cons_of_neg (by rw [hacc]; exact Bool.false_ne_true), hnone]
    · exact Or.inr (List.mem_cons_of_mem _ hmem)

/-- `maybeSnapshot` touches the storage and resets the counter, and nothing else. -/
theorem maybeSnapshot_cases {env : Env τ} {n n' : Node alg τ}
    (h : n.maybeSnapshot env = some n') :
    n'.engine = n.engine ∧ n'.store = n.store ∧ n'.appliedIdx = n.appliedIdx ∧
      (n'.snapCount = 0 ∨ n'.snapCount = n.snapCount) := by
  unfold maybeSnapshot at h
  cases hsnap : n.snapshotOf env with
  | none =>
    rw [hsnap, Option.some.injEq] at h
    subst h
    exact ⟨rfl, rfl, rfl, Or.inr rfl⟩
  | some snap =>
    rw [hsnap] at h
    rcases happly : env.memory.applySnapshot n.storage snap with ⟨storage, _ | err⟩
    · simp only [happly] at h
      cases hcompact : env.memory.compact storage n.appliedIdx with
      | none =>
        rw [hcompact] at h
        cases h
      | some r =>
        simp only [hcompact, Option.some.injEq] at h
        subst h
        exact ⟨rfl, rfl, rfl, Or.inl rfl⟩
    · simp only [happly, Option.some.injEq] at h
      subst h
      exact ⟨rfl, rfl, rfl, Or.inr rfl⟩

/-- A batch that does not end the process leaves what its committed entries do, but for the storage
and a counter that may be reset. -/
theorem ready_applies {env : Env τ} {n n' : Node alg τ} {rd : Ready}
    (h : n.ready env rd = some n') :
    ∃ storage live, live = { n with storage }.applyEntries env rd.committedEntries ∧
      n'.engine = live.engine ∧ n'.store = live.store ∧ n'.appliedIdx = live.appliedIdx ∧
      (n'.snapCount = 0 ∨ n'.snapCount = live.snapCount) := by
  unfold ready at h
  rcases happend : env.memory.append n.storage rd.entries with _ | ⟨storage, err⟩
  · simp [happend] at h
  · simp only [happend] at h
    exact ⟨storage, _, rfl, maybeSnapshot_cases h⟩

section Join

variable [SemilatticeSup σ] [OrderBot σ]

/-- The node on which `maybeSnapshot` is called, field by field. -/
theorem applyEntries_withStorage (halg : alg.IsJoin) (env : Env τ) (n : Node alg τ) (storage : τ)
    (es : List Entry) :
    ({ n with storage }.applyEntries env es).engine = (n.applyEntries env es).engine ∧
      ({ n with storage }.applyEntries env es).appliedIdx = (n.applyEntries env es).appliedIdx ∧
      ({ n with storage }.applyEntries env es).snapCount = (n.applyEntries env es).snapCount := by
  refine ⟨Engine.ext ?_, ?_, ?_⟩
  · rw [applyEntries_groups halg, applyEntries_groups halg]
  · rw [applyEntries_appliedIdx halg, applyEntries_appliedIdx halg]
  · rw [applyEntries_snapCount halg, applyEntries_snapCount halg]

/-- **One `Ready` batch**, for a batch that does not end the process. -/
theorem ready_cases (halg : alg.IsJoin) {env : Env τ} {n n' : Node alg τ} {rd : Ready}
    (h : n.ready env rd = some n') :
    n'.engine.groups = (rd.committedEntries.map fun e => (e.update env.proto alg).joins).foldl
        joinOpt n.engine.groups ∧
      n'.appliedIdx = lastAccepted env.proto alg n.appliedIdx rd.committedEntries ∧
      (n'.snapCount = 0 ∨ n'.snapCount
        = n.snapCount + rd.committedEntries.countP (Entry.accepted env.proto alg)) := by
  obtain ⟨storage, live, rfl, hengine, -, hidx, hcount⟩ := ready_applies h
  obtain ⟨hengine', hidx', hcount'⟩ :=
    applyEntries_withStorage halg env n storage rd.committedEntries
  refine ⟨?_, ?_, ?_⟩
  · rw [hengine, hengine', applyEntries_groups halg]
  · rw [hidx, hidx', applyEntries_appliedIdx halg]
  · rw [← applyEntries_snapCount halg, ← hcount']
    exact hcount

/-! ## A run -/

/-- What a run from `NewNode` has made of the engine, and where the applied index points. -/
def Applied (env : Env τ) (start : StringMap σ) (hist : List Ready) (n : Node alg τ) : Prop :=
  n.engine.groups = ((committedOf hist).map fun e => (e.update env.proto alg).joins).foldl
      joinOpt start ∧
    (n.snapCount = 0 ∨ n.appliedIdx ∈ (committedOf hist).map Entry.index)

omit [SemilatticeSup σ] [OrderBot σ] in
/-- A batch keeps the applied index inside the log while anything is counted. -/
theorem applied_next {env : Env τ} {hist : List Ready} {n : Node alg τ}
    (hidx : n.snapCount = 0 ∨ n.appliedIdx ∈ (committedOf hist).map Entry.index) {es : List Entry}
    {count : ℕ} (hcount : count = 0 ∨ count
      = n.snapCount + es.countP (Entry.accepted env.proto alg)) :
    count = 0 ∨ lastAccepted env.proto alg n.appliedIdx es
      ∈ (committedOf hist ++ es).map Entry.index := by
  rw [List.map_append, List.mem_append]
  rcases lastAccepted_cases env.proto alg n.appliedIdx es with ⟨hnone, hsame⟩ | hmem
  · -- nothing was accepted, so the counter is the old one or has been reset
    rcases hcount with hzero | hsum
    · exact Or.inl hzero
    · rw [hnone, Nat.add_zero] at hsum
      rw [hsum, hsame]
      exact hidx.imp_right Or.inl
  · exact Or.inr (Or.inr hmem)

theorem applied_of_run (halg : alg.IsJoin) (env : Env τ) (engine : Engine alg) (store : Store)
    {hist : List Ready} {n : Node alg τ}
    (hrun : run (ready env) (new env engine store) hist = some n) :
    Applied env engine.groups hist n := by
  refine invariant_of_meets (C := fun _ _ _ => True) ⟨rfl, Or.inl rfl⟩ ?_ (meets_true hist) hrun
  intro hist n rd n' hinv _ hstep
  obtain ⟨hgroups, hidx⟩ := hinv
  obtain ⟨hgroups', hidx', hcount'⟩ := ready_cases halg hstep
  unfold Applied
  rw [committedOf_concat]
  refine ⟨?_, ?_⟩
  · rw [hgroups', hgroups, List.map_append, List.foldl_append]
  · rw [hidx']
    exact applied_next hidx hcount'

end Join

/-! ## Snapshot and suffix -/

/-- In the run over `hist` from `NewNode`, the next batch `rd` makes `maybeSnapshot` build
`snap`, on the node `live`. -/
def TakesSnapshot (env : Env τ) (engine : Engine alg) (store : Store) (hist : List Ready)
    (rd : Ready) (live : Node alg τ) (snap : Snapshot) : Prop :=
  ∃ n storage err, run (ready env) (new env engine store) hist = some n ∧
    env.memory.append n.storage rd.entries = some (storage, err) ∧
    live = { n with storage }.applyEntries env rd.committedEntries ∧
    live.snapshotOf env = some snap

theorem snapshotOf_eq_some {env : Env τ} {n : Node alg τ} {snap : Snapshot}
    (h : n.snapshotOf env = some snap) :
    snapshotThreshold ≤ n.snapCount ∧ n.engine.marshal env.gob env.order = .ok snap.data ∧
      snap.index = n.appliedIdx ∧ snap.term = 1 := by
  unfold snapshotOf at h
  split at h
  · cases h
  · rename_i hcount
    cases hdata : n.engine.marshal env.gob env.order with
    | error err =>
      rw [hdata] at h
      cases h
    | ok data =>
      simp only [hdata, Option.some.injEq] at h
      subst h
      exact ⟨not_lt.mp hcount, rfl, rfl, rfl⟩

theorem snapshotOf_of_due {env : Env τ} {n : Node alg τ} (hdue : snapshotThreshold ≤ n.snapCount)
    {data : Bytes} (hdata : n.engine.marshal env.gob env.order = .ok data) :
    n.snapshotOf env = some ⟨data, n.appliedIdx, 1⟩ := by
  unfold snapshotOf
  rw [if_neg (not_lt.mpr hdue), hdata]

section Join

variable [SemilatticeSup σ] [OrderBot σ]

/-- A snapshot holds the joins of everything committed so far, under the index of one of
those entries. -/
theorem applied_of_takesSnapshot (halg : alg.IsJoin) {env : Env τ} {engine : Engine alg}
    {store : Store} {hist : List Ready} {rd : Ready} {live : Node alg τ} {snap : Snapshot}
    (h : TakesSnapshot env engine store hist rd live snap) :
    live.engine.groups = ((committedOf (hist ++ [rd])).map fun e =>
        (e.update env.proto alg).joins).foldl joinOpt engine.groups ∧
      snap.index ∈ (committedOf (hist ++ [rd])).map Entry.index := by
  obtain ⟨n, storage, err, hrun, -, rfl, hsnap⟩ := h
  obtain ⟨hgroups, hidx⟩ := applied_of_run halg env engine store hrun
  obtain ⟨hdue, -, hindex, -⟩ := snapshotOf_eq_some hsnap
  obtain ⟨hengine', hidx', hcount'⟩ :=
    applyEntries_withStorage halg env n storage rd.committedEntries
  rw [committedOf_concat]
  refine ⟨?_, ?_⟩
  · rw [hengine', applyEntries_groups halg, hgroups, List.map_append, List.foldl_append]
  · -- the counter has reached the threshold, so an entry has been accepted
    have hcount := applied_next hidx (Or.inr (applyEntries_snapCount halg env n
      rd.committedEntries))
    rw [hindex, hidx', applyEntries_appliedIdx halg]
    refine hcount.resolve_left ?_
    rw [← hcount']
    unfold snapshotThreshold at hdue
    omega

/-- Replaying the entries above an index of the log, over a state that has seen the log up to
some point at or after it, gives what the whole log gives. -/
theorem replay_suffix (proto : Proto) (alg : Algorithm σ) (start : StringMap σ)
    {seen rest : List Entry} (hincr : (seen ++ rest).Pairwise fun e e' => e.index < e'.index)
    {idx : ℕ} (hidx : idx ∈ seen.map Entry.index) :
    (((seen ++ rest).filter fun e => idx < e.index).map fun e =>
        (e.update proto alg).joins).foldl joinOpt
        ((seen.map fun e => (e.update proto alg).joins).foldl joinOpt start)
      = ((seen ++ rest).map fun e => (e.update proto alg).joins).foldl joinOpt start := by
  rw [← List.foldl_append, ← List.map_append]
  refine absorbing_joinOpt.foldl_congr (fun x => ?_) start
  -- the same set of entries on both sides: nothing of `rest` is filtered out
  have hrest : ∀ e ∈ rest, idx < e.index := by
    intro e he
    obtain ⟨e₀, he₀, rfl⟩ := List.mem_map.mp hidx
    exact (List.pairwise_append.mp hincr).2.2 e₀ he₀ e he
  simp only [List.mem_map, List.mem_append, List.mem_filter, decide_eq_true_eq]
  constructor
  · rintro ⟨e, hseen | ⟨he, -⟩, hx⟩
    · exact ⟨e, Or.inl hseen, hx⟩
    · exact ⟨e, he, hx⟩
  · rintro ⟨e, hseen | he, hx⟩
    · exact ⟨e, Or.inl hseen, hx⟩
    · exact ⟨e, Or.inr ⟨Or.inr he, hrest e he⟩, hx⟩

end Join

/-- **Snapshot plus log suffix equals the full log.** For every snapshot of every run, from
every engine: unmarshalling its data into any engine gives the live engine of that moment,
and applying the entries of the log above its index, those committed later included, gives
the groups that applying the whole log to the start gives. -/
theorem snapshot_then_suffix (sum64 : Bytes → UInt64) (env : Env τ)
    (hgob : env.gob.RoundTrips) (engine : Engine (Hll.algorithm sum64)) (store : Store)
    (hist : List Ready) (rd : Ready) (live : Node (Hll.algorithm sum64) τ) (snap : Snapshot)
    (htakes : TakesSnapshot env engine store hist rd live snap) (rest : List Entry)
    (hincr : (committedOf (hist ++ [rd]) ++ rest).Pairwise fun e e' => e.index < e'.index) :
    (∀ (order : RangeOrder) (e : Engine (Hll.algorithm sum64)),
      e.unmarshal env.gob order snap.data = (live.engine, none)) ∧
    ∀ (env' : Env τ) (n : Node (Hll.algorithm sum64) τ), env'.proto = env.proto →
      n.engine = live.engine →
      (n.applyEntries env' ((committedOf (hist ++ [rd]) ++ rest).filter fun e =>
          snap.index < e.index)).engine.groups
        = ((new env engine store).applyEntries env
            (committedOf (hist ++ [rd]) ++ rest)).engine.groups := by
  have halg := Hll.isJoin sum64
  obtain ⟨hgroups, hidx⟩ := applied_of_takesSnapshot halg htakes
  obtain ⟨_, _, _, _, _, _, hsnap⟩ := htakes
  refine ⟨?_, ?_⟩
  · intro order e
    exact Engine.unmarshal_marshal halg hgob (snapshotOf_eq_some hsnap).2.1 order e
  · intro env' n hproto hengine
    rw [applyEntries_groups halg, applyEntries_groups halg, hproto, hengine, hgroups]
    exact replay_suffix env.proto _ _ hincr hidx

/-- A window of adds, a batch and one more add. -/
theorem contiguous_window : Contiguous 1
    (adds 2 1 10000 ++ [truncatedBatch 2 10001] ++ [addFive 2 10002]) := by
  have hbatch : Contiguous (1 + (adds 2 1 10000).length) [truncatedBatch 2 10001] := by
    rw [length_adds]
    exact contiguous_singleton (truncatedBatch 2 10001)
  have hlast : Contiguous (1 + (adds 2 1 10000 ++ [truncatedBatch 2 10001]).length)
      [addFive 2 10002] := by
    rw [List.length_append, length_adds]
    exact contiguous_singleton (addFive 2 10002)
  exact contiguous_append (contiguous_append (contiguous_adds 2 1 10000) hbatch) hlast

/-- A window of 10,000 adds makes a snapshot due. The truncated batch committed with it is in
the data, and its index is above that of the snapshot. -/
theorem snapshot_then_suffix_window :
    ∃ live snap, TakesSnapshot savingEnv freshNode.engine Store.empty []
        ⟨adds 2 1 10000 ++ [truncatedBatch 2 10001], adds 2 1 10000 ++ [truncatedBatch 2 10001]⟩
        live snap ∧
      snap.index = 10000 ∧
      freshNode.engine.unmarshal GobCodec.codec GobCodec.keyOrder snap.data = (live.engine, none) ∧
      (live.applyEntries failingEnv ((adds 2 1 10000 ++ [truncatedBatch 2 10001]
          ++ [addFive 2 10002]).filter fun e => snap.index < e.index)).engine.groups
        = (freshNode.applyEntries savingEnv (adds 2 1 10000 ++ [truncatedBatch 2 10001]
          ++ [addFive 2 10002])).engine.groups := by
  set rd : Ready :=
    ⟨adds 2 1 10000 ++ [truncatedBatch 2 10001], adds 2 1 10000 ++ [truncatedBatch 2 10001]⟩
    with hrd
  have halg := Hll.isJoin Murmur3.sum64
  have hcommitted : rd.committedEntries = adds 2 1 (9999 + 1) ++ [truncatedBatch 2 10001] := rfl
  have hentries : rd.entries = addFive 2 1 :: (adds 2 2 9999 ++ [truncatedBatch 2 10001]) := by
    rw [hrd, ← List.cons_append, ← adds_cons]
  obtain ⟨storage, happend, -, -⟩ := storage_lawful.append_next EtcdStorage.storage.new
    (addFive 2 1) (adds 2 2 9999 ++ [truncatedBatch 2 10001]) rfl
  rw [← hentries] at happend
  -- the node that `maybeSnapshot` sees
  obtain ⟨live, hlive⟩ : ∃ live, live
      = { freshNode with storage }.applyEntries savingEnv rd.committedEntries := ⟨_, rfl⟩
  have hcount : live.snapCount = 10000 := by
    rw [hlive, applyEntries_snapCount halg, hcommitted, List.countP_append]
    show 0 + (_ + _) = 10000
    rw [show savingEnv.proto = Protobuf.codec from rfl, countP_adds, List.countP_singleton,
      accepted_truncatedBatch]
    rfl
  have hidx : live.appliedIdx = 10000 := by
    rw [hlive, applyEntries_appliedIdx halg, hcommitted, lastAccepted_concat,
      show savingEnv.proto = Protobuf.codec from rfl, accepted_truncatedBatch, lastAccepted_adds]
    rfl
  have hgroups : live.engine.groups = joinAt ∅ (str "g")
      ((Hll.algorithm Murmur3.sum64).single 5 ⊔ (Hll.algorithm Murmur3.sum64).sketchOf [1]) := by
    rw [hlive, applyEntries_groups halg, hcommitted, List.map_append, List.foldl_append,
      show savingEnv.proto = Protobuf.codec from rfl, joins_adds, List.map_cons, List.map_nil,
      update_truncatedBatch, ← joinAt_joinAt]
    rfl
  obtain ⟨data, hdata⟩ := marshal_singleton Murmur3.sum64 hgroups
  have hsnap : live.snapshotOf savingEnv = some ⟨data, live.appliedIdx, 1⟩ :=
    snapshotOf_of_due (by rw [hcount]; exact le_rfl) hdata
  have htakes : TakesSnapshot savingEnv freshNode.engine Store.empty [] rd live
      ⟨data, live.appliedIdx, 1⟩ := ⟨freshNode, storage, none, rfl, happend, hlive, hsnap⟩
  -- the log it is part of, with one more add after it
  have hlog : committedOf ([] ++ [rd]) = adds 2 1 10000 ++ [truncatedBatch 2 10001] := by
    rw [committedOf_concat, show committedOf [] = [] from rfl, List.nil_append]
  have hincr : (committedOf ([] ++ [rd]) ++ [addFive 2 10002]).Pairwise
      fun e e' => e.index < e'.index := by
    rw [hlog]
    exact contiguous_window.pairwise
  obtain ⟨hunmarshal, hsuffix⟩ := snapshot_then_suffix Murmur3.sum64 savingEnv
    GobCodec.codec_roundTrips freshNode.engine Store.empty [] rd live _ htakes
    [addFive 2 10002] hincr
  rw [hlog, show new savingEnv freshNode.engine Store.empty = freshNode from rfl] at hsuffix
  refine ⟨live, ⟨data, live.appliedIdx, 1⟩, htakes, hidx,
    hunmarshal GobCodec.keyOrder freshNode.engine, ?_⟩
  exact hsuffix failingEnv live rfl rfl

end Node

end CardinalityTracker
