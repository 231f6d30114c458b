import CardinalityTracker.Raft.SnapshotTheorems

/-!
# The Raft log under snapshots

`maybeSnapshot` replaces the log in storage by the position it records, under the index of
the last accepted entry and the constant term 1. `snapshots_transparent` says what that takes
to be transparent to the log. In a run whose snapshots are all taken at the last entry
appended, the storage is always a suffix of the log and an append never panics; if moreover
these entries have term 1, the position in front of the suffix is a true one.

`snapshot_drops_tail` is a run in which both fail: entries after the boot sequence have term
2, and one of them has been appended but not yet committed when the snapshot is taken.
-/

namespace CardinalityTracker

open Lib EtcdStorage

variable {σ τ : Type}

/-! ## Runs of the loop -/

/-- A batch as the consensus library produces it after `hist`: its entries continue the log,
and what has been committed is a beginning of what has been appended. -/
structure WellFormedReady (hist : List Ready) (rd : Ready) : Prop where
  entries_contiguous : Contiguous (1 + (appendedOf hist).length) rd.entries
  committed_appended : committedOf (hist ++ [rd]) <+: appendedOf (hist ++ [rd])

/-- Every batch of the run is well formed. -/
def WellFormedRun (batches : List Ready) : Prop :=
  ∀ hist rd rest, batches = hist ++ rd :: rest → WellFormedReady hist rd

theorem wellFormedRun_nil : WellFormedRun [] := by
  intro hist rd rest h
  exact absurd h (by simp)

theorem WellFormedRun.concat {hist : List Ready} {rd : Ready} (h : WellFormedRun hist)
    (hlast : WellFormedReady hist rd) : WellFormedRun (hist ++ [rd]) := by
  intro hist' rd' rest hsplit
  rcases concat_eq_append_cons hsplit with ⟨-, rfl, rfl⟩ | ⟨rest', -, hls⟩
  · exact hlast
  · exact h hist' rd' rest' hls

/-- If a snapshot becomes due in the batch `rd`, then the entry it is taken at is the last
one of the log. -/
def SnapshotAtTip {alg : Algorithm σ} (env : Env τ) (hist : List Ready) (n : Node alg τ)
    (rd : Ready) : Prop :=
  snapshotThreshold ≤ n.snapCount + rd.committedEntries.countP (Entry.accepted env.proto alg) →
    Node.lastAccepted env.proto alg n.appliedIdx rd.committedEntries
      = (appendedOf (hist ++ [rd])).length

/-- If a snapshot becomes due in the batch `rd`, then the last entry of the log has term 1. -/
def SnapshotInTermOne {alg : Algorithm σ} (env : Env τ) (hist : List Ready) (n : Node alg τ)
    (rd : Ready) : Prop :=
  snapshotThreshold ≤ n.snapCount + rd.committedEntries.countP (Entry.accepted env.proto alg) →
    ∃ e, (appendedOf (hist ++ [rd])).getLast? = some e ∧ e.term = 1

/-! ## Transparency -/

/-- The position at the head of the storage is a position of the log. -/
def Recorded (ms : MemoryStorage τ) (log : List Entry) (s : τ) : Prop :=
  ∃ d, (ms.ents s).head? = some d ∧
    ((d.index = 0 ∧ d.term = 0) ∨ ∃ e ∈ log, e.index = d.index ∧ e.term = d.term)

/-- Every entry of the log above that position is in the storage. -/
def Kept (ms : MemoryStorage τ) (log : List Entry) (s : τ) : Prop :=
  ∀ d, (ms.ents s).head? = some d → ∀ e ∈ log, d.index < e.index → e ∈ ms.ents s

/-- The last position of the log is in the storage, and entries that follow it can be
appended. -/
def Extensible (ms : MemoryStorage τ) (log : List Entry) (s : τ) : Prop :=
  (∃ p ∈ ms.ents s, p.index = log.length) ∧
    ∀ e es, e.index = log.length + 1 → (ms.append s (e :: es)).isSome

/-- The storage is what is left of the log: a position of it, then the rest. -/
def IsSuffix (ms : MemoryStorage τ) (log : List Entry) (s : τ) : Prop :=
  ∃ d, ms.ents s = d :: log.drop d.index ∧ d.index ≤ log.length

theorem IsSuffix.lastIndex_eq {ms : MemoryStorage τ} {log : List Entry} {s : τ}
    (h : IsSuffix ms log s) : lastIndex (ms.ents s) = log.length := by
  obtain ⟨d, hents, hle⟩ := h
  rw [hents, lastIndex, List.length_drop]
  omega

theorem IsSuffix.kept {ms : MemoryStorage τ} {log : List Entry} {s : τ}
    (hlog : Contiguous 1 log) (h : IsSuffix ms log s) : Kept ms log s := by
  obtain ⟨d, hents, -⟩ := h
  intro d' hd' e he hlt
  rw [hents, List.head?_cons, Option.some.injEq] at hd'
  subst hd'
  -- the entry at place `i` has index `i + 1`, so it is not dropped
  obtain ⟨i, hi⟩ := List.getElem?_of_mem he
  have hidx := hlog i e hi
  have hdrop : (log.drop d.index)[i - d.index]? = some e := by
    rw [List.getElem?_drop, show d.index + (i - d.index) = i by omega, hi]
  rw [hents]
  exact List.mem_cons_of_mem _ (List.mem_of_getElem? hdrop)

theorem IsSuffix.extensible {ms : MemoryStorage τ} (hms : ms.Lawful) {log : List Entry} {s : τ}
    (hlog : Contiguous 1 log) (h : IsSuffix ms log s) : Extensible ms log s := by
  have hlast := h.lastIndex_eq
  refine ⟨?_, ?_⟩
  · obtain ⟨d, hents, hle⟩ := h
    by_cases hd : d.index = log.length
    · exact ⟨d, by rw [hents]; exact List.mem_cons_self, hd⟩
    · -- the last entry of the log is still there
      have hget : (log.drop d.index)[log.length - 1 - d.index]?
          = some (log.get ⟨log.length - 1, by omega⟩) := by
        rw [List.getElem?_drop, show d.index + (log.length - 1 - d.index) = log.length - 1 by omega]
        exact List.getElem?_eq_getElem _
      have hidx := hlog (log.length - 1) _ (List.getElem?_eq_getElem (by omega))
      refine ⟨log.get ⟨log.length - 1, by omega⟩, ?_, ?_⟩
      · rw [hents]
        exact List.mem_cons_of_mem _ (List.mem_of_getElem? hget)
      · rw [List.get_eq_getElem, hidx]
        omega
  · -- the storage ends where the log does
    intro e es he
    obtain ⟨s', happend, -⟩ := hms.append_next s e es (by rw [hlast, he])
    rw [happend]
    rfl

/-! ## One batch -/

/-- Appending the entries of a well-formed batch to a storage that reaches the end of the log
succeeds and adds them at its end. -/
theorem append_ents {ms : MemoryStorage τ} (hms : ms.Lawful) {hist : List Ready} {rd : Ready}
    {s : τ} (hwf : WellFormedReady hist rd)
    (hlast : lastIndex (ms.ents s) = (appendedOf hist).length) :
    ∃ s', ms.append s rd.entries = some (s', none) ∧ ms.ents s' = ms.ents s ++ rd.entries ∧
      ms.snapshotIndex s' = ms.snapshotIndex s := by
  rcases hentries : rd.entries with _ | ⟨e, es⟩
  · exact ⟨s, hms.append_nil s, (List.append_nil _).symm, rfl⟩
  · have hidx := hwf.entries_contiguous 0 e (by rw [hentries, List.getElem?_cons_zero])
    exact hms.append_next s e es (by omega)

theorem IsSuffix.append {ms : MemoryStorage τ} {log es : List Entry} {s s' : τ}
    (h : IsSuffix ms log s) (hents : ms.ents s' = ms.ents s ++ es) :
    IsSuffix ms (log ++ es) s' := by
  obtain ⟨d, hd, hle⟩ := h
  refine ⟨d, ?_, ?_⟩
  · rw [hents, hd, List.drop_append_of_le_length hle, List.cons_append]
  · rw [List.length_append]
    omega

theorem Recorded.append {ms : MemoryStorage τ} {log es : List Entry} {s s' : τ}
    (h : Recorded ms log s) (hents : ms.ents s' = ms.ents s ++ es) :
    Recorded ms (log ++ es) s' := by
  obtain ⟨d, hd, hpos⟩ := h
  refine ⟨d, ?_, ?_⟩
  · rw [hents, List.head?_append, hd, Option.some_or]
  · exact hpos.imp_right fun ⟨e, he, hed⟩ => ⟨e, List.mem_append_left _ he, hed⟩

/-- A newer snapshot leaves its own position in storage, and nothing else: there is nothing
left for `Compact` to do. -/
theorem maybeSnapshot_newer {alg : Algorithm σ} {env : Env τ} (hms : env.memory.Lawful)
    {n : Node alg τ} {snap : Snapshot} (hsnap : n.snapshotOf env = some snap)
    (hnew : env.memory.snapshotIndex n.storage < n.appliedIdx) :
    ∃ n', n.maybeSnapshot env = some n' ∧
      env.memory.ents n'.storage = [dummyEntry n.appliedIdx 1] := by
  obtain ⟨-, -, hindex, hterm⟩ := Node.snapshotOf_eq_some hsnap
  obtain ⟨s', happly, hents, -⟩ := hms.applySnapshot_newer n.storage snap (by omega)
  rw [hindex, hterm] at hents
  have hcompact : env.memory.compact s' n.appliedIdx = some (s', some .compacted) :=
    hms.compact_old s' _ ⟨dummyEntry n.appliedIdx 1, by rw [hents, List.head?_cons], le_rfl⟩
  unfold Node.maybeSnapshot
  simp only [hsnap, happly, hcompact]
  exact ⟨_, rfl, hents⟩

/-- The last entry of the log is at the position that a snapshot at the tip has. -/
theorem recorded_of_getLast {ms : MemoryStorage τ} {log : List Entry} (hlog : Contiguous 1 log)
    {s : τ} {e : Entry} (he : log.getLast? = some e)
    (hents : ms.ents s = [dummyEntry log.length e.term]) : Recorded ms log s := by
  have hlast : log[log.length - 1]? = some e := by rw [← he, List.getLast?_eq_getElem?]
  have hpos : 0 < log.length := by
    rcases log with _ | ⟨a, l⟩
    · cases he
    · exact Nat.succ_pos _
  have hval := hlog _ e hlast
  refine ⟨dummyEntry log.length e.term, by rw [hents, List.head?_cons], Or.inr ⟨e, ?_, ?_, rfl⟩⟩
  · exact List.mem_of_getElem? hlast
  · show e.index = log.length
    omega

/-- A snapshot at the tip of the log leaves an empty suffix, behind a true position if the last
entry has term 1. -/
theorem maybeSnapshot_isSuffix {alg : Algorithm σ} {env : Env τ} (hms : env.memory.Lawful)
    {log : List Entry} (hlog : Contiguous 1 log) {n : Node alg τ}
    (h : IsSuffix env.memory log n.storage)
    (htip : snapshotThreshold ≤ n.snapCount → n.appliedIdx = log.length) :
    ∃ n', n.maybeSnapshot env = some n' ∧ IsSuffix env.memory log n'.storage ∧
      (Recorded env.memory log n.storage →
        (snapshotThreshold ≤ n.snapCount → ∃ e, log.getLast? = some e ∧ e.term = 1) →
        Recorded env.memory log n'.storage) := by
  cases hsnap : n.snapshotOf env with
  | none =>
    unfold Node.maybeSnapshot
    rw [hsnap]
    exact ⟨n, rfl, h, fun hrecorded _ => hrecorded⟩
  | some snap =>
    obtain ⟨hdue, -, hindex, -⟩ := Node.snapshotOf_eq_some hsnap
    have hidx := htip hdue
    by_cases hnew : env.memory.snapshotIndex n.storage < n.appliedIdx
    · obtain ⟨n', hmaybe, hents⟩ := maybeSnapshot_newer hms hsnap hnew
      rw [hidx] at hents
      refine ⟨n', hmaybe, ⟨dummyEntry log.length 1, ?_, le_rfl⟩, fun _ hterm => ?_⟩
      · rw [hents, show (dummyEntry log.length 1).index = log.length from rfl, List.drop_length]
      · obtain ⟨e, he, heterm⟩ := hterm hdue
        exact recorded_of_getLast hlog he (by rw [hents, heterm])
    · -- a snapshot that is not newer is refused and changes nothing
      have happly := hms.applySnapshot_older n.storage snap (by omega)
      unfold Node.maybeSnapshot
      simp only [hsnap, happly]
      exact ⟨_, rfl, h, fun hrecorded _ => hrecorded⟩

/-! ## A run -/

theorem contiguous_appended_next {hist : List Ready} {rd : Ready}
    (hlog : Contiguous 1 (appendedOf hist)) (hwf : WellFormedReady hist rd) :
    Contiguous 1 (appendedOf (hist ++ [rd])) := by
  rw [appendedOf_concat]
  exact contiguous_append hlog hwf.entries_contiguous

/-- One batch keeps the storage a suffix of the log, if a snapshot it makes due is at the tip, and
its first position true, if that snapshot has the term of the tip. -/
theorem ready_isSuffix [SemilatticeSup σ] [OrderBot σ] {alg : Algorithm σ} (halg : alg.IsJoin)
    {env : Env τ} (hms : env.memory.Lawful) {hist : List Ready} {rd : Ready} {n : Node alg τ}
    (hlog : Contiguous 1 (appendedOf hist)) (hwf : WellFormedReady hist rd)
    (htip : SnapshotAtTip env hist n rd)
    (h : IsSuffix env.memory (appendedOf hist) n.storage) :
    ∃ n', n.ready env rd = some n' ∧
      IsSuffix env.memory (appendedOf (hist ++ [rd])) n'.storage ∧
      (Recorded env.memory (appendedOf hist) n.storage → SnapshotInTermOne env hist n rd →
        Recorded env.memory (appendedOf (hist ++ [rd])) n'.storage) := by
  obtain ⟨s', happend, hents, -⟩ := append_ents hms hwf h.lastIndex_eq
  -- the node on which `maybeSnapshot` is called
  obtain ⟨live, hlive⟩ : ∃ live, live
      = { n with storage := s' }.applyEntries env rd.committedEntries := ⟨_, rfl⟩
  have hstorage : live.storage = s' := by rw [hlive, Node.applyEntries_storage halg]
  have hcount : live.snapCount = n.snapCount
      + rd.committedEntries.countP (Entry.accepted env.proto alg) := by
    rw [hlive, Node.applyEntries_snapCount halg]
  have hidx : live.appliedIdx
      = Node.lastAccepted env.proto alg n.appliedIdx rd.committedEntries := by
    rw [hlive, Node.applyEntries_appliedIdx halg]
  have hsuffix : IsSuffix env.memory (appendedOf (hist ++ [rd])) live.storage := by
    rw [appendedOf_concat, hstorage]
    exact h.append hents
  obtain ⟨n', hmaybe, hsuffix', hrecorded'⟩ := maybeSnapshot_isSuffix hms
    (contiguous_appended_next hlog hwf) hsuffix (by rw [hcount, hidx]; exact htip)
  refine ⟨n', ?_, hsuffix', fun hrecorded hterm => hrecorded' ?_ (by rw [hcount]; exact hterm)⟩
  · unfold Node.ready
    simp only [happend]
    rw [← hlive]
    exact hmaybe
  · rw [appendedOf_concat, hstorage]
    exact hrecorded.append hents

/-- What every batch keeps: the log is contiguous and the storage is a suffix of it. Behind a true
position, if all snapshots have the term of their entry. -/
structure LogInv {alg : Algorithm σ} (env : Env τ) (trueTerms : Prop) (hist : List Ready)
    (n : Node alg τ) : Prop where
  contiguous : Contiguous 1 (appendedOf hist)
  suffix : IsSuffix env.memory (appendedOf hist) n.storage
  recorded : trueTerms → Recorded env.memory (appendedOf hist) n.storage

theorem logInv_new {alg : Algorithm σ} {env : Env τ} (hms : env.memory.Lawful) (trueTerms : Prop)
    (engine : Engine alg) (store : Store) :
    LogInv env trueTerms [] (Node.new env engine store) := by
  have hents : env.memory.ents (Node.new env engine store).storage = [dummyEntry 0 0] :=
    hms.ents_new
  refine ⟨?_, ⟨dummyEntry 0 0, hents, Nat.zero_le _⟩, fun _ => ⟨dummyEntry 0 0, ?_, ?_⟩⟩
  · intro i e he
    cases he
  · rw [hents, List.head?_cons]
  · exact Or.inl ⟨rfl, rfl⟩

/-- **Snapshots are transparent when they are taken at the tip of the log.** In every
well-formed run of the loop whose snapshots are all taken at the last appended entry, no append
panics, and after every batch: every entry above the position in storage is in storage, and the
next append finds its predecessor. If these entries all have term 1, the position in storage is a
position of the log. -/
theorem snapshots_transparent (sum64 : Bytes → UInt64) (env : Env τ) (hms : env.memory.Lawful)
    (engine : Engine (Hll.algorithm sum64)) (store : Store) (batches : List Ready)
    (hwf : WellFormedRun batches)
    (htip : Meets (Node.ready env) (SnapshotAtTip env) (Node.new env engine store) batches) :
    ∃ n, run (Node.ready env) (Node.new env engine store) batches = some n ∧
      Kept env.memory (appendedOf batches) n.storage ∧
      Extensible env.memory (appendedOf batches) n.storage ∧
      (Meets (Node.ready env) (SnapshotInTermOne env) (Node.new env engine store) batches →
        Recorded env.memory (appendedOf batches) n.storage) := by
  -- one induction for both parts: the terms are known to be true or nothing is said of them
  generalize hterms : Meets (Node.ready env) (SnapshotInTermOne env) (Node.new env engine store)
    batches = trueTerms
  have hmeets : Meets (Node.ready env)
      (fun hist n rd => WellFormedReady hist rd ∧ SnapshotAtTip env hist n rd ∧
        (trueTerms → SnapshotInTermOne env hist n rd))
      (Node.new env engine store) batches := by
    intro hist rd rest hsplit n hn
    refine ⟨hwf hist rd rest hsplit, htip hist rd rest hsplit n hn, fun htrue => ?_⟩
    rw [← hterms] at htrue
    exact htrue hist rd rest hsplit n hn
  have hnext : ∀ hist (n : Node (Hll.algorithm sum64) τ) rd, LogInv env trueTerms hist n →
      WellFormedReady hist rd ∧ SnapshotAtTip env hist n rd ∧
        (trueTerms → SnapshotInTermOne env hist n rd) →
      ∃ n', n.ready env rd = some n' ∧ LogInv env trueTerms (hist ++ [rd]) n' := by
    rintro hist n rd hinv ⟨hready, hatTip, hone⟩
    obtain ⟨n', hstep, hsuffix, hrecorded⟩ :=
      ready_isSuffix (Hll.isJoin sum64) hms hinv.contiguous hready hatTip hinv.suffix
    exact ⟨n', hstep, contiguous_appended_next hinv.contiguous hready, hsuffix,
      fun htrue => hrecorded (hinv.recorded htrue) (hone htrue)⟩
  obtain ⟨n, hrun, hinv⟩ := progress_of_meets (logInv_new hms trueTerms engine store) hnext hmeets
  exact ⟨n, hrun, hinv.suffix.kept hinv.contiguous, hinv.suffix.extensible hms hinv.contiguous,
    hinv.recorded⟩

theorem contiguous_boot (count : ℕ) : Contiguous 1 (bootLog ++ adds 2 3 count) := by
  refine contiguous_append ?_ (contiguous_adds 2 3 count)
  exact contiguous_append (contiguous_singleton _) (contiguous_singleton _)

/-- A run of one batch, committed as it is appended. -/
def window (es : List Entry) : List Ready := [⟨es, es⟩]

theorem appendedOf_window (es : List Entry) : appendedOf (window es) = es :=
  List.flatMap_singleton Ready.entries _

theorem wellFormedRun_window {es : List Entry} (hes : Contiguous 1 es) :
    WellFormedRun (window es) :=
  wellFormedRun_nil.concat ⟨hes, List.prefix_refl _⟩

/-- A condition on the only batch of a window. -/
theorem meets_window {C : List Ready → Node (Hll.algorithm Murmur3.sum64) State → Ready → Prop}
    {es : List Entry} (h : C [] freshNode ⟨es, es⟩) :
    Meets (Node.ready savingEnv) C freshNode (window es) := by
  refine meets_nil.concat fun n hn => ?_
  obtain rfl : freshNode = n := Option.some.inj hn
  exact h

/-- Adds at the end of a window are its tip. -/
theorem snapshotAtTip_window {before : List Entry} {index : ℕ} (hindex : index = before.length + 1)
    (term count : ℕ) :
    SnapshotAtTip savingEnv [] freshNode
      ⟨before ++ adds term index (count + 1), before ++ adds term index (count + 1)⟩ := by
  intro _
  have hlast : Node.lastAccepted savingEnv.proto (Hll.algorithm Murmur3.sum64) freshNode.appliedIdx
      (before ++ adds term index (count + 1)) = index + count := by
    unfold Node.lastAccepted
    rw [List.foldl_append]
    exact lastAccepted_adds Murmur3.sum64 _ term index count
  refine hlast.trans ?_
  rw [List.nil_append, show appendedOf [_] = _ from appendedOf_window _, List.length_append,
    length_adds]
  omega

theorem snapshotInTermOne_window (count : ℕ) :
    SnapshotInTermOne savingEnv [] freshNode ⟨adds 1 1 (count + 1), adds 1 1 (count + 1)⟩ := by
  intro _
  refine ⟨addFive 1 (1 + count), ?_, rfl⟩
  rw [List.nil_append, show appendedOf [_] = _ from appendedOf_window _, adds_succ,
    List.getLast?_concat]

/-- A window of 10,000 adds in one batch, and the snapshot taken at its end: after the boot
sequence, with the terms that a node gives them, and in a log of term 1. -/
theorem snapshots_transparent_window :
    (∃ n, run (Node.ready savingEnv) freshNode (window (bootLog ++ adds 2 3 10000)) = some n ∧
      Kept savingEnv.memory (bootLog ++ adds 2 3 10000) n.storage ∧
      Extensible savingEnv.memory (bootLog ++ adds 2 3 10000) n.storage) ∧
    ∃ n, run (Node.ready savingEnv) freshNode (window (adds 1 1 10000)) = some n ∧
      Kept savingEnv.memory (adds 1 1 10000) n.storage ∧
      Extensible savingEnv.memory (adds 1 1 10000) n.storage ∧
      Recorded savingEnv.memory (adds 1 1 10000) n.storage := by
  refine ⟨?_, ?_⟩
  · have htip : SnapshotAtTip savingEnv [] freshNode
        ⟨bootLog ++ adds 2 3 10000, bootLog ++ adds 2 3 10000⟩ :=
      snapshotAtTip_window rfl 2 9999
    obtain ⟨n, hrun, hkept, hextensible, -⟩ := snapshots_transparent Murmur3.sum64 savingEnv
      storage_lawful freshNode.engine Store.empty (window (bootLog ++ adds 2 3 10000))
      (wellFormedRun_window (contiguous_boot 10000)) (meets_window htip)
    rw [appendedOf_window] at hkept hextensible
    exact ⟨n, hrun, hkept, hextensible⟩
  · have htip : SnapshotAtTip savingEnv [] freshNode ⟨adds 1 1 10000, adds 1 1 10000⟩ := by
      rw [← List.nil_append (adds 1 1 10000)]
      exact snapshotAtTip_window rfl 1 9999
    obtain ⟨n, hrun, hkept, hextensible, hrecorded⟩ := snapshots_transparent Murmur3.sum64 savingEnv
      storage_lawful freshNode.engine Store.empty (window (adds 1 1 10000))
      (wellFormedRun_window (contiguous_adds 1 1 10000)) (meets_window htip)
    have htrue := hrecorded (meets_window (snapshotInTermOne_window 9999))
    rw [appendedOf_window] at hkept hextensible htrue
    exact ⟨n, hrun, hkept, hextensible, htrue⟩

/-! ## A run that loses the end of the log -/

/-- Entries that are appended and committed one by one. -/
def oneByOne (es : List Entry) : List Ready := es.map fun e => ⟨[e], [e]⟩

theorem appendedOf_oneByOne (es : List Entry) : appendedOf (oneByOne es) = es := by
  unfold appendedOf oneByOne
  rw [List.flatMap_map]
  exact List.flatMap_singleton' es

theorem committedOf_oneByOne (es : List Entry) : committedOf (oneByOne es) = es := by
  unfold committedOf oneByOne
  rw [List.flatMap_map]
  exact List.flatMap_singleton' es

theorem wellFormedRun_oneByOne {es : List Entry} (hes : Contiguous 1 es) :
    WellFormedRun (oneByOne es) := by
  intro hist rd rest hsplit
  obtain ⟨es₁, es₂, rfl, rfl, hrest⟩ := List.map_eq_append_iff.mp hsplit
  obtain ⟨e, es₃, rfl, rfl, -⟩ := List.map_eq_cons_iff.mp hrest
  have hindex : e.index = 1 + es₁.length := by
    refine hes es₁.length e ?_
    rw [List.getElem?_append_right le_rfl, Nat.sub_self, List.getElem?_cons_zero]
  have happended : appendedOf (es₁.map fun e => (⟨[e], [e]⟩ : Ready)) = es₁ :=
    appendedOf_oneByOne es₁
  have hcommitted : committedOf (es₁.map fun e => (⟨[e], [e]⟩ : Ready)) = es₁ :=
    committedOf_oneByOne es₁
  refine ⟨?_, ?_⟩
  · rw [happended, ← hindex]
    exact contiguous_singleton e
  · rw [appendedOf_concat, committedOf_concat, happended, hcommitted]

/-- A node that has not taken a snapshot yet: everything appended is in storage, and the
counters are those of everything committed. -/
structure Unsnapshotted {alg : Algorithm σ} [SemilatticeSup σ] [OrderBot σ] (env : Env τ)
    (start : StringMap σ) (hist : List Ready) (n : Node alg τ) : Prop where
  ents : env.memory.ents n.storage = dummyEntry 0 0 :: appendedOf hist
  snapshotIndex : env.memory.snapshotIndex n.storage = 0
  snapCount : n.snapCount = (committedOf hist).countP (Entry.accepted env.proto alg)
  groups : n.engine.groups = ((committedOf hist).map fun e =>
    (e.update env.proto alg).joins).foldl joinOpt start

theorem Unsnapshotted.lastIndex_eq {alg : Algorithm σ} [SemilatticeSup σ] [OrderBot σ] {env : Env τ}
    {start : StringMap σ} {hist : List Ready} {n : Node alg τ}
    (h : Unsnapshotted env start hist n) :
    lastIndex (env.memory.ents n.storage) = (appendedOf hist).length := by
  rw [h.ents, lastIndex]
  exact Nat.zero_add _

/-- Below the threshold, a batch is appended and applied and nothing else happens. -/
theorem unsnapshotted_next [SemilatticeSup σ] [OrderBot σ] {alg : Algorithm σ}
    (halg : alg.IsJoin) {env : Env τ} (hms : env.memory.Lawful) {start : StringMap σ}
    {hist : List Ready} {rd : Ready} {n : Node alg τ} (h : Unsnapshotted env start hist n)
    (hwf : WellFormedReady hist rd)
    (hcount : (committedOf (hist ++ [rd])).countP (Entry.accepted env.proto alg)
      < snapshotThreshold) :
    ∃ n', n.ready env rd = some n' ∧ Unsnapshotted env start (hist ++ [rd]) n' := by
  obtain ⟨s', happend, hents, hsnap⟩ := append_ents hms hwf h.lastIndex_eq
  rw [committedOf_concat, List.countP_append] at hcount
  have hbelow : ({ n with storage := s' }.applyEntries env rd.committedEntries).snapCount
      < snapshotThreshold := by
    rw [Node.applyEntries_snapCount halg]
    show n.snapCount + _ < _
    rw [h.snapCount]
    exact hcount
  refine ⟨{ n with storage := s' }.applyEntries env rd.committedEntries, ?_, ?_, ?_, ?_, ?_⟩
  · unfold Node.ready Node.maybeSnapshot Node.snapshotOf
    simp only [happend, hbelow, if_true]
  · rw [Node.applyEntries_storage halg, hents, h.ents, appendedOf_concat, List.cons_append]
  · rw [Node.applyEntries_storage halg, hsnap, h.snapshotIndex]
  · rw [Node.applyEntries_snapCount halg, committedOf_concat, List.countP_append, ← h.snapCount]
  · rw [Node.applyEntries_groups halg, committedOf_concat, List.map_append, List.foldl_append,
      ← h.groups]

/-- A run that stays below the threshold. -/
theorem unsnapshotted_of_run [SemilatticeSup σ] [OrderBot σ] {alg : Algorithm σ}
    (halg : alg.IsJoin) {env : Env τ} (hms : env.memory.Lawful) (engine : Engine alg)
    (store : Store) {batches : List Ready} (hwf : WellFormedRun batches)
    (hcount : (committedOf batches).countP (Entry.accepted env.proto alg) < snapshotThreshold) :
    ∃ n, run (Node.ready env) (Node.new env engine store) batches = some n ∧
      Unsnapshotted env engine.groups batches n := by
  induction batches using List.reverseRecOn with
  | nil => exact ⟨_, rfl, hms.ents_new, hms.snapshotIndex_new, rfl, rfl⟩
  | append_singleton hist rd ih =>
    -- a beginning of the run is well formed and counts no more
    have hcount' := hcount
    rw [committedOf_concat, List.countP_append] at hcount'
    have hwf' : WellFormedRun hist := fun hist' rd' rest hsplit =>
      hwf hist' rd' (rest ++ [rd]) (by rw [hsplit, List.append_assoc, List.cons_append])
    obtain ⟨n, hrun, hn⟩ := ih hwf' (by omega)
    obtain ⟨n', hstep, hn'⟩ := unsnapshotted_next halg hms hn (hwf hist rd [] rfl) hcount
    exact ⟨n', run_concat_eq_some.mpr ⟨n, hrun, hstep⟩, hn'⟩

/-- The boot sequence and `count` adds one by one, then two adds of which the first is
committed. -/
def tailRun (count : ℕ) : List Ready :=
  oneByOne (bootLog ++ adds 2 3 count) ++ [⟨adds 2 (3 + count) 2, adds 2 (3 + count) 1⟩]

theorem appendedOf_tailRun (count : ℕ) :
    appendedOf (tailRun count) = bootLog ++ adds 2 3 (count + 2) := by
  unfold tailRun
  rw [appendedOf_concat, appendedOf_oneByOne, adds_add, List.append_assoc]

theorem wellFormedRun_tailRun (count : ℕ) : WellFormedRun (tailRun count) := by
  have hlength : 1 + (bootLog ++ adds 2 3 count).length = 3 + count := by
    rw [List.length_append, length_adds, show bootLog.length = 2 from rfl]
    omega
  refine (wellFormedRun_oneByOne (contiguous_boot count)).concat ⟨?_, ?_⟩
  · rw [appendedOf_oneByOne, hlength]
    exact contiguous_adds 2 (3 + count) 2
  · rw [committedOf_concat, appendedOf_concat, committedOf_oneByOne, appendedOf_oneByOne]
    refine (List.prefix_append_right_inj _).mpr ?_
    rw [show (2 : ℕ) = 1 + 1 from rfl]
    show adds (1 + 1) (3 + count) 1 <+: adds (1 + 1) (3 + count) (1 + 1)
    rw [adds_add]
    exact List.prefix_append _ _

/-- The adds before the last batch: what they count and what they leave in the engine. -/
theorem countP_boot (sum64 : Bytes → UInt64) (count : ℕ) :
    (bootLog ++ adds 2 3 count).countP (Entry.accepted Protobuf.codec (Hll.algorithm sum64))
      = count := by
  rw [List.countP_append, countP_adds]
  exact Nat.zero_add count

theorem joins_boot (sum64 : Bytes → UInt64) (count : ℕ) :
    ((bootLog ++ adds 2 3 (count + 1)).map fun e =>
        (e.update Protobuf.codec (Hll.algorithm sum64)).joins).foldl joinOpt
        (∅ : StringMap Hll.Sketch)
      = joinAt ∅ (str "g") ((Hll.algorithm sum64).single 5) := by
  rw [List.map_append, List.foldl_append, joins_adds]
  rfl

/-- A snapshot that becomes due in the last batch of `tailRun` is taken one entry before the
end of the log, and leaves only its own position. -/
theorem run_tailRun {count : ℕ} (hdue : count + 2 = snapshotThreshold) :
    ∃ n, run (Node.ready savingEnv) freshNode (tailRun (count + 1)) = some n ∧
      storage.ents n.storage = [dummyEntry (3 + (count + 1)) 1] := by
  have halg := Hll.isJoin Murmur3.sum64
  -- the batches before the last one stay below the threshold
  have hfirst : (committedOf (oneByOne (bootLog ++ adds 2 3 (count + 1)))).countP
      (Entry.accepted savingEnv.proto (Hll.algorithm Murmur3.sum64)) < snapshotThreshold := by
    rw [committedOf_oneByOne]
    refine (countP_boot Murmur3.sum64 (count + 1)).trans_lt ?_
    omega
  obtain ⟨n, hrun, hn⟩ := unsnapshotted_of_run halg storage_lawful freshNode.engine Store.empty
    (wellFormedRun_oneByOne (contiguous_boot (count + 1))) hfirst
  have hready := wellFormedRun_tailRun (count + 1) _ _ [] rfl
  obtain ⟨s', happend, -, hsnap⟩ := append_ents storage_lawful hready hn.lastIndex_eq
  -- the node on which `maybeSnapshot` is called in the last batch
  obtain ⟨live, hlive⟩ : ∃ live, live = { n with storage := s' }.applyEntries savingEnv
      (adds 2 (3 + (count + 1)) (0 + 1)) := ⟨_, rfl⟩
  have hstorage : live.storage = s' := by
    rw [hlive, Node.applyEntries_storage halg]
  have hcount : live.snapCount = snapshotThreshold := by
    rw [hlive, Node.applyEntries_snapCount halg, ← hdue, ← Nat.add_assoc count 1 1]
    refine congrArg₂ (· + ·) (hn.snapCount.trans ?_) (countP_adds Murmur3.sum64 2 _ 1)
    rw [committedOf_oneByOne]
    exact countP_boot Murmur3.sum64 (count + 1)
  have hidx : live.appliedIdx = 3 + (count + 1) := by
    rw [hlive, Node.applyEntries_appliedIdx halg]
    exact lastAccepted_adds Murmur3.sum64 _ 2 _ 0
  have hgroups : live.engine.groups
      = joinAt ∅ (str "g") ((Hll.algorithm Murmur3.sum64).single 5) := by
    have hbefore := hn.groups
    rw [committedOf_oneByOne] at hbefore
    rw [hlive, Node.applyEntries_groups halg, ← joinAt_idem]
    refine (joins_adds Murmur3.sum64 _ 2 _ 0).trans (congrArg (joinAt · _ _) ?_)
    exact hbefore.trans (joins_boot Murmur3.sum64 count)
  obtain ⟨data, hdata⟩ := marshal_singleton Murmur3.sum64 hgroups
  -- it is the first snapshot, so the storage takes it
  have hnew : savingEnv.memory.snapshotIndex live.storage < live.appliedIdx := by
    rw [hstorage, hidx, show savingEnv.memory.snapshotIndex s' = 0 from
      hsnap.trans hn.snapshotIndex]
    omega
  have hsnapshot : live.snapshotOf savingEnv = some ⟨data, live.appliedIdx, 1⟩ :=
    Node.snapshotOf_of_due hcount.ge hdata
  obtain ⟨n', hmaybe, hents⟩ := maybeSnapshot_newer storage_lawful hsnapshot hnew
  refine ⟨n', run_concat_eq_some.mpr ⟨n, hrun, ?_⟩, by rw [← hidx]; exact hents⟩
  have happend' : savingEnv.memory.append n.storage (adds 2 (3 + (count + 1)) 2)
      = some (s', none) := happend
  unfold Node.ready
  simp only [happend']
  rw [hlive] at hmaybe
  exact hmaybe

/-- After the configuration entry every entry of the log has term 2. -/
theorem term_of_mem_boot {count : ℕ} {e : Entry} (h : e ∈ bootLog ++ adds 2 3 count)
    (hindex : 1 < e.index) : e.term = 2 := by
  rw [bootLog, List.cons_append, List.mem_cons, List.cons_append, List.mem_cons,
    List.nil_append, adds, List.mem_map] at h
  rcases h with rfl | rfl | ⟨i, -, rfl⟩
  · exact absurd hindex (by decide)
  · rfl
  · rfl

/-- **A snapshot drops the end of the log and records a wrong term.** A fresh node boots, is
given 9,999 adds one by one, and then two more of which only the first is committed yet. The
snapshot is taken at index 10002: the storage then records term 1 for an entry of term 2, has
lost entry 10003, and panics when entry 10004 is appended. -/
theorem snapshot_drops_tail :
    WellFormedRun (tailRun 9999) ∧
      ∃ n, run (Node.ready savingEnv) freshNode (tailRun 9999) = some n ∧
        ¬ Recorded storage (appendedOf (tailRun 9999)) n.storage ∧
        ¬ Kept storage (appendedOf (tailRun 9999)) n.storage ∧
        n.ready savingEnv ⟨[addFive 2 10004], []⟩ = none := by
  obtain ⟨n, hrun, hents⟩ := run_tailRun (show 9998 + 2 = snapshotThreshold from rfl)
  have hhead : (storage.ents n.storage).head? = some (dummyEntry 10002 1) := by
    rw [hents]
    rfl
  rw [appendedOf_tailRun]
  refine ⟨wellFormedRun_tailRun 9999, n, hrun, ?_, ?_, ?_⟩
  · intro ⟨d, hd, h⟩
    obtain rfl : dummyEntry 10002 1 = d := Option.some.inj (hhead.symm.trans hd)
    rcases h with ⟨hindex, -⟩ | ⟨e, hmem, hindex, hterm⟩
    · exact absurd hindex (by decide)
    · -- the entry at index 10002 has term 2, the snapshot says 1
      have htwo := term_of_mem_boot hmem (by rw [hindex]; decide)
      rw [hterm] at htwo
      exact absurd htwo (by decide)
  · -- entry 10003 was appended and is above the snapshot
    intro hkept
    have hmem : addFive 2 10003 ∈ bootLog ++ adds 2 3 (9999 + 2) := by
      refine List.mem_append_right _ ?_
      rw [adds_succ 2 3 (9999 + 1)]
      exact List.mem_append_right _ (List.mem_singleton.mpr rfl)
    have hin := hkept _ hhead _ hmem (by decide)
    rw [hents, List.mem_singleton] at hin
    exact absurd (congrArg Entry.index hin) (by decide)
  · -- the storage ends at 10002 and the log at 10003
    have hgap : storage.append n.storage [addFive 2 10004] = none := by
      refine storage_lawful.append_gap _ _ _ ?_
      rw [hents]
      decide
    unfold Node.ready
    rw [show savingEnv.memory.append n.storage [addFive 2 10004] = none from hgap]

end CardinalityTracker
