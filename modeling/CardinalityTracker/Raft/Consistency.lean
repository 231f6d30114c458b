import CardinalityTracker.HllTheorems
import CardinalityTracker.Reference.Entries

/-!
# Consistency of the applied state

Two questions about `applyEntries` over an HLL engine, for arbitrary committed entries:

* does the order or the repetition of entries matter to the engine? It does not
  (`applyEntries_insensitive`);
* does the store agree with the engine afterwards? Exactly when every truncated `BATCH_ADD`
  is made good: its dispatch fails after it has changed the engine, so its group is not
  persisted until a later command of that group is accepted (`applyEntries_agree_iff`).
-/

namespace CardinalityTracker

open Lib EtcdStorage

variable {σ τ : Type}

/-! ## Order and repetition -/

/-- What an entry carries: its type and its data, without its place in the log. -/
def Entry.content (e : Entry) : EntryType × Bytes := (e.type, e.data)

theorem Entry.update_eq_of_content (proto : Proto) (alg : Algorithm σ) {e e' : Entry}
    (h : e.content = e'.content) : e.update proto alg = e'.update proto alg := by
  obtain ⟨htype, hdata⟩ := Prod.mk.inj h
  unfold Entry.update Entry.command
  rw [htype, hdata]

/-- Entries whose contents all occur in `es'` make no joins but those of `es'`. -/
theorem joins_subset_of_content (proto : Proto) (alg : Algorithm σ) {es es' : List Entry}
    (h : ∀ c ∈ es.map Entry.content, c ∈ es'.map Entry.content) :
    ∀ x ∈ es.map (fun e => (e.update proto alg).joins),
      x ∈ es'.map fun e => (e.update proto alg).joins := by
  intro x hx
  obtain ⟨e, he, rfl⟩ := List.mem_map.mp hx
  obtain ⟨e', he', hcontent⟩ := List.mem_map.mp (h e.content (List.mem_map_of_mem he))
  rw [← Entry.update_eq_of_content proto alg hcontent]
  exact List.mem_map_of_mem he'

/-- **Order and repetition do not matter.** Two lists of entries with the same set of
contents leave the same groups, whatever the saves do in either run; and entries whose
contents have already been applied change nothing. -/
theorem applyEntries_insensitive (sum64 : Bytes → UInt64) (env env' : Env τ)
    (hproto : env'.proto = env.proto) (n n' : Node (Hll.algorithm sum64) τ)
    (hengine : n'.engine = n.engine) (es : List Entry) :
    (∀ es' : List Entry, (∀ c, c ∈ es'.map Entry.content ↔ c ∈ es.map Entry.content) →
      (n'.applyEntries env' es').engine.groups = (n.applyEntries env es).engine.groups) ∧
    (∀ again : List Entry, (∀ c ∈ again.map Entry.content, c ∈ es.map Entry.content) →
      ((n.applyEntries env es).applyEntries env' again).engine.groups
        = (n.applyEntries env es).engine.groups) := by
  have halg := Hll.isJoin sum64
  refine ⟨?_, ?_⟩
  · intro es' hsame
    rw [Node.applyEntries_groups halg, Node.applyEntries_groups halg, hproto, hengine]
    refine absorbing_joinOpt.foldl_congr (fun x => ⟨?_, ?_⟩) _
    · exact joins_subset_of_content env.proto _ (fun c => (hsame c).mp) x
    · exact joins_subset_of_content env.proto _ (fun c => (hsame c).mpr) x
  · intro again hsub
    rw [Node.applyEntries_groups halg, Node.applyEntries_groups halg, hproto]
    exact absorbing_joinOpt.foldl_of_subset (joins_subset_of_content env.proto _ hsub) _

/-- A truncated batch, an add and bytes that no message starts with, applied in another order
with repetitions and with failing saves, then applied again. -/
theorem applyEntries_insensitive_shuffled :
    (freshNode.applyEntries failingEnv
          [addFive 2 3, ⟨.normal, 2, 4, [0xff]⟩, truncatedBatch 2 5, addFive 2 6]).engine.groups
        = (freshNode.applyEntries savingEnv
          [truncatedBatch 2 3, addFive 2 4, ⟨.normal, 2, 5, [0xff]⟩]).engine.groups ∧
      ((freshNode.applyEntries savingEnv
          [truncatedBatch 2 3, addFive 2 4, ⟨.normal, 2, 5, [0xff]⟩]).applyEntries failingEnv
          [addFive 2 6, truncatedBatch 2 7]).engine.groups
        = (freshNode.applyEntries savingEnv
          [truncatedBatch 2 3, addFive 2 4, ⟨.normal, 2, 5, [0xff]⟩]).engine.groups := by
  obtain ⟨hshuffle, hagain⟩ := applyEntries_insensitive Murmur3.sum64 savingEnv failingEnv rfl
    freshNode freshNode rfl [truncatedBatch 2 3, addFive 2 4, ⟨.normal, 2, 5, [0xff]⟩]
  refine ⟨hshuffle _ fun c => ?_, hagain _ fun c hc => ?_⟩
  · simp [Entry.content, addFive, truncatedBatch, entryFor]
    tauto
  · revert hc
    simp [Entry.content, addFive, truncatedBatch, entryFor]
    tauto

/-! ## Truncated batches -/

/-- A `BATCH_ADD` of `group` from which `ids` decode, at least one but fewer than its count. -/
def Entry.TruncatedBatch (proto : Proto) (e : Entry) (group : GoString) (ids : List UInt64) :
    Prop :=
  ∃ cmd n, e.command proto = some cmd ∧ cmd.type = typeBatchAdd ∧ cmd.group = group ∧
    batchIds cmd.payload = some (n, ids) ∧ ids.length < n ∧ ids ≠ []

/-- A single id is joined if and only if it is accepted. -/
theorem addEffect_accepted (alg : Algorithm σ) (payload : Bytes) :
    (addEffect alg payload).accepted = (addEffect alg payload).content.isSome := by
  unfold addEffect
  simp only
  split <;> rfl

/-- So is a sketch. -/
theorem mergeEffect_accepted (alg : Algorithm σ) (payload : Bytes) :
    (mergeEffect alg payload).accepted = (mergeEffect alg payload).content.isSome := by
  unfold mergeEffect
  simp only
  split
  · rfl
  · split <;> rfl

/-- A batch is joined although it is refused exactly when it is truncated after an id. -/
theorem batchEffect_refused_iff (alg : Algorithm σ) (payload : Bytes) (v : σ) :
    (batchEffect alg payload).accepted = false ∧ (batchEffect alg payload).content = some v
      ↔ ∃ n ids, batchIds payload = some (n, ids) ∧ ids.length < n ∧ ids ≠ [] ∧
          v = alg.sketchOf ids := by
  unfold batchEffect
  cases hids : batchIds payload with
  | none => simp
  | some r =>
    obtain ⟨n, ids⟩ := r
    have hle := length_le_of_batchIds hids
    by_cases hnil : ids = []
    · simp [hnil]
    · simp only [hnil, if_false, decide_eq_false_iff_not, Option.some.injEq]
      constructor
      · rintro ⟨hne, rfl⟩
        exact ⟨n, ids, rfl, by omega, hnil, rfl⟩
      · rintro ⟨n', ids', hr, hlt, -, rfl⟩
        obtain ⟨rfl, rfl⟩ := Prod.mk.inj hr
        exact ⟨by omega, rfl⟩

/-- **Only a truncated batch is joined without being accepted.** -/
theorem Entry.refused_iff (proto : Proto) (alg : Algorithm σ) (e : Entry) (group : GoString)
    (v : σ) :
    ((e.update proto alg).key = group ∧ (e.update proto alg).flush = false ∧
        (e.update proto alg).content = some v)
      ↔ ∃ ids, e.TruncatedBatch proto group ids ∧ v = alg.sketchOf ids := by
  unfold Entry.update Entry.TruncatedBatch
  cases hcmd : e.command proto with
  | none => simp
  | some cmd =>
    dsimp only
    -- a command that is not a batch is refused without content
    have hother : cmd.type ≠ typeBatchAdd →
        ¬ ((cmd.effect alg).accepted = false ∧ (cmd.effect alg).content = some v) := by
      rintro hb ⟨hacc, hcontent⟩
      unfold Command.effect at hacc hcontent
      split_ifs at hacc hcontent
      · rw [addEffect_accepted, hcontent] at hacc
        cases hacc
      · rw [mergeEffect_accepted, hcontent] at hacc
        cases hacc
    by_cases hb : cmd.type = typeBatchAdd
    · have heffect : cmd.effect alg = batchEffect alg cmd.payload := by
        unfold Command.effect
        rw [if_neg (by rw [hb]; decide), if_pos hb]
      rw [heffect, batchEffect_refused_iff]
      constructor
      · rintro ⟨hg, n, ids, hids, hlt, hne, hv⟩
        exact ⟨ids, ⟨cmd, n, rfl, hb, hg, hids, hlt, hne⟩, hv⟩
      · rintro ⟨ids, ⟨cmd', n, hc, -, hg, hids, hlt, hne⟩, hv⟩
        obtain rfl := Option.some.inj hc
        exact ⟨hg, n, ids, hids, hlt, hne, hv⟩
    · constructor
      · rintro ⟨-, hrefused⟩
        exact absurd hrefused (hother hb)
      · rintro ⟨ids, ⟨cmd', n, hc, hb', -⟩, -⟩
        obtain rfl := Option.some.inj hc
        exact absurd hb' hb

/-! ## Agreement of the store with the engine -/

/-- The entry is accepted, and its command is for `group`. -/
def Entry.AcceptedFor (proto : Proto) (alg : Algorithm σ) (e : Entry) (group : GoString) : Prop :=
  (e.update proto alg).key = group ∧ e.accepted proto alg = true

/-- `id` is counted in the starting sketch of `group`, or in what one of the entries `pre`
joins into that group. -/
def RecordedBefore (sum64 : Bytes → UInt64) (proto : Proto) (start : StringMap Hll.Sketch)
    (pre : List Entry) (group : GoString) (id : UInt64) : Prop :=
  (∃ sk, start[group]? = some sk ∧ sk.Contains sum64 id) ∨
    ∃ e ∈ pre, ∃ sk, (e.update proto (Hll.algorithm sum64)).joins = some (group, sk) ∧
      sk.Contains sum64 id

/-- One join counts an id in a group only if the group or the joined sketch does. -/
theorem contains_joinOpt_iff (sum64 : Bytes → UInt64) (m : StringMap Hll.Sketch)
    (x : Option (GoString × Hll.Sketch)) (group : GoString) (id : UInt64) :
    (∃ w, (joinOpt m x)[group]? = some w ∧ w.Contains sum64 id)
      ↔ (∃ sk, m[group]? = some sk ∧ sk.Contains sum64 id) ∨
        ∃ sk, x = some (group, sk) ∧ sk.Contains sum64 id := by
  rcases x with _ | ⟨k, v⟩
  · simp [joinOpt]
  by_cases hk : k = group
  · subst hk
    have hvalue : (value m k).Contains sum64 id
        ↔ ∃ sk, m[k]? = some sk ∧ sk.Contains sum64 id := by
      cases hm : m[k]? with
      | none => simp [value_of_none hm, Hll.Sketch.not_contains_bot]
      | some sk => simp [value_of_getElem? hm]
    simp only [joinOpt, getElem?_joinAt_self, Option.some.injEq, exists_eq_left',
      Hll.Sketch.contains_sup, hvalue, Prod.mk.injEq, true_and]
  · -- a join into another group
    have hsame := getElem?_joinAt_of_ne m hk v
    simp [joinOpt, hsame, hk]

/-- What the earlier entries and the start amount to counts an id exactly when it was
recorded by one of them. -/
theorem recordedBefore_iff (sum64 : Bytes → UInt64) (proto : Proto)
    (start : StringMap Hll.Sketch) (pre : List Entry) (group : GoString) (id : UInt64) :
    RecordedBefore sum64 proto start pre group id
      ↔ ∃ w, ((pre.map fun e => (e.update proto (Hll.algorithm sum64)).joins).foldl joinOpt
          start)[group]? = some w ∧ w.Contains sum64 id := by
  induction pre using List.reverseRecOn with
  | nil => simp [RecordedBefore]
  | append_singleton pre e ih =>
    rw [List.map_append, List.foldl_append, List.map_cons, List.map_nil, List.foldl_cons,
      List.foldl_nil, contains_joinOpt_iff, ← ih]
    unfold RecordedBefore
    constructor
    · rintro (hstart | ⟨e', he', hsk⟩)
      · exact Or.inl (Or.inl hstart)
      · rcases List.mem_append.mp he' with hpre | hlast
        · exact Or.inl (Or.inr ⟨e', hpre, hsk⟩)
        · rw [List.mem_singleton.mp hlast] at hsk
          exact Or.inr hsk
    · rintro ((hstart | ⟨e', hpre, hsk⟩) | hsk)
      · exact Or.inl hstart
      · exact Or.inr ⟨e', List.mem_append_left _ hpre, hsk⟩
      · exact Or.inr ⟨e, by simp, hsk⟩

/-- Two stores that hold the same bytes hold the same sketches. -/
theorem holds_iff_eq [SemilatticeSup σ] [OrderBot σ] {alg : Algorithm σ} (halg : alg.IsJoin)
    {st : Store} {m m' : StringMap σ} (h : st.Holds alg m) : st.Holds alg m' ↔ m = m' := by
  constructor
  · intro h'
    refine Std.ExtTreeMap.ext_getElem? fun g => ?_
    exact Option.map_injective halg.bytes_injective ((h g).symm.trans (h' g))
  · rintro rfl
    exact h

/-- The store agrees with the engine after the entries exactly when their updates are
settled, in the sense of `Lib.Copies`, for every group. -/
theorem agree_iff_settled [SemilatticeSup σ] [OrderBot σ] {alg : Algorithm σ}
    (halg : alg.IsJoin) {env : Env τ} (hok : ∀ k, env.out k = .ok) {n : Node alg τ}
    (hstart : n.store.Holds alg n.engine.groups) (es : List Entry) :
    (n.applyEntries env es).store.Holds alg (n.applyEntries env es).engine.groups
      ↔ ∀ group, Copies.Settled (es.map (Entry.update env.proto alg))
          ⟨n.engine.groups, n.engine.groups⟩ group := by
  set c : Copies GoString σ compare := ⟨n.engine.groups, n.engine.groups⟩
  obtain ⟨hlive, hstored⟩ := Node.applyEntries_represents halg hok (c := c) ⟨rfl, hstart⟩ es
  have hbelow : c.Below := fun k w hw => ⟨w, hw, le_rfl⟩
  rw [hlive, holds_iff_eq halg hstored]
  constructor
  · intro heq group
    refine (Copies.coherentAt_iff hbelow rfl _).mp ?_
    unfold Copies.CoherentAt
    rw [heq]
  · intro hsettled
    refine Std.ExtTreeMap.ext_getElem? fun group => ?_
    exact (Copies.coherentAt_iff hbelow rfl _).mpr (hsettled group)

/-- `Settled`, with the updates read back as entries. -/
theorem settled_map_iff [SemilatticeSup σ] [OrderBot σ] (proto : Proto) (alg : Algorithm σ)
    (es : List Entry) (c : Copies GoString σ compare) (group : GoString) :
    Copies.Settled (es.map (Entry.update proto alg)) c group
      ↔ ∀ (pre : List Entry) (e : Entry) (post : List Entry), es = pre ++ e :: post → ∀ v,
          (e.update proto alg).key = group ∧ (e.update proto alg).flush = false ∧
            (e.update proto alg).content = some v →
          (∃ e' ∈ post, e'.AcceptedFor proto alg group) ∨
            ∃ w, ((pre.map fun e => (e.update proto alg).joins).foldl joinOpt c.live)[group]?
              = some w ∧ v ≤ w := by
  unfold Copies.Settled Entry.AcceptedFor Entry.accepted
  constructor
  · intro h pre e post hes v hv
    have hsplit : es.map (Entry.update proto alg)
        = pre.map (Entry.update proto alg) ++ e.update proto alg
          :: post.map (Entry.update proto alg) := by
      rw [hes, List.map_append, List.map_cons]
    have hdone := h _ _ _ hsplit hv.1 hv.2.1 v hv.2.2
    rw [List.map_map] at hdone
    exact hdone.imp_left fun ⟨u, hu, hacc⟩ => by
      obtain ⟨e', he', rfl⟩ := List.mem_map.mp hu
      exact ⟨e', he', hacc⟩
  · intro h pre u post hus hkey hflush v hv
    obtain ⟨pre', rest, rfl, rfl, hrest⟩ := List.map_eq_append_iff.mp hus
    obtain ⟨e, post', rfl, rfl, rfl⟩ := List.map_eq_cons_iff.mp hrest
    rw [List.map_map]
    exact (h pre' e post' rfl v ⟨hkey, hflush, hv⟩).imp_left fun ⟨e', he', hacc⟩ =>
      ⟨_, List.mem_map_of_mem he', hacc⟩

/-- **When the store agrees with the engine.** With saves that all succeed, and from a node
whose store agrees with its engine, the store agrees again after `applyEntries`, and a
restart rebuilds the live engine, exactly when every truncated `BATCH_ADD` of the list is
followed by an accepted command of its group or repeats only ids that were recorded. -/
theorem applyEntries_agree_iff (sum64 : Bytes → UInt64) (env : Env τ)
    (hok : ∀ k, env.out k = .ok) (n : Node (Hll.algorithm sum64) τ)
    (hstart : n.store.Holds (Hll.algorithm sum64) n.engine.groups) (es : List Entry) :
    ((n.applyEntries env es).store.Holds (Hll.algorithm sum64)
          (n.applyEntries env es).engine.groups ∧
        ∃ restored, restoreAll (Hll.algorithm sum64) (n.applyEntries env es).store
          = (((n.applyEntries env es).engine, restored), none))
      ↔ ∀ pre e post, es = pre ++ e :: post → ∀ group ids,
          e.TruncatedBatch env.proto group ids →
            (∃ e' ∈ post, e'.AcceptedFor env.proto (Hll.algorithm sum64) group) ∨
              ∀ id ∈ ids, RecordedBefore sum64 env.proto n.engine.groups pre group id := by
  have halg := Hll.isJoin sum64
  -- agreement already gives the rebuild
  have hrebuild : (n.applyEntries env es).store.Holds (Hll.algorithm sum64)
        (n.applyEntries env es).engine.groups →
      ∃ restored, restoreAll (Hll.algorithm sum64) (n.applyEntries env es).store
        = (((n.applyEntries env es).engine, restored), none) :=
    fun h => ⟨_, restoreAll_of_holds halg h⟩
  rw [and_iff_left_of_imp hrebuild, agree_iff_settled halg hok hstart]
  simp only [settled_map_iff, Entry.refused_iff]
  constructor
  · intro h pre e post hes group ids hbatch
    refine (h group pre e post hes _ ⟨ids, hbatch, rfl⟩).imp_right ?_
    rintro ⟨w, hw, hle⟩ id hid
    rw [recordedBefore_iff]
    exact ⟨w, hw, (Hll.Sketch.sketchOf_le_iff sum64 ids w).mp hle id hid⟩
  · rintro h group pre e post hes v ⟨ids, hbatch, rfl⟩
    refine (h pre e post hes group ids hbatch).imp_right ?_
    intro hrecorded
    -- a truncated batch has decoded at least one id, so the group is present
    obtain ⟨cmd, k, -, -, -, -, -, hne⟩ := hbatch
    obtain ⟨id, hid⟩ := List.exists_mem_of_ne_nil ids hne
    obtain ⟨w, hw, -⟩ := (recordedBefore_iff sum64 _ _ _ _ _).mp (hrecorded id hid)
    refine ⟨w, hw, (Hll.Sketch.sketchOf_le_iff sum64 ids w).mpr fun id' hid' => ?_⟩
    obtain ⟨w', hw', hcontains⟩ := (recordedBefore_iff sum64 _ _ _ _ _).mp (hrecorded id' hid')
    rw [hw, Option.some.injEq] at hw'
    rw [hw']
    exact hcontains

/-- A truncated batch that the next command of its group makes good. -/
theorem applyEntries_agree_repaired :
    (freshNode.applyEntries savingEnv [truncatedBatch 2 3, addFive 2 4]).store.Holds
        (Hll.algorithm Murmur3.sum64)
        (freshNode.applyEntries savingEnv [truncatedBatch 2 3, addFive 2 4]).engine.groups ∧
      ∃ restored, restoreAll (Hll.algorithm Murmur3.sum64)
          (freshNode.applyEntries savingEnv [truncatedBatch 2 3, addFive 2 4]).store
        = (((freshNode.applyEntries savingEnv [truncatedBatch 2 3, addFive 2 4]).engine, restored),
            none) := by
  refine (applyEntries_agree_iff Murmur3.sum64 savingEnv (fun _ => rfl) freshNode holds_empty
    _).mpr ?_
  rintro pre e post hes group ids ⟨cmd, n, hcmd, htype, hgroup, -⟩
  rcases pre with _ | ⟨p, pre⟩
  · -- the batch comes first, and the add after it is accepted
    obtain ⟨rfl, rfl⟩ := List.cons.inj hes
    obtain rfl := Option.some.inj ((command_truncatedBatch 2 3).symm.trans hcmd)
    refine Or.inl ⟨addFive 2 4, by simp, ?_⟩
    unfold Entry.AcceptedFor Entry.accepted
    rw [← hgroup, show savingEnv.proto = Protobuf.codec from rfl, update_addFive]
    exact ⟨rfl, rfl⟩
  · -- the other entry is no batch
    obtain ⟨-, hes⟩ := List.cons.inj hes
    rcases pre with _ | ⟨q, pre⟩
    · obtain ⟨rfl, -⟩ := List.cons.inj hes
      obtain rfl := Option.some.inj ((command_addFive 2 4).symm.trans hcmd)
      exact absurd htype (by decide)
    · simp at hes

/-- **A truncated batch alone breaks the agreement.** A fresh node, whose store and engine
are both empty, applies a `BATCH_ADD` that announces two ids and holds one: the engine has
the group and the store does not, so a restart loses it. -/
theorem truncatedBatch_not_persisted :
    freshNode.store.Holds (Hll.algorithm Murmur3.sum64) freshNode.engine.groups ∧
      ¬ (freshNode.applyEntries savingEnv [truncatedBatch 2 3]).store.Holds
        (Hll.algorithm Murmur3.sum64)
        (freshNode.applyEntries savingEnv [truncatedBatch 2 3]).engine.groups ∧
      (restoreAll (Hll.algorithm Murmur3.sum64)
          (freshNode.applyEntries savingEnv [truncatedBatch 2 3]).store).1.1
        ≠ (freshNode.applyEntries savingEnv [truncatedBatch 2 3]).engine := by
  have hlive : (freshNode.applyEntries savingEnv
      [truncatedBatch 2 3]).engine.groups[str "g"]?.isSome = true := by decide +kernel
  have hstored : (freshNode.applyEntries savingEnv
      [truncatedBatch 2 3]).store.db[key (str "g")]? = none := by decide +kernel
  have hrebuilt : (restoreAll (Hll.algorithm Murmur3.sum64) (freshNode.applyEntries savingEnv
      [truncatedBatch 2 3]).store).1.1.groups[str "g"]?.isSome = false := by decide +kernel
  refine ⟨holds_empty, ?_, ?_⟩
  · intro hagree
    have hg := hagree (str "g")
    rw [hstored] at hg
    rw [Option.map_eq_none_iff.mp hg.symm] at hlive
    cases hlive
  · intro heq
    rw [heq, hlive] at hrebuilt
    cases hrebuilt

end CardinalityTracker
