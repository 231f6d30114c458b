import CardinalityTracker.Raft.Consistency

/-!
# What is applied and what is persisted

`applyEntries` moves the applied index over an entry whether or not the entry's sketch could
be saved. `applied_persisted_iff` says, for every pattern of save outcomes, when the store
nevertheless has all that the index claims at every point of a run: when each entry is saved,
or its id had been saved before.

An erring save leaves the store as it was, so what the store has after some entries is what
it had at the start and what one of the saves that succeeded wrote
(`storeCovers_applyEntries_iff`).
-/

namespace CardinalityTracker

open Lib EtcdStorage

variable {σ τ : Type}

/-- The stored sketch of the group is at or above the sketch of the one id, and a restart
brings it back. -/
def StoreCovers (sum64 : Bytes → UInt64) (st : Store) (group : GoString) (id : UInt64) : Prop :=
  ∃ sk : Hll.Sketch, st.load group = some sk.bytes ∧ (Hll.algorithm sum64).single id ≤ sk ∧
    ∃ engine restored, restoreAll (Hll.algorithm sum64) st = ((engine, restored), none) ∧
      engine.groups[group]? = some sk

/-- The entry is a well-formed `ADD` of the id: it decodes to an `ADD` whose payload is one
varint. -/
def Entry.Adds (proto : Proto) (e : Entry) (group : GoString) (id : UInt64) : Prop :=
  ∃ payload, e.command proto = some ⟨typeAdd, group, payload⟩ ∧ Uvarint.Encodes payload id

/-- The entry is a well-formed `ADD`. -/
def Entry.IsAdd (proto : Proto) (e : Entry) : Prop := ∃ group id, e.Adds proto group id

theorem Entry.update_of_adds {proto : Proto} (alg : Algorithm σ) {e : Entry} {group : GoString}
    {id : UInt64} (h : e.Adds proto group id) :
    e.update proto alg = ⟨group, some (alg.single id), true⟩ := by
  obtain ⟨payload, hcommand, hpayload⟩ := h
  have heffect : (⟨typeAdd, group, payload⟩ : Command).effect alg = ⟨some (alg.single id), true⟩ :=
    addEffect_encodes alg hpayload
  rw [Entry.update_of_command alg hcommand, heffect]

theorem Entry.accepted_of_isAdd {proto : Proto} (alg : Algorithm σ) {e : Entry}
    (h : e.IsAdd proto) : e.accepted proto alg = true := by
  obtain ⟨group, id, hadds⟩ := h
  unfold Entry.accepted
  rw [Entry.update_of_adds alg hadds]

/-- The entry `e`, which follows the entries `p` of the run, is an add of the group whose save
succeeds, and by then `id` has been recorded in the group. The run makes one save an entry,
from the number `saves` on. -/
def SavedAt (sum64 : Bytes → UInt64) (env : Env τ) (saves : ℕ) (start : StringMap Hll.Sketch)
    (p : List Entry) (e : Entry) (group : GoString) (id : UInt64) : Prop :=
  (∃ id', e.Adds env.proto group id') ∧ env.out (saves + p.length) = .ok ∧
    RecordedBefore sum64 env.proto start (p ++ [e]) group id

section

variable {sum64 : Bytes → UInt64} {env : Env τ} {n : Node (Hll.algorithm sum64) τ}
  {c : Copies GoString Hll.Sketch compare}

theorem storeCovers_iff (hc : n.Represents c) (group : GoString) (id : UInt64) :
    StoreCovers sum64 n.store group id ↔ c.Durable group ((Hll.algorithm sum64).single id) := by
  have halg := Hll.isJoin sum64
  have hload : n.store.load group = c.stored[group]?.map (Hll.algorithm sum64).bytes := hc.2 group
  constructor
  · intro ⟨sk, hsk, hle, _⟩
    rw [hload, Option.map_eq_some_iff] at hsk
    obtain ⟨w, hw, hbytes⟩ := hsk
    rw [halg.bytes_injective hbytes] at hw
    exact ⟨sk, hw, hle⟩
  · intro ⟨sk, hsk, hle⟩
    refine ⟨sk, ?_, hle, _, _, restoreAll_of_holds halg hc.2, hsk⟩
    rw [hload, hsk]
    rfl

/-- Whatever the saves do, the store keeps holding sketches at or below the live ones. -/
theorem exists_represents (hc : n.Represents c) (hbelow : c.Below) (env : Env τ)
    (es : List Entry) : ∃ c', (n.applyEntries env es).Represents c' ∧ c'.Below := by
  unfold Node.applyEntries
  induction es generalizing n c with
  | nil => exact ⟨c, hc, hbelow⟩
  | cons e es ih =>
    exact ih (Node.applyEntry_represents (Hll.isJoin sum64) env hc e) (Copies.below_apply hbelow _)

/-! ## One entry -/

/-- Every add makes one save. -/
theorem saves_applyEntry {e : Entry} (hadd : e.IsAdd env.proto) :
    (n.applyEntry env e).store.saves = n.store.saves + 1 := by
  obtain ⟨group, id, hadds⟩ := hadd
  -- the group has just been joined, so there is a sketch to save
  have hsk : (⟨joinAt n.engine.groups group ((Hll.algorithm sum64).single id)⟩ :
      Engine (Hll.algorithm sum64)).groups[group]?
        = some (value n.engine.groups group ⊔ (Hll.algorithm sum64).single id) :=
    getElem?_joinAt_self _ _ _
  rw [Node.applyEntry_cases (Hll.isJoin sum64), Entry.update_of_adds _ hadds]
  dsimp only [Update.joins, Option.map_some, joinOpt]
  rw [if_pos rfl, Engine.persist_of_some hsk]
  unfold Store.save
  cases env.out n.store.saves with
  | ok => rfl
  | fail err written => cases written <;> rfl

/-- **What one add leaves in the store**: what was there, and if its save succeeds, all that
is live in its group by then. -/
theorem storeCovers_applyEntry_iff (hfail : ∀ k err, env.out k ≠ .fail err true)
    (hc : n.Represents c) (hbelow : c.Below) {e : Entry} (hadd : e.IsAdd env.proto)
    (group : GoString) (id : UInt64) :
    StoreCovers sum64 (n.applyEntry env e).store group id
      ↔ StoreCovers sum64 n.store group id ∨
        (∃ id', e.Adds env.proto group id') ∧ env.out n.store.saves = .ok ∧
          ∃ w, (n.applyEntry env e).engine.groups[group]? = some w ∧ w.Contains sum64 id := by
  have hc' := Node.applyEntry_represents (Hll.isJoin sum64) env hc e
  obtain ⟨g, id', hadds⟩ := hadd
  have hupdate := Entry.update_of_adds (Hll.algorithm sum64) hadds
  have hkey : (Node.savedUpdate env n e).key = g := by
    unfold Node.savedUpdate
    rw [hupdate]
  have hflush : (Node.savedUpdate env n e).flush = true ↔ env.out n.store.saves = .ok := by
    unfold Node.savedUpdate Entry.accepted
    rw [hupdate, Bool.true_and]
    cases hout : env.out n.store.saves with
    | ok => simp [SaveOutcome.written]
    | fail err written =>
      cases written with
      | false => simp [SaveOutcome.written]
      | true => exact absurd hout (hfail _ err)
  -- an entry carries one command, so it is an add of one group
  have hgroup : (∃ id', e.Adds env.proto group id') ↔ g = group := by
    constructor
    · rintro ⟨id'', h⟩
      have hupdate' := Entry.update_of_adds (Hll.algorithm sum64) h
      rw [hupdate, Update.mk.injEq] at hupdate'
      exact hupdate'.1
    · intro hg
      exact ⟨id', hg ▸ hadds⟩
  rw [storeCovers_iff hc', storeCovers_iff hc, Copies.durable_apply_iff hbelow, hkey, hflush, hc'.1,
    hgroup]
  simp only [Hll.Sketch.contains_iff]

/-! ## A run of entries -/

theorem saves_applyEntries {es : List Entry} (hadds : ∀ e ∈ es, e.IsAdd env.proto) :
    (n.applyEntries env es).store.saves = n.store.saves + es.length := by
  unfold Node.applyEntries
  induction es generalizing n with
  | nil => rfl
  | cons e es ih =>
    rw [List.forall_mem_cons] at hadds
    rw [List.foldl_cons, ih hadds.2, saves_applyEntry hadds.1, List.length_cons]
    omega

/-- **What a run of adds leaves in the store.** The induction is on the last entry. -/
theorem storeCovers_applyEntries_iff (hfail : ∀ k err, env.out k ≠ .fail err true)
    (hc : n.Represents c) (hbelow : c.Below) {es : List Entry}
    (hadds : ∀ e ∈ es, e.IsAdd env.proto) (group : GoString) (id : UInt64) :
    StoreCovers sum64 (n.applyEntries env es).store group id
      ↔ StoreCovers sum64 n.store group id ∨
        ∃ p e q, es = p ++ e :: q ∧
          SavedAt sum64 env n.store.saves n.engine.groups p e group id := by
  induction es using List.reverseRecOn with
  | nil =>
    constructor
    · exact Or.inl
    · rintro (h | ⟨p, e, q, hnil, -⟩)
      · exact h
      · exact absurd hnil (by simp)
  | append_singleton es e ih =>
    rw [List.forall_mem_append, List.forall_mem_singleton] at hadds
    obtain ⟨c', hc', hbelow'⟩ := exists_represents hc hbelow env es
    -- the last entry, in the state that the others leave
    have hlast := Node.applyEntries_concat env n es e
    have hlive : (∃ w, (n.applyEntries env (es ++ [e])).engine.groups[group]? = some w ∧
          w.Contains sum64 id)
        ↔ RecordedBefore sum64 env.proto n.engine.groups (es ++ [e]) group id := by
      rw [recordedBefore_iff, Node.applyEntries_groups (Hll.isJoin sum64)]
    have hstep := storeCovers_applyEntry_iff hfail hc' hbelow' hadds.2 group id
    rw [← hlast, hlive, saves_applyEntries hadds.1, ih hadds.1] at hstep
    rw [hstep]
    constructor
    · rintro ((hstart | ⟨p, x, q, rfl, hsaved⟩) | hsaved)
      · exact Or.inl hstart
      · exact Or.inr ⟨p, x, q ++ [e], by simp, hsaved⟩
      · exact Or.inr ⟨es, e, [], rfl, hsaved⟩
    · rintro (hstart | ⟨p, x, q, hsplit, hsaved⟩)
      · exact Or.inl (Or.inl hstart)
      · rcases concat_eq_append_cons hsplit with ⟨-, rfl, rfl⟩ | ⟨q', -, hes⟩
        · exact Or.inr hsaved
        · exact Or.inl (Or.inr ⟨p, x, q', hes, hsaved⟩)

/-- The applied index is the index of the last add. -/
theorem appliedIdx_applyEntries_concat {es : List Entry} {e : Entry} (hadd : e.IsAdd env.proto) :
    (n.applyEntries env (es ++ [e])).appliedIdx = e.index := by
  rw [Node.applyEntries_appliedIdx (Hll.isJoin sum64), Node.lastAccepted_concat,
    if_pos (Entry.accepted_of_isAdd _ hadd)]

/-- An entry up to the applied index is one that has been applied. -/
theorem mem_of_index_le_appliedIdx {pre post : List Entry}
    (hadds : ∀ e ∈ pre ++ post, e.IsAdd env.proto)
    (hindices : (pre ++ post).Pairwise fun e e' => e.index < e'.index)
    (hnew : ∀ e ∈ pre ++ post, n.appliedIdx < e.index) {e : Entry} (he : e ∈ pre ++ post)
    (hle : e.index ≤ (n.applyEntries env pre).appliedIdx) : e ∈ pre := by
  rcases List.mem_append.mp he with hpre | hpost
  · exact hpre
  · rcases List.eq_nil_or_concat pre with rfl | ⟨pre', last, rfl⟩
    · -- nothing has been applied, and the index is still the one from before
      have hlt : n.appliedIdx < e.index := hnew e he
      have hle' : e.index ≤ n.appliedIdx := hle
      omega
    · rw [List.concat_eq_append] at hle hindices hadds
      have hlast : last ∈ pre' ++ [last] := by simp
      rw [appliedIdx_applyEntries_concat (hadds last (List.mem_append_left _ hlast))] at hle
      have hlt := (List.pairwise_append.mp hindices).2.2 last hlast e hpost
      omega

end

/-- **When all that is reported as applied is persisted.** From a node whose store holds
sketches at or below the live ones, over adds with increasing indices, and with saves that
succeed or write nothing: at every point of the run the store covers every entry up to the
applied index, if and only if for every entry its own save succeeds, or the store covers the
id at the start, or an earlier entry of the group was saved when the id had been recorded. -/
theorem applied_persisted_iff (sum64 : Bytes → UInt64) (env : Env τ)
    (hfail : ∀ k err, env.out k ≠ .fail err true) (n : Node (Hll.algorithm sum64) τ)
    (c : Copies GoString Hll.Sketch compare) (hc : n.Represents c) (hbelow : c.Below)
    (es : List Entry) (hadds : ∀ e ∈ es, e.IsAdd env.proto)
    (hindices : es.Pairwise fun e e' => e.index < e'.index)
    (hnew : ∀ e ∈ es, n.appliedIdx < e.index) :
    (∀ pre post, es = pre ++ post → ∀ e ∈ es, e.index ≤ (n.applyEntries env pre).appliedIdx →
        ∀ group id, e.Adds env.proto group id →
          StoreCovers sum64 (n.applyEntries env pre).store group id)
      ↔ ∀ pre e post, es = pre ++ e :: post → ∀ group id, e.Adds env.proto group id →
            env.out (n.store.saves + pre.length) = .ok ∨ StoreCovers sum64 n.store group id ∨
              ∃ p e' q, pre = p ++ e' :: q ∧
                SavedAt sum64 env n.store.saves n.engine.groups p e' group id := by
  constructor
  · intro hcovered pre e post hes group id hadd
    -- the point of the run right after the entry
    have hsplit : es = (pre ++ [e]) ++ post := by rw [hes, List.append_assoc, List.singleton_append]
    have hsub : ∀ x ∈ pre ++ [e], x.IsAdd env.proto := by
      intro x hx
      exact hadds x (hsplit ▸ List.mem_append_left _ hx)
    have hmem : e ∈ es := by rw [hes]; simp
    have hle : e.index ≤ (n.applyEntries env (pre ++ [e])).appliedIdx := by
      rw [appliedIdx_applyEntries_concat (hadds e hmem)]
    have hnow := hcovered (pre ++ [e]) post hsplit e hmem hle group id hadd
    rw [storeCovers_applyEntries_iff hfail hc hbelow hsub] at hnow
    rcases hnow with hstart | ⟨p, x, q, hpq, hsaved⟩
    · exact Or.inr (Or.inl hstart)
    · rcases concat_eq_append_cons hpq with ⟨-, rfl, rfl⟩ | ⟨q', -, hpre⟩
      · exact Or.inl hsaved.2.1
      · exact Or.inr (Or.inr ⟨p, x, q', hpre, hsaved⟩)
  · intro hcond pre post hes e he hle group id hadd
    subst hes
    have hpre := mem_of_index_le_appliedIdx hadds hindices hnew he hle
    obtain ⟨p, q, rfl⟩ := List.append_of_mem hpre
    have hsub : ∀ x ∈ p ++ e :: q, x.IsAdd env.proto := by
      intro x hx
      exact hadds x (List.mem_append_left _ hx)
    rw [storeCovers_applyEntries_iff hfail hc hbelow hsub]
    have hsplit : p ++ e :: q ++ post = p ++ e :: (q ++ post) := by simp
    rcases hcond p e (q ++ post) hsplit group id hadd with hok | hstart | ⟨p', x, q', hp, hsaved⟩
    · -- its own save, which is made when the id has just been recorded
      have hjoins : (e.update env.proto (Hll.algorithm sum64)).joins
          = some (group, (Hll.algorithm sum64).single id) := by
        rw [Entry.update_of_adds _ hadd]
        rfl
      have hrecorded : RecordedBefore sum64 env.proto n.engine.groups (p ++ [e]) group id :=
        Or.inr ⟨e, by simp, _, hjoins, (Hll.Sketch.contains_iff sum64 _ id).mpr le_rfl⟩
      exact Or.inr ⟨p, e, q, rfl, ⟨id, hadd⟩, hok, hrecorded⟩
    · exact Or.inl hstart
    · exact Or.inr ⟨p', x, q' ++ e :: q, by rw [hp]; simp, hsaved⟩

/-! ## Two runs -/

/-- The first save succeeds and no other does. -/
def firstSaveEnv : Env State :=
  environment fun k => if k = 0 then .ok else .fail (str "disk full") false

theorem adds_addFive (term index : ℕ) : (addFive term index).Adds Protobuf.codec (str "g") 5 :=
  ⟨[5], command_addFive term index, by decide, rfl⟩

theorem eq_of_adds_addFive {term index : ℕ} {group : GoString} {id : UInt64}
    (h : (addFive term index).Adds Protobuf.codec group id) : group = str "g" ∧ id = 5 := by
  obtain ⟨payload, hcommand, hpayload⟩ := h
  rw [command_addFive, Option.some.injEq, Command.mk.injEq] at hcommand
  obtain ⟨-, hgroup, rfl⟩ := hcommand
  exact ⟨hgroup.symm, (congrArg Prod.fst hpayload.2).symm⟩

/-- An id that has been saved once is not lost with a later save of it. -/
theorem applied_persisted_repeated :
    (freshNode.applyEntries firstSaveEnv [addFive 2 3, addFive 2 4]).appliedIdx = 4 ∧
      StoreCovers Murmur3.sum64
        (freshNode.applyEntries firstSaveEnv [addFive 2 3, addFive 2 4]).store (str "g") 5 := by
  have hadds : ∀ e ∈ [addFive 2 3, addFive 2 4], e.IsAdd firstSaveEnv.proto := by
    intro e he
    simp only [List.mem_cons, List.not_mem_nil, or_false] at he
    rcases he with rfl | rfl
    · exact ⟨_, _, adds_addFive 2 3⟩
    · exact ⟨_, _, adds_addFive 2 4⟩
  have hfail : ∀ k err, firstSaveEnv.out k ≠ .fail err true := by
    intro k err h
    change (if k = 0 then SaveOutcome.ok else .fail (str "disk full") false) = .fail err true at h
    split at h <;> simp at h
  have hjoins : ((addFive 2 3).update Protobuf.codec (Hll.algorithm Murmur3.sum64)).joins
      = some (str "g", (Hll.algorithm Murmur3.sum64).single 5) := by
    rw [update_addFive]
    rfl
  have hsaved : SavedAt Murmur3.sum64 firstSaveEnv 0 ∅ [] (addFive 2 3) (str "g") 5 :=
    ⟨⟨5, adds_addFive 2 3⟩, rfl, Or.inr ⟨_, List.mem_singleton.mpr rfl, _, hjoins,
      (Hll.Sketch.contains_iff Murmur3.sum64 _ 5).mpr le_rfl⟩⟩
  have hcovered := (applied_persisted_iff Murmur3.sum64 firstSaveEnv hfail
    freshNode ⟨∅, ∅⟩ ⟨rfl, holds_empty⟩ (fun k w hw => absurd hw (by simp))
    [addFive 2 3, addFive 2 4] hadds (by decide) (by decide)).mpr (by
      intro pre e post hes group id hadd
      rcases pre with _ | ⟨x, _ | ⟨y, pre⟩⟩
      · exact Or.inl rfl
      · -- the second entry repeats the id of the first one
        obtain ⟨rfl, hrest⟩ := List.cons.inj hes
        obtain ⟨rfl, -⟩ := List.cons.inj hrest
        obtain ⟨rfl, rfl⟩ := eq_of_adds_addFive hadd
        exact Or.inr (Or.inr ⟨[], addFive 2 3, [], rfl, hsaved⟩)
      · exact absurd (congrArg List.length hes) (by simp))
  have hidx : (freshNode.applyEntries firstSaveEnv [addFive 2 3, addFive 2 4]).appliedIdx = 4 := by
    decide +kernel
  exact ⟨hidx, hcovered [addFive 2 3, addFive 2 4] [] rfl (addFive 2 4) (by simp)
    (by rw [hidx]; exact le_rfl) (str "g") 5 (adds_addFive 2 4)⟩

/-- **An entry is reported as applied and nothing of it is stored.** -/
theorem applied_not_persisted :
    (addFive 2 3).Adds Protobuf.codec (str "g") 5 ∧
      (freshNode.applyEntries failingEnv [addFive 2 3]).appliedIdx = 3 ∧
      ¬ StoreCovers Murmur3.sum64 (freshNode.applyEntries failingEnv [addFive 2 3]).store
          (str "g") 5 := by
  refine ⟨adds_addFive 2 3, by decide +kernel, ?_⟩
  have hnone : ((freshNode.applyEntries failingEnv [addFive 2 3]).store.load (str "g")).isNone
      = true := by
    decide +kernel
  intro ⟨sk, hsk, _⟩
  rw [hsk] at hnone
  cases hnone

end CardinalityTracker
