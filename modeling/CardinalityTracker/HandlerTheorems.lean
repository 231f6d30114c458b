import CardinalityTracker.EngineTheorems
import CardinalityTracker.Handler

/-!
# A command is a join

What a command does to an engine depends on the command alone. Its `Effect` is read off the
payload: the sketch it joins into its group (if any), and whether `Dispatch` accepts it. The
two are independent in one case only, a truncated `BATCH_ADD`: the ids that decode before
the truncation are joined although the command is refused.

`dispatch_eq_effect` connects the handlers to it. From there on an entry of the Raft log is
an optional join, and `Lib.Absorbing` says the rest.
-/

namespace CardinalityTracker

open Lib Lib.Uvarint

variable {σ : Type}

/-- What a command contributes to its group, and whether it is accepted. -/
structure Effect (σ : Type) where
  content : Option σ
  accepted : Bool

/-- The effect of an `ADD` payload. -/
def addEffect (alg : Algorithm σ) (payload : Bytes) : Effect σ :=
  let (id, n) := uvarint payload
  if n ≤ 0 ∨ n ≠ payload.length then ⟨none, false⟩ else ⟨some (alg.single id), true⟩

/-- The count of a `BATCH_ADD` payload and the ids that decode after it, at most that many;
`none` when there is no count. -/
def batchIds (payload : Bytes) : Option (ℕ × List UInt64) :=
  let (n, k) := uvarint payload
  if k ≤ 0 then none else some (n.toNat, (readMany n.toNat (payload.drop k.toNat)).1)

/-- The effect of a `BATCH_ADD` payload. -/
def batchEffect (alg : Algorithm σ) (payload : Bytes) : Effect σ :=
  match batchIds payload with
  | none => ⟨none, false⟩
  | some (n, ids) => ⟨if ids = [] then none else some (alg.sketchOf ids), decide (ids.length = n)⟩

/-- The effect of a `MERGE_SKETCH` payload. -/
def mergeEffect (alg : Algorithm σ) (payload : Bytes) : Effect σ :=
  let (algoLen, n) := uvarint payload
  let buf := payload.drop n.toNat
  if n ≤ 0 ∨ buf.length < algoLen.toNat ∨ buf.take algoLen.toNat ≠ alg.name then ⟨none, false⟩
  else
    match alg.parse (buf.drop algoLen.toNat) with
    | .error _ => ⟨none, false⟩
    | .ok sk => ⟨some sk, true⟩

/-- The effect of a command; an unknown type has none. -/
def Command.effect (alg : Algorithm σ) (cmd : Command) : Effect σ :=
  if cmd.type = typeAdd then addEffect alg cmd.payload
  else if cmd.type = typeBatchAdd then batchEffect alg cmd.payload
  else if cmd.type = typeMergeSketch then mergeEffect alg cmd.payload
  else ⟨none, false⟩

/-! ## `applyAdd`, for any adder -/

/-- A payload that is one varint is an add of its number. -/
theorem addEffect_encodes (alg : Algorithm σ) {payload : Bytes} {id : UInt64}
    (h : Encodes payload id) : addEffect alg payload = ⟨some (alg.single id), true⟩ := by
  have hpos := h.length_pos
  unfold addEffect
  rw [h.2]
  dsimp only
  rw [if_neg (by omega)]

theorem applyAdd_encodes {S ε : Type} {cmd : Command} {id : UInt64} (h : Encodes cmd.payload id)
    (apply : Adder S ε) (s : S) :
    applyAdd cmd apply s
      = ((apply.add s cmd.group id).1, (apply.add s cmd.group id).2.map .adder) := by
  have hpos := h.length_pos
  unfold applyAdd
  rw [h.2]
  dsimp only
  rw [if_neg (by omega)]

/-! ## The loop of `applyBatchAdd`, for any adder -/

section BatchLoop

variable {S ε : Type}

/-- The outcome of adding ids one after the other: the ids for which `Add` was called, and
the error of the last call if it failed. -/
structure AddRun (S ε : Type) where
  state : S
  added : List UInt64
  err : Option ε

/-- Add the ids in turn and stop after the first call that fails. -/
def addUntilError (apply : Adder S ε) (group : GoString) : List UInt64 → S → AddRun S ε
  | [], s => ⟨s, [], none⟩
  | id :: ids, s =>
    match apply.add s group id with
    | (s', some err) => ⟨s', [id], some err⟩
    | (s', none) =>
      let r := addUntilError apply group ids s'
      { r with added := id :: r.added }

/-- What the loop returns when it has read `ids` of the `n` ids. -/
def batchError (n : ℕ) (ids : List UInt64) : Option ε → Option (HandlerError ε)
  | some err => some (.adder err)
  | none =>
    if ids.length = n then none
    else some (.badPayload (str "id " ++ decimal (ids.length + 1) ++ str "/" ++ decimal n
      ++ str " truncated"))

theorem batchError_eq_none_iff (n : ℕ) (ids : List UInt64) (err : Option ε) :
    batchError n ids err = none ↔ ids.length = n ∧ err = none := by
  cases err with
  | none => simp [batchError]
  | some err => simp [batchError]

theorem exists_batchError_eq_badPayload_iff (n : ℕ) (ids : List UInt64) (err : Option ε) :
    (∃ detail, batchError n ids err = some (.badPayload detail)) ↔ ids.length ≠ n ∧ err = none := by
  cases err with
  | none =>
    by_cases hlen : ids.length = n
    · simp [batchError, hlen]
    · simp [batchError, hlen]
  | some err => simp [batchError]

/-- The loop decodes as many ids as it can and adds them until a call fails. The induction
is on the ids still to be read; `done` of them have been read before. -/
theorem batchLoop_spec (apply : Adder S ε) (group : GoString) (done todo : ℕ) (buf : Bytes)
    (s : S) :
    batchLoop apply group (done + todo) todo buf s
      = ((addUntilError apply group (readMany todo buf).1 s).state,
          match (addUntilError apply group (readMany todo buf).1 s).err with
          | some err => some (.adder err)
          | none =>
            if (readMany todo buf).1.length = todo then none
            else some (.badPayload (str "id " ++ decimal (done + (readMany todo buf).1.length + 1)
              ++ str "/" ++ decimal (done + todo) ++ str " truncated"))) := by
  induction todo generalizing done buf s with
  | zero => rfl
  | succ todo ih =>
    unfold batchLoop readMany
    by_cases hm : (uvarint buf).2 ≤ 0
    · -- truncated: nothing more is added and the loop names the position
      have hpos : done + (todo + 1) - todo = done + 1 := by omega
      simp only [hm, if_true, addUntilError, hpos, List.length_nil, Nat.add_zero]
      rfl
    · simp only [hm, if_false, addUntilError]
      rcases apply.add s group (uvarint buf).1 with ⟨s', _ | err⟩
      · have hstep := ih (done + 1) (buf.drop (uvarint buf).2.toNat) s'
        have hn : done + 1 + todo = done + (todo + 1) := by omega
        have hlen : ∀ k, done + 1 + k + 1 = done + (k + 1) + 1 := by omega
        rw [hn] at hstep
        simp only [hstep, hlen, List.length_cons, Nat.add_right_cancel_iff]
      · rfl

theorem batchIds_of_le {payload : Bytes} (h : (uvarint payload).2 ≤ 0) :
    batchIds payload = none := by
  unfold batchIds
  exact if_pos h

theorem batchIds_of_pos {payload : Bytes} (h : 0 < (uvarint payload).2) :
    batchIds payload = some ((uvarint payload).1.toNat,
      (readMany (uvarint payload).1.toNat (payload.drop (uvarint payload).2.toNat)).1) := by
  unfold batchIds
  exact if_neg (not_le.mpr h)

/-- No more ids are read than the count says. -/
theorem length_le_of_batchIds {payload : Bytes} {n : ℕ} {ids : List UInt64}
    (h : batchIds payload = some (n, ids)) : ids.length ≤ n := by
  by_cases hk : (uvarint payload).2 ≤ 0
  · rw [batchIds_of_le hk] at h
    cases h
  · rw [batchIds_of_pos (not_le.mp hk), Option.some.injEq, Prod.mk.injEq] at h
    obtain ⟨rfl, rfl⟩ := h
    exact length_readMany_le _ _

/-- The payload `[uvarint n][uvarint id_1]...[uvarint id_n]`. -/
def batchPayload (ids : List UInt64) : Bytes :=
  appendMany (appendUvarint [] (UInt64.ofNat ids.length)) ids

/-- The ids of a payload that starts with a count. -/
theorem batchIds_encodes {v buf : Bytes} {n : UInt64} (hv : Encodes v n) :
    batchIds (v ++ buf) = some (n.toNat, (readMany n.toNat buf).1) := by
  unfold batchIds
  simp only [hv.uvarint_append, if_neg (not_le.mpr hv.length_pos), Int.toNat_natCast,
    List.drop_left]

/-- The documented payload decodes to its ids. -/
theorem batchIds_batchPayload {ids : List UInt64} (hlen : ids.length < 2 ^ 64) :
    batchIds (batchPayload ids) = some (ids.length, ids) := by
  have hcount : (UInt64.ofNat ids.length).toNat = ids.length := UInt64.toNat_ofNat_of_lt' hlen
  have hids := readMany_appendMany ids []
  rw [List.append_nil] at hids
  unfold batchPayload
  rw [appendMany_eq, batchIds_encodes (encodes_appendUvarint _), hcount, hids]

/-- `applyBatchAdd` on a payload without a count. -/
theorem applyBatchAdd_of_none {cmd : Command} (hids : batchIds cmd.payload = none)
    (apply : Adder S ε) (s : S) :
    applyBatchAdd cmd apply s = (s, some (.badPayload (str "missing count varint"))) := by
  have hk : (uvarint cmd.payload).2 ≤ 0 := by
    by_contra hk
    rw [batchIds_of_pos (not_le.mp hk)] at hids
    cases hids
  unfold applyBatchAdd
  simp only [hk, if_true]

/-- `applyBatchAdd` from the count and the ids that its payload decodes to. -/
theorem applyBatchAdd_of_some {cmd : Command} {n : ℕ} {ids : List UInt64}
    (hids : batchIds cmd.payload = some (n, ids)) (apply : Adder S ε) (s : S) :
    applyBatchAdd cmd apply s
      = ((addUntilError apply cmd.group ids s).state,
          batchError n ids (addUntilError apply cmd.group ids s).err) := by
  by_cases hk : (uvarint cmd.payload).2 ≤ 0
  · rw [batchIds_of_le hk] at hids
    cases hids
  · rw [batchIds_of_pos (not_le.mp hk), Option.some.injEq, Prod.mk.injEq] at hids
    obtain ⟨rfl, rfl⟩ := hids
    have hloop := batchLoop_spec apply cmd.group 0 (uvarint cmd.payload).1.toNat
      (cmd.payload.drop (uvarint cmd.payload).2.toNat) s
    rw [Nat.zero_add] at hloop
    unfold applyBatchAdd
    simp only [hk, if_false, hloop, Nat.zero_add]
    rfl

/-- The engine never refuses an id. -/
theorem addUntilError_engine {alg : Algorithm σ} (group : GoString) (ids : List UInt64)
    (e : Engine alg) :
    addUntilError (Engine.adder alg) group ids e
      = ⟨ids.foldl (fun e id => (e.add group id).1) e, ids, none⟩ := by
  induction ids generalizing e with
  | nil => rfl
  | cons id ids ih =>
    have hadd : (Engine.adder alg).add e group id = ((e.add group id).1, none) := rfl
    rw [addUntilError, hadd]
    simp only [ih, List.foldl_cons]

end BatchLoop

/-! ## The handlers have these effects -/

/-- The outcome of a handler realises an effect on the command's group. -/
def Realises [SemilatticeSup σ] [OrderBot σ] {alg : Algorithm σ} (e : Engine alg)
    (group : GoString) (eff : Effect σ)
    (r : Engine alg × Option (HandlerError EngineError)) : Prop :=
  r.1.groups = joinOpt e.groups (eff.content.map fun s => (group, s)) ∧
    (r.2 = none ↔ eff.accepted = true)

section Join

variable [SemilatticeSup σ] [OrderBot σ] {alg : Algorithm σ}

/-- A handler that refuses the command before it has called the adder. -/
theorem realises_refused (e : Engine alg) (group : GoString) (err : HandlerError EngineError) :
    Realises e group ⟨none, false⟩ (e, some err) :=
  ⟨rfl, by simp⟩

/-- A handler that joins a sketch into the group and accepts. -/
theorem realises_joined (e : Engine alg) (group : GoString) (sk : σ) :
    Realises e group ⟨some sk, true⟩ (⟨joinAt e.groups group sk⟩, none) :=
  ⟨rfl, by simp⟩

theorem applyAdd_realises (h : alg.IsJoin) (cmd : Command) (e : Engine alg) :
    Realises e cmd.group (addEffect alg cmd.payload) (applyAdd cmd (Engine.adder alg) e) := by
  unfold applyAdd addEffect
  by_cases hbad : (uvarint cmd.payload).2 ≤ 0 ∨ (uvarint cmd.payload).2 ≠ cmd.payload.length
  · simp only [hbad, if_true]
    exact realises_refused e cmd.group _
  · simp only [hbad, if_false, Engine.adder, Engine.add_eq h]
    exact realises_joined e cmd.group _

theorem applyBatchAdd_realises (h : alg.IsJoin) (cmd : Command) (e : Engine alg) :
    Realises e cmd.group (batchEffect alg cmd.payload)
      (applyBatchAdd cmd (Engine.adder alg) e) := by
  unfold batchEffect
  cases hdec : batchIds cmd.payload with
  | none =>
    rw [applyBatchAdd_of_none hdec]
    exact realises_refused e cmd.group _
  | some decoded =>
    obtain ⟨n, ids⟩ := decoded
    rw [applyBatchAdd_of_some hdec, addUntilError_engine]
    refine ⟨?_, by simp [batchError_eq_none_iff]⟩
    -- a batch without ids does not create its group
    dsimp only
    by_cases hids : ids = []
    · rw [if_pos hids, hids]
      rfl
    · rw [if_neg hids, Engine.foldl_add_groups h cmd.group _ hids]
      rfl

theorem applyMergeSketch_realises (h : alg.IsJoin) (cmd : Command) (e : Engine alg) :
    Realises e cmd.group (mergeEffect alg cmd.payload)
      (applyMergeSketch cmd (Engine.adder alg) e) := by
  unfold applyMergeSketch mergeEffect
  -- the checks of the source in their order; only the last one can pass
  rcases uvarint cmd.payload with ⟨algoLen, n⟩
  by_cases hn : n ≤ 0
  · simp only [hn, if_true, true_or]
    exact realises_refused e cmd.group _
  simp only [hn, if_false, false_or, Engine.adder]
  generalize cmd.payload.drop n.toNat = buf
  by_cases hlen : buf.length < algoLen.toNat
  · simp only [hlen, if_true, true_or]
    exact realises_refused e cmd.group _
  simp only [hlen, if_false, false_or]
  generalize buf.drop algoLen.toNat = sketch
  by_cases hname : buf.take algoLen.toNat = alg.name
  · simp only [hname, ne_eq, not_true_eq_false, if_false]
    cases hparse : alg.parse sketch with
    | error err =>
      obtain ⟨err', herr⟩ := Engine.mergeBytes_of_reject e cmd.group alg.name sketch
        (Or.inr ⟨err, hparse⟩)
      rw [herr]
      exact realises_refused e cmd.group _
    | ok sk =>
      rw [Engine.mergeBytes_of_parse h e cmd.group hparse]
      exact realises_joined e cmd.group sk
  · obtain ⟨err', herr⟩ := Engine.mergeBytes_of_reject e cmd.group (buf.take algoLen.toNat)
      sketch (Or.inl hname)
    simp only [herr, hname, ne_eq, not_false_eq_true, if_true]
    exact realises_refused e cmd.group _

/-! ## Dispatch -/

/-- The handler the default registry holds for a type. -/
theorem getElem?_defaultRegistry {S ε : Type} (t : GoString) :
    (defaultRegistry : Registry S ε)[t]?
      = if t = typeAdd then some applyAdd
        else if t = typeBatchAdd then some applyBatchAdd
        else if t = typeMergeSketch then some applyMergeSketch
        else none := by
  unfold defaultRegistry Registry.register
  simp only [getElem?_insert_ite, Std.ExtTreeMap.getElem?_empty]
  have h₁ : typeBatchAdd ≠ typeAdd := by decide
  have h₂ : typeMergeSketch ≠ typeAdd := by decide
  have h₃ : typeMergeSketch ≠ typeBatchAdd := by decide
  by_cases ha : t = typeAdd
  · subst ha
    simp [h₁, h₂]
  by_cases hb : t = typeBatchAdd
  · subst hb
    simp [h₁, h₃]
  · simp only [eq_comm (b := t), ha, hb, if_false]

/-- A command whose type is registered goes to its handler. -/
theorem dispatch_of_handler {S ε : Type} {cmd : Command} {handler : Handler S ε}
    (h : (defaultRegistry : Registry S ε)[cmd.type]? = some handler) (apply : Adder S ε) (s : S) :
    defaultRegistry.dispatch (some cmd) (some apply) s = handler cmd apply s := by
  unfold Registry.dispatch
  simp only [h]

/-- **A dispatched command is the join of its content**, whatever state the engine is in. -/
theorem dispatch_eq_effect (h : alg.IsJoin) (cmd : Command) (e : Engine alg) :
    Realises e cmd.group (cmd.effect alg)
      (defaultRegistry.dispatch (some cmd) (some (Engine.adder alg)) e) := by
  unfold Registry.dispatch Command.effect
  simp only [getElem?_defaultRegistry]
  by_cases ha : cmd.type = typeAdd
  · rw [if_pos ha, if_pos ha]
    exact applyAdd_realises h cmd e
  rw [if_neg ha, if_neg ha]
  by_cases hb : cmd.type = typeBatchAdd
  · rw [if_pos hb, if_pos hb]
    exact applyBatchAdd_realises h cmd e
  rw [if_neg hb, if_neg hb]
  by_cases hm : cmd.type = typeMergeSketch
  · rw [if_pos hm, if_pos hm]
    exact applyMergeSketch_realises h cmd e
  · rw [if_neg hm, if_neg hm]
    exact realises_refused e cmd.group _

end Join

end CardinalityTracker
