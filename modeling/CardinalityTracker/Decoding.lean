import CardinalityTracker.HandlerTheorems
import CardinalityTracker.HllFormat
import CardinalityTracker.Reference.Murmur3

/-!
# Decoding command payloads

What the handlers make of an arbitrary payload, for an arbitrary adder. An adder that records
its calls (`Adder.recorded`) shows which calls a handler makes; a loop that counts its rounds
and a handler whose slice expressions can fail show that the untrusted numbers in a payload
bound neither the work nor a slice.

The last section compares the three handlers: only `ADD` accounts for every byte of its
payload. `BATCH_ADD` does not look behind its last id, and `MERGE_SKETCH` hands the rest of
the payload to a parser that does not look behind the registers.
-/

namespace CardinalityTracker

open Lib Lib.Uvarint

variable {S ε : Type}

/-! ## Recorded calls -/

/-- A call of a method of an adder. -/
inductive AdderCall
  | add (group : GoString) (id : UInt64)
  | mergeBytes (group algoName : GoString) (b : Bytes)
deriving DecidableEq, Repr

/-- The adder that also keeps a list of the calls it gets. -/
def Adder.recorded (apply : Adder S ε) : Adder (S × List AdderCall) ε where
  add := fun s group id =>
    let (s', err) := apply.add s.1 group id
    ((s', s.2 ++ [.add group id]), err)
  mergeBytes := fun s group algoName b =>
    let (s', err) := apply.mergeBytes s.1 group algoName b
    ((s', s.2 ++ [.mergeBytes group algoName b]), err)

theorem addUntilError_recorded (apply : Adder S ε) (group : GoString) (ids : List UInt64) (s : S)
    (calls : List AdderCall) :
    addUntilError apply.recorded group ids (s, calls)
      = ⟨((addUntilError apply group ids s).state,
            calls ++ (addUntilError apply group ids s).added.map (.add group)),
          (addUntilError apply group ids s).added, (addUntilError apply group ids s).err⟩ := by
  induction ids generalizing s calls with
  | nil => simp [addUntilError]
  | cons id ids ih =>
    have hadd : apply.recorded.add (s, calls) group id
        = (((apply.add s group id).1, calls ++ [.add group id]), (apply.add s group id).2) := rfl
    rw [addUntilError, addUntilError, hadd]
    rcases apply.add s group id with ⟨s', _ | err⟩
    · simp [ih]
    · simp

/-- When no call fails every id is added. -/
theorem added_of_err_eq_none (apply : Adder S ε) (group : GoString) {ids : List UInt64} {s : S}
    (h : (addUntilError apply group ids s).err = none) :
    (addUntilError apply group ids s).added = ids := by
  induction ids generalizing s with
  | nil => rfl
  | cons id ids ih =>
    rw [addUntilError] at h ⊢
    rcases hadd : apply.add s group id with ⟨s', _ | err⟩
    · rw [hadd] at h
      simp only [ih h]
    · rw [hadd] at h
      cases h

/-! ## `BATCH_ADD` -/

/-- The loop of `applyBatchAdd` with the number of times its body is entered. -/
def batchLoopCounted (apply : Adder S ε) (group : GoString) (n : ℕ) :
    ℕ → Bytes → S → (S × Option (HandlerError ε)) × ℕ
  | 0, _, s => ((s, none), 0)
  | todo + 1, buf, s =>
    let (id, m) := uvarint buf
    if m ≤ 0 then
      ((s, some (.badPayload (str "id " ++ decimal (n - todo) ++ str "/" ++ decimal n
        ++ str " truncated"))), 1)
    else
      match apply.add s group id with
      | (s', some err) => ((s', some (.adder err)), 1)
      | (s', none) =>
        let r := batchLoopCounted apply group n todo (buf.drop m.toNat) s'
        (r.1, r.2 + 1)

/-- `applyBatchAdd` with the number of rounds of its loop. -/
def applyBatchAddCounted (cmd : Command) (apply : Adder S ε) (s : S) :
    (S × Option (HandlerError ε)) × ℕ :=
  let (n, k) := uvarint cmd.payload
  if k ≤ 0 then ((s, some (.badPayload (str "missing count varint"))), 0)
  else batchLoopCounted apply cmd.group n.toNat n.toNat (cmd.payload.drop k.toNat) s

theorem batchLoopCounted_fst (apply : Adder S ε) (group : GoString) (n todo : ℕ) (buf : Bytes)
    (s : S) :
    (batchLoopCounted apply group n todo buf s).1 = batchLoop apply group n todo buf s := by
  induction todo generalizing buf s with
  | zero => rfl
  | succ todo ih =>
    unfold batchLoopCounted batchLoop
    by_cases hm : (uvarint buf).2 ≤ 0
    · simp only [hm, if_true]
    · simp only [hm, if_false]
      rcases apply.add s group (uvarint buf).1 with ⟨s', _ | err⟩
      · exact ih (buf.drop (uvarint buf).2.toNat) s'
      · rfl

theorem applyBatchAddCounted_fst (cmd : Command) (apply : Adder S ε) (s : S) :
    (applyBatchAddCounted cmd apply s).1 = applyBatchAdd cmd apply s := by
  unfold applyBatchAddCounted applyBatchAdd
  by_cases hk : (uvarint cmd.payload).2 ≤ 0
  · simp only [hk, if_true]
  · simp only [hk, if_false]
    exact batchLoopCounted_fst apply cmd.group _ _ _ s

/-- Reading a number takes at least one byte off the buffer. -/
theorem length_drop_uvarint_lt {buf : Bytes} (h : 0 < (uvarint buf).2) :
    (buf.drop (uvarint buf).2.toNat).length < buf.length := by
  have hle := uvarint_snd_le_length h
  rw [List.length_drop]
  omega

/-- Every round but the last one takes a byte off the buffer. -/
theorem batchLoopCounted_snd_le (apply : Adder S ε) (group : GoString) (n todo : ℕ) (buf : Bytes)
    (s : S) : (batchLoopCounted apply group n todo buf s).2 ≤ buf.length + 1 := by
  induction todo generalizing buf s with
  | zero => exact Nat.zero_le _
  | succ todo ih =>
    unfold batchLoopCounted
    by_cases hm : (uvarint buf).2 ≤ 0
    · simp only [hm, if_true]
      omega
    · have hshort := length_drop_uvarint_lt (not_le.mp hm)
      simp only [hm, if_false]
      rcases apply.add s group (uvarint buf).1 with ⟨s', _ | err⟩
      · have hrest := ih (buf.drop (uvarint buf).2.toNat) s'
        simp only
        omega
      · simp only
        omega

theorem applyBatchAddCounted_snd_le (cmd : Command) (apply : Adder S ε) (s : S) :
    (applyBatchAddCounted cmd apply s).2 ≤ cmd.payload.length := by
  unfold applyBatchAddCounted
  by_cases hk : (uvarint cmd.payload).2 ≤ 0
  · simp only [hk, if_true]
    omega
  · have hshort := length_drop_uvarint_lt (not_le.mp hk)
    have hrounds := batchLoopCounted_snd_le apply cmd.group (uvarint cmd.payload).1.toNat
      (uvarint cmd.payload).1.toNat (cmd.payload.drop (uvarint cmd.payload).2.toNat) s
    simp only [hk, if_false]
    omega

/-- **`BATCH_ADD` decoding.** For every payload and every adder, with the calls recorded:

* without a count there is no call, and the error is the handler's own;
* otherwise let `ids` be the longest list of at most `n` varints right behind the count `n`.
  `Add` is called on them in order up to the first call that fails, the handler returns nil
  exactly when there are `n` of them and no call fails, and its own error exactly when there
  are fewer and no call fails;
* recording does not change the outcome, and the loop runs at most once a byte of the payload;
* the documented encoding of a list decodes to that list. -/
theorem applyBatchAdd_decodes (cmd : Command) (apply : Adder S ε) (s : S) :
    ((uvarint cmd.payload).2 ≤ 0 →
      applyBatchAdd cmd apply.recorded (s, [])
        = ((s, []), some (.badPayload (str "missing count varint")))) ∧
    (0 < (uvarint cmd.payload).2 → ∃ v buf ids rest,
      cmd.payload = v ++ buf ∧ Encodes v (uvarint cmd.payload).1 ∧
      Reads ids buf rest ∧ ids.length ≤ (uvarint cmd.payload).1.toNat ∧
      (∀ ids' rest', Reads ids' buf rest' → ids'.length ≤ (uvarint cmd.payload).1.toNat →
        ids' <+: ids) ∧
      (applyBatchAdd cmd apply.recorded (s, [])).1
        = ((addUntilError apply cmd.group ids s).state,
            (addUntilError apply cmd.group ids s).added.map (.add cmd.group)) ∧
      ((applyBatchAdd cmd apply.recorded (s, [])).2 = none ↔
        ids.length = (uvarint cmd.payload).1.toNat ∧
          (addUntilError apply cmd.group ids s).err = none) ∧
      ((∃ detail, (applyBatchAdd cmd apply.recorded (s, [])).2 = some (.badPayload detail)) ↔
        ids.length < (uvarint cmd.payload).1.toNat ∧
          (addUntilError apply cmd.group ids s).err = none)) ∧
    applyBatchAdd cmd apply s
      = ((applyBatchAdd cmd apply.recorded (s, [])).1.1,
          (applyBatchAdd cmd apply.recorded (s, [])).2) ∧
    ((applyBatchAddCounted cmd apply s).1 = applyBatchAdd cmd apply s ∧
      (applyBatchAddCounted cmd apply s).2 ≤ cmd.payload.length) ∧
    (∀ ids, ids.length < 2 ^ 64 → cmd.payload = batchPayload ids →
      applyBatchAdd cmd apply.recorded (s, [])
        = (((addUntilError apply cmd.group ids s).state,
              (addUntilError apply cmd.group ids s).added.map (.add cmd.group)),
            (addUntilError apply cmd.group ids s).err.map .adder) ∧
      ((addUntilError apply cmd.group ids s).err = none →
        (addUntilError apply cmd.group ids s).added = ids)) := by
  refine ⟨fun hk => ?_, fun hk => ?_, ?_, ?_, fun ids hlen hpayload => ?_⟩
  · rw [applyBatchAdd_of_none (batchIds_of_le hk)]
  · obtain ⟨v, buf, hpayload, hv⟩ := exists_encodes hk
    generalize (uvarint cmd.payload).1 = n at hv
    have hids : batchIds cmd.payload = some (n.toNat, (readMany n.toNat buf).1) := by
      rw [hpayload, batchIds_encodes hv]
    have hle := length_le_of_batchIds hids
    refine ⟨v, buf, (readMany n.toNat buf).1, (readMany n.toNat buf).2, hpayload, hv,
      reads_readMany n.toNat buf, hle, fun ids' rest' hreads => hreads.isPrefix, ?_⟩
    rw [applyBatchAdd_of_some hids, addUntilError_recorded, List.nil_append]
    refine ⟨rfl, batchError_eq_none_iff _ _ _, ?_⟩
    rw [exists_batchError_eq_badPayload_iff, hle.lt_iff_ne]
  · cases hids : batchIds cmd.payload with
    | none => rw [applyBatchAdd_of_none hids, applyBatchAdd_of_none hids]
    | some decoded =>
      rw [applyBatchAdd_of_some hids, applyBatchAdd_of_some hids, addUntilError_recorded]
  · exact ⟨applyBatchAddCounted_fst cmd apply s, applyBatchAddCounted_snd_le cmd apply s⟩
  · have hids : batchIds cmd.payload = some (ids.length, ids) := by
      rw [hpayload, batchIds_batchPayload hlen]
    rw [applyBatchAdd_of_some hids, addUntilError_recorded, List.nil_append]
    refine ⟨Prod.ext rfl ?_, added_of_err_eq_none apply cmd.group⟩
    show batchError ids.length ids _ = _
    cases (addUntilError apply cmd.group ids s).err with
    | none => exact (batchError_eq_none_iff _ _ _).mpr ⟨rfl, rfl⟩
    | some err => rfl

/-! ## `MERGE_SKETCH` -/

/-- `buf[i:]`; `none` stands for the panic of a bound out of range. -/
def sliceFrom (buf : Bytes) (i : ℕ) : Option Bytes :=
  if i ≤ buf.length then some (buf.drop i) else none

/-- `buf[:i]`. -/
def sliceTo (buf : Bytes) (i : ℕ) : Option Bytes :=
  if i ≤ buf.length then some (buf.take i) else none

/-- `applyMergeSketch` with the bounds of its slice expressions checked. -/
def applyMergeSketchChecked (cmd : Command) (apply : Adder S ε) (s : S) :
    Option (S × Option (HandlerError ε)) := do
  let (algoLen, n) := uvarint cmd.payload
  if n ≤ 0 then some (s, some (.badPayload (str "missing algo_len varint")))
  else
    let buf ← sliceFrom cmd.payload n.toNat
    if buf.length < algoLen.toNat then
      some (s, some (.badPayload (str "algo_len " ++ decimal algoLen.toNat
        ++ str " exceeds payload " ++ decimal buf.length)))
    else
      let algoName ← sliceTo buf algoLen.toNat
      let sketch ← sliceFrom buf algoLen.toNat
      match apply.mergeBytes s cmd.group algoName sketch with
      | (s', err) => some (s', err.map .adder)

/-- No slice bound is ever out of range. -/
theorem applyMergeSketchChecked_eq (cmd : Command) (apply : Adder S ε) (s : S) :
    applyMergeSketchChecked cmd apply s = some (applyMergeSketch cmd apply s) := by
  unfold applyMergeSketchChecked applyMergeSketch
  by_cases hn : (uvarint cmd.payload).2 ≤ 0
  · simp only [hn, if_true]
  · have hle := uvarint_snd_le_length (not_le.mp hn)
    simp only [hn, if_false, sliceFrom, sliceTo, hle, if_true, Option.bind_eq_bind,
      Option.bind_some]
    split
    · rfl
    · -- the length was compared before the two slices
      have hlen : (uvarint cmd.payload).1.toNat
          ≤ (cmd.payload.drop (uvarint cmd.payload).2.toNat).length := by omega
      simp only [hlen, if_true, Option.bind_some]

/-- A payload that has the three parts is handed to the adder. -/
theorem applyMergeSketch_encodes {cmd : Command} {v algo rest : Bytes} {x : UInt64}
    (hv : Encodes v x) (hx : x.toNat = algo.length) (hpayload : cmd.payload = v ++ (algo ++ rest))
    (apply : Adder S ε) (s : S) :
    applyMergeSketch cmd apply s
      = ((apply.mergeBytes s cmd.group algo rest).1,
          (apply.mergeBytes s cmd.group algo rest).2.map .adder) := by
  have hlen : ¬ (algo ++ rest).length < algo.length := by
    rw [List.length_append]
    omega
  unfold applyMergeSketch
  simp only [hpayload, hv.uvarint_append, if_neg (not_le.mpr hv.length_pos), Int.toNat_natCast,
    List.drop_left, hx, if_neg hlen, List.take_left]

/-- A payload is refused before the adder is called, or it has the three parts. -/
theorem applyMergeSketch_cases (ε : Type) (cmd : Command) :
    (∃ detail, ∀ {S : Type} (apply : Adder S ε) (s : S),
      applyMergeSketch cmd apply s = (s, some (.badPayload detail))) ∨
    ∃ v x algo rest, Encodes v x ∧ x.toNat = algo.length ∧
      cmd.payload = v ++ (algo ++ rest) := by
  by_cases hn : (uvarint cmd.payload).2 ≤ 0
  · refine Or.inl ⟨str "missing algo_len varint", fun apply s => ?_⟩
    unfold applyMergeSketch
    simp only [hn, if_true]
  obtain ⟨v, buf, hpayload, hv⟩ := exists_encodes (not_le.mp hn)
  generalize (uvarint cmd.payload).1 = x at hv
  by_cases hlen : buf.length < x.toNat
  · refine Or.inl ⟨str "algo_len " ++ decimal x.toNat ++ str " exceeds payload "
      ++ decimal buf.length, fun apply s => ?_⟩
    unfold applyMergeSketch
    simp only [hpayload, hv.uvarint_append, if_neg (not_le.mpr hv.length_pos), Int.toNat_natCast,
      List.drop_left, if_pos hlen]
  · refine Or.inr ⟨v, x, buf.take x.toNat, buf.drop x.toNat, hv, ?_, ?_⟩
    · rw [List.length_take]
      omega
    · rw [List.take_append_drop, hpayload]

/-- The envelope `[uvarint len][algo][sketch]`. -/
def mergePayload (algo sketch : Bytes) : Bytes :=
  appendUvarint [] (UInt64.ofNat algo.length) ++ (algo ++ sketch)

theorem mergePayload_append (algo sketch t : Bytes) :
    mergePayload algo sketch ++ t = mergePayload algo (sketch ++ t) := by
  unfold mergePayload
  rw [List.append_assoc, List.append_assoc]

/-- A `MERGE_SKETCH` command goes to its handler. -/
theorem dispatch_mergeSketch (group : GoString) (payload : Bytes) (apply : Adder S ε) (s : S) :
    defaultRegistry.dispatch (some ⟨typeMergeSketch, group, payload⟩) (some apply) s
      = applyMergeSketch ⟨typeMergeSketch, group, payload⟩ apply s := by
  have hhandler : (defaultRegistry : Registry S ε)[typeMergeSketch]? = some applyMergeSketch := by
    rw [getElem?_defaultRegistry]
    rfl
  exact dispatch_of_handler hhandler apply s

/-- The envelope of an HLL sketch joins the sketch into the group, whatever follows it. -/
theorem dispatch_mergePayload_hll (sum64 : Bytes → UInt64) (e : Engine (Hll.algorithm sum64))
    (group : GoString) (sk : Hll.Sketch) (rest : Bytes) :
    defaultRegistry.dispatch
        (some ⟨typeMergeSketch, group, mergePayload Hll.algoName (sk.bytes ++ rest)⟩)
        (some (Engine.adder (Hll.algorithm sum64))) e
      = (⟨joinAt e.groups group sk⟩, none) := by
  have hparse : (Hll.algorithm sum64).parse (sk.bytes ++ rest) = .ok sk :=
    Hll.parse_bytes_append sk rest
  have hmerge : (Engine.adder (Hll.algorithm sum64)).mergeBytes e group Hll.algoName
      (sk.bytes ++ rest) = (⟨joinAt e.groups group sk⟩, none) :=
    Engine.mergeBytes_of_parse (Hll.isJoin sum64) e group hparse
  rw [dispatch_mergeSketch, applyMergeSketch_encodes (encodes_appendUvarint _) rfl rfl, hmerge]
  rfl

/-- **`MERGE_SKETCH` decoding.** For every payload and every adder, with the calls recorded:

* no slice bound is out of range, whatever the length in the payload says;
* the handler returns its own error and makes no call, or it makes the one call
  `MergeBytes(group, algo, rest)` for a payload `v ++ algo ++ rest` in which `v` is a varint of
  the length of `algo`; recording does not change the outcome;
* an envelope is handed over as the name and the bytes it was made from;
* on an HLL engine, the envelope of the sketch of `ys` makes a group that holds the sketch
  of `xs`, or is absent, hold the sketch of `xs ++ ys`, and leaves the other groups alone. -/
theorem applyMergeSketch_decodes (cmd : Command) (apply : Adder S ε) (s : S) :
    applyMergeSketchChecked cmd apply s = some (applyMergeSketch cmd apply s) ∧
    ((∃ detail, applyMergeSketch cmd apply.recorded (s, [])
        = ((s, []), some (.badPayload detail))) ∨
      ∃ v x algo rest, Encodes v x ∧ x.toNat = algo.length ∧
        cmd.payload = v ++ (algo ++ rest) ∧
        applyMergeSketch cmd apply.recorded (s, [])
          = (((apply.mergeBytes s cmd.group algo rest).1, [.mergeBytes cmd.group algo rest]),
              (apply.mergeBytes s cmd.group algo rest).2.map .adder)) ∧
    applyMergeSketch cmd apply s
      = ((applyMergeSketch cmd apply.recorded (s, [])).1.1,
          (applyMergeSketch cmd apply.recorded (s, [])).2) ∧
    (∀ algo sketch, algo.length < 2 ^ 64 → cmd.payload = mergePayload algo sketch →
      applyMergeSketch cmd apply.recorded (s, [])
        = (((apply.mergeBytes s cmd.group algo sketch).1, [.mergeBytes cmd.group algo sketch]),
            (apply.mergeBytes s cmd.group algo sketch).2.map .adder)) ∧
    (∀ (sum64 : Bytes → UInt64) (e : Engine (Hll.algorithm sum64)) (group : GoString)
        (xs ys : List UInt64),
      e.groups[group]? = some ((Hll.algorithm sum64).sketchOf xs) ∨
        e.groups[group]? = none ∧ xs = [] →
      ∃ e', defaultRegistry.dispatch (some ⟨typeMergeSketch, group,
            mergePayload Hll.algoName ((Hll.algorithm sum64).sketchOf ys).bytes⟩)
          (some (Engine.adder (Hll.algorithm sum64))) e = (e', none) ∧
        e'.groups[group]? = some ((Hll.algorithm sum64).sketchOf (xs ++ ys)) ∧
        ∀ g, g ≠ group → e'.groups[g]? = e.groups[g]?) := by
  refine ⟨applyMergeSketchChecked_eq cmd apply s, ?_, ?_, fun algo sketch hlen hpayload => ?_,
    fun sum64 e group xs ys hxs => ?_⟩
  · rcases applyMergeSketch_cases ε cmd with
      ⟨detail, hrefused⟩ | ⟨v, x, algo, rest, hv, hx, hpayload⟩
    · exact Or.inl ⟨detail, hrefused apply.recorded (s, [])⟩
    · exact Or.inr ⟨v, x, algo, rest, hv, hx, hpayload,
        applyMergeSketch_encodes hv hx hpayload apply.recorded (s, [])⟩
  · rcases applyMergeSketch_cases ε cmd with
      ⟨detail, hrefused⟩ | ⟨v, x, algo, rest, hv, hx, hpayload⟩
    · rw [hrefused, hrefused]
    · rw [applyMergeSketch_encodes hv hx hpayload, applyMergeSketch_encodes hv hx hpayload]
      rfl
  · exact applyMergeSketch_encodes (encodes_appendUvarint _) (UInt64.toNat_ofNat_of_lt' hlen)
      hpayload apply.recorded (s, [])
  · -- an absent group counts as the sketch of no ids
    have hvalue : value e.groups group = (Hll.algorithm sum64).sketchOf xs := by
      rcases hxs with hsome | ⟨hnone, rfl⟩
      · exact value_of_getElem? hsome
      · exact value_of_none hnone
    have hdispatch := dispatch_mergePayload_hll sum64 e group ((Hll.algorithm sum64).sketchOf ys) []
    rw [List.append_nil] at hdispatch
    refine ⟨_, hdispatch, ?_, fun g hg => ?_⟩
    · show (joinAt e.groups group _)[group]? = _
      rw [getElem?_joinAt_self, hvalue, (Hll.isJoin sum64).sketchOf_append]
    · exact getElem?_joinAt_of_ne _ (Ne.symm hg) _

/-! ## Bytes behind an accepted payload -/

/-- `ADD` checks that its number takes up the whole payload. -/
theorem addEffect_append {σ : Type} (alg : Algorithm σ) {p t : Bytes}
    (h : (addEffect alg p).accepted = true) (ht : t ≠ []) :
    (addEffect alg (p ++ t)).accepted = false := by
  unfold addEffect at h ⊢
  by_cases hbad : (uvarint p).2 ≤ 0 ∨ (uvarint p).2 ≠ p.length
  · simp only [hbad, if_true] at h
    cases h
  · rw [not_or, not_le, not_not] at hbad
    have hp : Encodes p (uvarint p).1 := by
      refine ⟨fun hnil => ?_, Prod.ext rfl hbad.2⟩
      rw [hnil] at hbad
      exact absurd hbad.1 (by decide)
    -- the number is read as before and is now followed by something
    have hlong : (p.length : ℤ) ≠ (p ++ t).length := by
      have hpos := List.length_pos_iff.mpr ht
      rw [List.length_append]
      omega
    simp only [hp.uvarint_append, hlong, ne_eq, not_false_eq_true, or_true, if_true]

/-- `BATCH_ADD` does not look behind its last id. -/
theorem batchEffect_append {σ : Type} (alg : Algorithm σ) {p : Bytes}
    (h : (batchEffect alg p).accepted = true) (t : Bytes) :
    batchEffect alg (p ++ t) = batchEffect alg p := by
  have hids : batchIds (p ++ t) = batchIds p := by
    by_cases hk : (uvarint p).2 ≤ 0
    · unfold batchEffect at h
      rw [batchIds_of_le hk] at h
      cases h
    · obtain ⟨v, buf, hp, hv⟩ := exists_encodes (not_le.mp hk)
      generalize (uvarint p).1 = n at hv
      have hlen : (readMany n.toNat buf).1.length = n.toNat := by
        unfold batchEffect at h
        rw [hp, batchIds_encodes hv] at h
        exact of_decide_eq_true h
      -- all ids have been read, and they are read again
      have hread := readMany_of_reads ((reads_readMany n.toNat buf).append t)
      rw [hlen] at hread
      rw [hp, List.append_assoc, batchIds_encodes hv, batchIds_encodes hv, hread]
  unfold batchEffect
  rw [hids]

/-- A `MERGE_SKETCH` payload with a name of the right length and a sketch that parses. -/
theorem mergeEffect_of_parse {σ : Type} {alg : Algorithm σ} {v buf : Bytes} {x : UInt64} {sk : σ}
    (hv : Encodes v x) (hlen : x.toNat ≤ buf.length) (hname : buf.take x.toNat = alg.name)
    (hparse : alg.parse (buf.drop x.toNat) = .ok sk) :
    mergeEffect alg (v ++ buf) = ⟨some sk, true⟩ := by
  unfold mergeEffect
  simp only [hv.uvarint_append, not_le.mpr hv.length_pos, Int.toNat_natCast, List.drop_left,
    not_lt.mpr hlen, hname, ne_eq, not_true_eq_false, or_self, if_false, hparse]

/-- An accepted one is such a payload. -/
theorem exists_of_mergeEffect_accepted {σ : Type} {alg : Algorithm σ} {p : Bytes}
    (h : (mergeEffect alg p).accepted = true) :
    ∃ v buf x sk, p = v ++ buf ∧ Encodes v x ∧ x.toNat ≤ buf.length ∧
      buf.take x.toNat = alg.name ∧ alg.parse (buf.drop x.toNat) = .ok sk := by
  by_cases hn : (uvarint p).2 ≤ 0
  · unfold mergeEffect at h
    simp only [hn, true_or, if_true] at h
    cases h
  · obtain ⟨v, buf, hp, hv⟩ := exists_encodes (not_le.mp hn)
    generalize (uvarint p).1 = x at hv
    unfold mergeEffect at h
    simp only [hp, hv.uvarint_append, not_le.mpr hv.length_pos, false_or, Int.toNat_natCast,
      List.drop_left] at h
    by_cases hbad : buf.length < x.toNat ∨ buf.take x.toNat ≠ alg.name
    · rw [if_pos hbad] at h
      cases h
    · rw [not_or, not_lt, not_not] at hbad
      cases hparse : alg.parse (buf.drop x.toNat) with
      | error err => simp [hparse] at h
      | ok sk => exact ⟨v, buf, x, sk, hp, hv, hbad.1, hbad.2, hparse⟩

/-- `MERGE_SKETCH` leaves the end of its payload to `Parse`, which does not look at it. -/
theorem mergeEffect_append (sum64 : Bytes → UInt64) {p : Bytes}
    (h : (mergeEffect (Hll.algorithm sum64) p).accepted = true) (t : Bytes) :
    mergeEffect (Hll.algorithm sum64) (p ++ t) = mergeEffect (Hll.algorithm sum64) p := by
  obtain ⟨v, buf, x, sk, rfl, hv, hlen, hname, hparse⟩ := exists_of_mergeEffect_accepted h
  have hlen' : x.toNat ≤ (buf ++ t).length := by
    rw [List.length_append]
    omega
  have hname' : (buf ++ t).take x.toNat = (Hll.algorithm sum64).name := by
    rw [List.take_append_of_le_length hlen, hname]
  have hparse' : (Hll.algorithm sum64).parse ((buf ++ t).drop x.toNat) = .ok sk := by
    obtain ⟨rest, hbytes⟩ := (Hll.parse_eq_ok_iff _ sk).mp hparse
    rw [List.drop_append_of_le_length hlen]
    exact (Hll.parse_eq_ok_iff _ sk).mpr ⟨rest ++ t, by rw [hbytes, List.append_assoc]⟩
  rw [List.append_assoc, mergeEffect_of_parse hv hlen' hname' hparse',
    mergeEffect_of_parse hv hlen hname hparse]

/-- **Only `ADD` payloads are self-delimiting.** When a command is accepted on an HLL engine,
the same command with something behind its payload is refused if and only if it is an
`ADD`. -/
theorem dispatch_append_refused_iff (sum64 : Bytes → UInt64) (e : Engine (Hll.algorithm sum64))
    (cmd : Command) (t : Bytes) (ht : t ≠ [])
    (hacc : (defaultRegistry.dispatch (some cmd)
      (some (Engine.adder (Hll.algorithm sum64))) e).2 = none) :
    (defaultRegistry.dispatch (some { cmd with payload := cmd.payload ++ t })
        (some (Engine.adder (Hll.algorithm sum64))) e).2 ≠ none
      ↔ cmd.type = typeAdd := by
  have hacc' := (dispatch_eq_effect (Hll.isJoin sum64) cmd e).2.mp hacc
  rw [Ne, (dispatch_eq_effect (Hll.isJoin sum64) { cmd with payload := cmd.payload ++ t } e).2]
  unfold Command.effect at hacc' ⊢
  by_cases ha : cmd.type = typeAdd
  · simp only [ha, if_true] at hacc' ⊢
    rw [addEffect_append _ hacc' ht]
    decide
  · simp only [ha, if_false, iff_false, not_not] at hacc' ⊢
    by_cases hb : cmd.type = typeBatchAdd
    · rw [if_pos hb] at hacc' ⊢
      rw [batchEffect_append _ hacc']
      exact hacc'
    · rw [if_neg hb] at hacc' ⊢
      by_cases hm : cmd.type = typeMergeSketch
      · rw [if_pos hm] at hacc' ⊢
        rw [mergeEffect_append sum64 hacc']
        exact hacc'
      · rw [if_neg hm] at hacc'
        cases hacc'

/-- One byte behind an `ADD` is refused. -/
theorem dispatch_append_refused_add :
    (defaultRegistry.dispatch (some ⟨typeAdd, str "g", [5] ++ [0]⟩)
      (some (Engine.adder (Hll.algorithm Murmur3.sum64)))
      (Engine.new (Hll.algorithm Murmur3.sum64))).2 ≠ none :=
  (dispatch_append_refused_iff Murmur3.sum64 (Engine.new _) ⟨typeAdd, str "g", [5]⟩ [0]
    (by decide) ((dispatch_eq_effect (Hll.isJoin _) _ _).2.mpr rfl)).mpr rfl

/-- An id behind the last one that is counted is dropped, and a byte behind a sketch too. -/
theorem dispatch_ignores_trailing_bytes :
    ((defaultRegistry.dispatch (some ⟨typeBatchAdd, str "g", [1, 5]⟩)
        (some (Engine.adder (Hll.algorithm Murmur3.sum64)))
        (Engine.new (Hll.algorithm Murmur3.sum64))).2 = none ∧
      (defaultRegistry.dispatch (some ⟨typeBatchAdd, str "g", [1, 5] ++ [6]⟩)
        (some (Engine.adder (Hll.algorithm Murmur3.sum64)))
        (Engine.new (Hll.algorithm Murmur3.sum64))).2 = none) ∧
    ((defaultRegistry.dispatch (some ⟨typeMergeSketch, str "g",
          mergePayload Hll.algoName Hll.Sketch.new.bytes⟩)
        (some (Engine.adder (Hll.algorithm Murmur3.sum64)))
        (Engine.new (Hll.algorithm Murmur3.sum64))).2 = none ∧
      (defaultRegistry.dispatch (some ⟨typeMergeSketch, str "g",
          mergePayload Hll.algoName Hll.Sketch.new.bytes ++ [0]⟩)
        (some (Engine.adder (Hll.algorithm Murmur3.sum64)))
        (Engine.new (Hll.algorithm Murmur3.sum64))).2 = none) := by
  have hbatch := fun payload => (dispatch_eq_effect (Hll.isJoin Murmur3.sum64)
    ⟨typeBatchAdd, str "g", payload⟩ (Engine.new _)).2
  have hmerge := dispatch_mergePayload_hll Murmur3.sum64 (Engine.new _) (str "g") Hll.Sketch.new
  refine ⟨⟨(hbatch _).mpr rfl, (hbatch _).mpr rfl⟩, ?_, ?_⟩
  · have hexact := hmerge []
    rw [List.append_nil] at hexact
    rw [hexact]
  · rw [mergePayload_append, hmerge]

end CardinalityTracker
