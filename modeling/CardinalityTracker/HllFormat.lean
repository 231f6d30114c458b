import CardinalityTracker.HllTheorems

/-!
# The wire format of HLL sketches

What `Algorithm.Parse` accepts, compared with what `sketch.Bytes` writes for the sketches
that the program can build. `Parse` accepts a string exactly when some sketch's bytes are at
its front (`parse_eq_ok_iff`): it looks at nothing behind the registers, and it takes every
byte for a register although no hash has a rank above 51 (`exists_built_iff`).
-/

namespace CardinalityTracker
namespace Hll

/-! ## The sketches that can be built -/

/-- The sketches that `New`, `Add` and `Merge` build with a hash function. -/
inductive Built (sum64 : Bytes → UInt64) : Sketch → Prop
  | new : Built sum64 Sketch.new
  | add {s : Sketch} (id : UInt64) : Built sum64 s → Built sum64 (s.add sum64 id)
  | merge {s t : Sketch} : Built sum64 s → Built sum64 t → Built sum64 (s.merge t)

theorem Built.sketchOf (sum64 : Bytes → UInt64) (ids : List UInt64) :
    Built sum64 ((algorithm sum64).sketchOf ids) := by
  induction ids using List.reverseRecOn with
  | nil => exact Built.new
  | append_singleton ids id ih =>
    rw [Algorithm.sketchOf_concat]
    exact ih.add id

/-- No register gets above the largest rank. -/
theorem Built.toRegs_le {sum64 : Bytes → UInt64} {s : Sketch} (h : Built sum64 s)
    (j : Fin numRegs) : s.toRegs j ≤ 51 := by
  induction h with
  | new =>
    have hzero : Sketch.new.toRegs j = 0 := Sketch.toRegs_bot j
    omega
  | @add s id _ ih =>
    have hrank := rank_le (sum64 (putUint64 id))
    rw [Sketch.toRegs_add, toNat_regRho]
    split <;> omega
  | @merge s t _ _ ihs iht =>
    have hmax : (s.merge t).toRegs j = max (s.toRegs j) (t.toRegs j) :=
      congrFun (Sketch.toRegs_merge s t) j
    omega

/-! ## A hash function for given registers -/

/-- The number that eight little-endian bytes stand for. -/
def littleEndian (b : Bytes) : ℕ := Nat.ofDigits 256 (b.map UInt8.toNat)

/-- The low bytes of a number, put together again. -/
theorem ofDigits_bytes (n k : ℕ) :
    Nat.ofDigits 256 ((List.range k).map fun i => n / 2 ^ (8 * i) % 256) = n % 2 ^ (8 * k) := by
  induction k with
  | zero =>
    rw [Nat.mul_zero, Nat.pow_zero, Nat.mod_one, List.range_zero, List.map_nil, Nat.ofDigits_nil]
  | succ k ih =>
    have hpow : 256 ^ k = 2 ^ (8 * k) := by rw [Nat.pow_mul]
    rw [List.range_succ, List.map_append, Nat.ofDigits_append, ih, List.length_map,
      List.length_range, List.map_singleton, Nat.ofDigits_singleton, hpow, Nat.mul_succ,
      Nat.pow_add, Nat.mod_mul]

theorem littleEndian_putUint64 (x : UInt64) : littleEndian (putUint64 x) = x.toNat := by
  have hx := x.toNat_lt
  have hbyte : ∀ i < 8, (x >>> UInt64.ofNat (8 * i)).toUInt8.toNat
      = x.toNat / 2 ^ (8 * i) % 256 := by
    intro i hi
    rw [UInt64.toNat_toUInt8, UInt64.toNat_shiftRight, UInt64.toNat_ofNat',
      Nat.shiftRight_eq_div_pow, Nat.mod_eq_of_lt (b := 2 ^ 64) (by omega),
      Nat.mod_eq_of_lt (b := 64) (by omega)]
  have hdigits : (putUint64 x).map UInt8.toNat
      = (List.range 8).map fun i => x.toNat / 2 ^ (8 * i) % 256 := by
    unfold putUint64
    rw [List.map_map]
    exact List.map_congr_left fun i hi => hbyte i (List.mem_range.mp hi)
  unfold littleEndian
  rw [hdigits, ofDigits_bytes, Nat.mod_eq_of_lt hx]

/-- A hash that goes to register `j` with rank `v`. -/
def hashFor (j v : ℕ) : UInt64 := UInt64.ofNat (j * 2 ^ 50 + 2 ^ 50 / 2 ^ v)

section HashFor

variable {j v : ℕ}

/-- The low bits of such a hash: a single one at the right place, or nothing for rank 51. -/
theorem lowBits_hashFor_lt (hv : 0 < v) : 2 ^ 50 / 2 ^ v < 2 ^ 50 :=
  Nat.div_lt_self (by decide) (Nat.one_lt_two_pow (by omega))

theorem toNat_hashFor (hj : j < numRegs) (hv : 0 < v) :
    (hashFor j v).toNat = j * 2 ^ 50 + 2 ^ 50 / 2 ^ v := by
  have hlow := lowBits_hashFor_lt hv
  rw [numRegs_eq] at hj
  unfold hashFor
  rw [UInt64.toNat_ofNat', Nat.mod_eq_of_lt]
  omega

theorem topBits_hashFor (hj : j < numRegs) (hv : 0 < v) : (topBits (hashFor j v)).toNat = j := by
  have hlow := lowBits_hashFor_lt hv
  rw [toNat_topBits, toNat_hashFor hj hv]
  generalize 2 ^ 50 / 2 ^ v = low at *
  omega

theorem rank_hashFor (hj : j < numRegs) (hv : 0 < v) (hv' : v ≤ 51) : rank (hashFor j v) = v := by
  have hlow := lowBits_hashFor_lt hv
  have hmod : (j * 2 ^ 50 + 2 ^ 50 / 2 ^ v) % 2 ^ 50 = 2 ^ 50 / 2 ^ v := by
    generalize 2 ^ 50 / 2 ^ v = low at *
    omega
  rw [rank_eq, toNat_hashFor hj hv, hmod]
  by_cases hmax : v = 51
  · subst hmax
    decide
  · rw [Nat.pow_div (by omega) (by decide), Nat.size_pow]
    omega

end HashFor

/-- A register of the reference is at most `m` when every rank that goes to it is. -/
theorem referenceReg_le_iff (sum64 : Bytes → UInt64) (ids : List UInt64) (j m : ℕ) :
    referenceReg sum64 ids j ≤ m ↔
      ∀ id ∈ ids, (topBits (sum64 (putUint64 id))).toNat = j →
        rank (sum64 (putUint64 id)) ≤ m := by
  induction ids using List.reverseRecOn with
  | nil => simp [referenceReg]
  | append_singleton ids id ih =>
    rw [referenceReg_concat, List.forall_mem_append, List.forall_mem_singleton, ← ih]
    by_cases h : (topBits (sum64 (putUint64 id))).toNat = j
    · rw [if_pos h, max_le_iff, forall_prop_of_true h]
    · rw [if_neg h]
      exact ⟨fun hle => ⟨hle, fun hc => absurd hc h⟩, fun hle => hle.1⟩

/-- The hash function that sends the id `j` to register `j`, with the rank that `s` has there. -/
def hashOf (s : Sketch) (b : Bytes) : UInt64 :=
  hashFor (littleEndian b) (s.regs.toList.getD (littleEndian b) 0).toNat

/-- The ids of the registers that are set. -/
def idsOf (s : Sketch) : List UInt64 :=
  ((List.finRange numRegs).filter fun i => s.toRegs i ≠ 0).map fun i => UInt64.ofNat i.val

theorem hashOf_id (s : Sketch) (i : Fin numRegs) :
    hashOf s (putUint64 (UInt64.ofNat i.val)) = hashFor i.val (s.toRegs i) := by
  have hi : i.val < 16384 := i.isLt
  have hnat : (UInt64.ofNat i.val).toNat = i.val := by
    rw [UInt64.toNat_ofNat', Nat.mod_eq_of_lt]
    omega
  have hlen : i.val < s.regs.toList.length := by
    rw [Vector.length_toList]
    exact i.isLt
  unfold hashOf Sketch.toRegs
  rw [littleEndian_putUint64, hnat, List.getD_eq_getElem _ _ hlen, Vector.getElem_toList]
  rfl

/-- Registers up to 51 are the registers of a sketch that adds build, with any hash function
that sends the ids of the set registers where they belong. -/
theorem sketchOf_idsOf {sum64 : Bytes → UInt64} {s : Sketch} (hs : ∀ j, s.toRegs j ≤ 51)
    (hsum : ∀ i, s.toRegs i ≠ 0 →
      sum64 (putUint64 (UInt64.ofNat i.val)) = hashFor i.val (s.toRegs i)) :
    (algorithm sum64).sketchOf (idsOf s) = s := by
  apply Sketch.toRegs_injective
  funext j
  rw [toRegs_sketchOf]
  apply eq_of_forall_ge_iff
  intro m
  rw [referenceReg_le_iff]
  unfold idsOf
  simp only [List.mem_map, List.mem_filter, List.mem_finRange, true_and, decide_eq_true_eq,
    forall_exists_index, and_imp, forall_apply_eq_imp_iff₂]
  constructor
  · intro h
    by_cases hj : s.toRegs j = 0
    · omega
    · -- the id of the register itself
      have hpos := Nat.pos_of_ne_zero hj
      have hrank := h j hj
      rw [hsum j hj] at hrank
      have hle := hrank (topBits_hashFor j.isLt hpos)
      rwa [rank_hashFor j.isLt hpos (hs j)] at hle
  · intro h i hi htop
    have hpos := Nat.pos_of_ne_zero hi
    rw [hsum i hi, topBits_hashFor i.isLt hpos] at htop
    rw [hsum i hi, rank_hashFor i.isLt hpos (hs i), Fin.ext htop]
    exact h

/-- **The sketches that can be built**, with some hash function, are those whose registers
are at most 51. -/
theorem exists_built_iff (s : Sketch) :
    (∃ sum64, Built sum64 s) ↔ ∀ j : Fin numRegs, s.toRegs j ≤ 51 := by
  constructor
  · intro ⟨sum64, hbuilt⟩ j
    exact hbuilt.toRegs_le j
  · intro hs
    have hbuilt := Built.sketchOf (hashOf s) (idsOf s)
    rw [sketchOf_idsOf hs fun i _ => hashOf_id s i] at hbuilt
    exact ⟨hashOf s, hbuilt⟩

/-! ## What `Parse` accepts -/

/-- The two bytes of a little-endian number. -/
theorem toNat_uint16 (b : Bytes) :
    (uint16 b).toNat = (b.getD 0 0).toNat + 256 * (b.getD 1 0).toNat := by
  have h0 := (b.getD 0 0).toNat_lt
  have h1 := (b.getD 1 0).toNat_lt
  have hshift : ((b.getD 1 0).toUInt16 <<< 8).toNat = (b.getD 1 0).toNat <<< 8 := by
    rw [UInt16.toNat_shiftLeft, UInt8.toNat_toUInt16, Nat.mod_eq_of_lt]
    · rfl
    · show (b.getD 1 0).toNat <<< 8 < 2 ^ 16
      rw [Nat.shiftLeft_eq]
      omega
  unfold uint16
  rw [UInt16.toNat_or, hshift, UInt8.toNat_toUInt16, Nat.or_comm,
    ← Nat.shiftLeft_add_eq_or_of_lt (b := (b.getD 0 0).toNat) (i := 8) (by omega),
    Nat.shiftLeft_eq]
  omega

/-- A string that passes both checks starts with the bytes of a sketch. -/
theorem exists_eq_bytes_append {b : Bytes} (hlen : 2 + numRegs ≤ b.length)
    (hhead : uint16 b = UInt16.ofNat precision) :
    ∃ (s : Sketch) (rest : Bytes), b = s.bytes ++ rest := by
  have hnat : (b.getD 0 0).toNat + 256 * (b.getD 1 0).toNat = 14 := by
    rw [← toNat_uint16, hhead]
    rfl
  match b, hlen, hnat with
  | x :: y :: rest, hlen, hnat =>
    have hbytes : x.toNat + 256 * y.toNat = 14 := hnat
    have hx : x = 14 := UInt8.toNat_inj.mp (show x.toNat = 14 by omega)
    have hy : y = 0 := UInt8.toNat_inj.mp (show y.toNat = 0 by omega)
    have hregs : (rest.take numRegs).toArray.size = numRegs := by
      rw [List.size_toArray, List.length_take]
      simp only [List.length_cons] at hlen
      omega
    refine ⟨⟨⟨(rest.take numRegs).toArray, hregs⟩⟩, rest.drop numRegs, ?_⟩
    rw [bytes_eq, hx, hy]
    show _ = 14 :: 0 :: (rest.take numRegs ++ rest.drop numRegs)
    rw [List.take_append_drop]
  | [_], hlen, _ => simp [numRegs_eq] at hlen
  | [], hlen, _ => simp [numRegs_eq] at hlen

/-- The two checks of `Parse`. -/
theorem exists_parse_iff (b : Bytes) :
    (∃ s, parse b = .ok s) ↔
      2 + numRegs ≤ b.length ∧ uint16 b = UInt16.ofNat precision := by
  constructor
  · intro ⟨s, hs⟩
    unfold parse at hs
    split at hs
    case isTrue => cases hs
    case isFalse hlen =>
      split at hs
      case isTrue => cases hs
      case isFalse hhead => exact ⟨not_lt.mp hlen, not_not.mp hhead⟩
  · intro ⟨hlen, hhead⟩
    obtain ⟨s, rest, rfl⟩ := exists_eq_bytes_append hlen hhead
    exact ⟨s, parse_bytes_append s rest⟩

/-- **What `Parse` accepts**: the bytes of a sketch, with anything behind them. -/
theorem parse_eq_ok_iff (b : Bytes) (s : Sketch) :
    parse b = .ok s ↔ ∃ rest, b = s.bytes ++ rest := by
  constructor
  · intro hs
    obtain ⟨hlen, hhead⟩ := (exists_parse_iff b).mp ⟨s, hs⟩
    obtain ⟨t, rest, rfl⟩ := exists_eq_bytes_append hlen hhead
    rw [parse_bytes_append, Except.ok.injEq] at hs
    exact ⟨rest, by rw [hs]⟩
  · intro ⟨rest, hb⟩
    rw [hb, parse_bytes_append]

/-- The bytes of a sketch are registers up to 51 exactly when its registers are. -/
theorem forall_drop_bytes_le_iff (s : Sketch) (m : ℕ) :
    (∀ v ∈ s.bytes.drop 2, v.toNat ≤ m) ↔ ∀ j : Fin numRegs, s.toRegs j ≤ m := by
  rw [bytes_eq, List.drop_succ_cons, List.drop_succ_cons, List.drop_zero]
  constructor
  · intro h j
    exact h _ (Vector.mem_toList_iff.mpr (Vector.getElem_mem j.isLt))
  · intro h v hv
    obtain ⟨j, hj, rfl⟩ := Vector.getElem_of_mem (Vector.mem_toList_iff.mp hv)
    exact h ⟨j, hj⟩

/-- The strings on which `Parse` tells the format: it refuses them, or they have the length
of the format and no register above 51. -/
def WithinFormat (b : Bytes) : Prop :=
  b.length < 2 + numRegs ∨ uint16 b ≠ UInt16.ofNat precision ∨
    b.length = 2 + numRegs ∧ ∀ v ∈ b.drop 2, v.toNat ≤ 51

/-- **`Parse` accepts more than the format.** On a string `b`, "it is accepted exactly when it
is what `Bytes` writes for a sketch that can be built, and it is then read without loss"
holds if and only if `b` is within the format. What `Bytes` writes is always read back. -/
theorem parse_exact_iff_withinFormat (b : Bytes) :
    ((((∃ s, parse b = .ok s) ↔ ∃ s, (∃ sum64, Built sum64 s) ∧ s.bytes = b) ∧
      ∀ s, parse b = .ok s → s.bytes = b) ↔ WithinFormat b) ∧
    ∀ s, (∃ sum64, Built sum64 s) → parse s.bytes = .ok s := by
  refine ⟨?_, fun s _ => parse_bytes s⟩
  unfold WithinFormat
  constructor
  · intro ⟨haccept, hlossless⟩
    by_cases hok : ∃ s, parse b = .ok s
    · right; right
      obtain ⟨s, hbuilt, rfl⟩ := haccept.mp hok
      rw [forall_drop_bytes_le_iff]
      exact ⟨length_bytes s, (exists_built_iff s).mp hbuilt⟩
    · rw [exists_parse_iff, not_and_or, not_le] at hok
      exact hok.imp id Or.inl
  · intro hformat
    by_cases hok : ∃ s, parse b = .ok s
    · obtain ⟨s, hs⟩ := hok
      obtain ⟨rest, hb⟩ := (parse_eq_ok_iff b s).mp hs
      obtain ⟨hlen, hhead⟩ := (exists_parse_iff b).mp ⟨s, hs⟩
      rcases hformat with hshort | hheader | ⟨hexact, hregs⟩
      · omega
      · exact absurd hhead hheader
      · -- the length leaves nothing behind the registers
        have hrest : rest = [] := by
          rw [hb, List.length_append, length_bytes] at hexact
          exact List.length_eq_zero_iff.mp (by omega)
        rw [hrest, List.append_nil] at hb
        subst hb
        have hbuilt := (exists_built_iff s).mpr ((forall_drop_bytes_le_iff s 51).mp hregs)
        refine ⟨iff_of_true ⟨s, hs⟩ ⟨s, hbuilt, rfl⟩, fun t ht => ?_⟩
        rw [parse_bytes, Except.ok.injEq] at ht
        rw [ht]
    · refine ⟨iff_of_false hok ?_, fun s hs => absurd ⟨s, hs⟩ hok⟩
      intro ⟨s, _, hs⟩
      exact hok ⟨s, hs ▸ parse_bytes s⟩

/-- One byte too many is ignored, and a register that no hash can reach is taken over. -/
theorem parse_accepts_outside_format :
    (parse (Sketch.new.bytes ++ [0]) = .ok Sketch.new ∧
      ∀ s : Sketch, s.bytes ≠ Sketch.new.bytes ++ [0]) ∧
    parse (Sketch.mk (Vector.replicate numRegs 255)).bytes
        = .ok ⟨Vector.replicate numRegs 255⟩ ∧
      ∀ (s : Sketch) (sum64 : Bytes → UInt64), Built sum64 s →
        s.bytes ≠ (Sketch.mk (Vector.replicate numRegs 255)).bytes := by
  refine ⟨⟨parse_bytes_append _ _, fun s hs => ?_⟩, parse_bytes _, fun s sum64 hbuilt hs => ?_⟩
  · have hlen := congrArg List.length hs
    rw [List.length_append, length_bytes, length_bytes, List.length_singleton] at hlen
    omega
  · have hsketch : s = ⟨Vector.replicate numRegs 255⟩ := (isJoin sum64).bytes_injective hs
    have hle := hbuilt.toRegs_le ⟨0, by decide⟩
    rw [hsketch, Sketch.toRegs, Fin.getElem_fin, Vector.getElem_replicate] at hle
    exact absurd hle (by decide)

end Hll
end CardinalityTracker
