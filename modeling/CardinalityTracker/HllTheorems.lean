import CardinalityTracker.Hll

/-!
# HLL sketches are a join-semilattice

The order on sketches is the register-wise one, `merge` is its join and the empty sketch
its bottom. `isJoin` collects what the engine needs from the algorithm: an add is the join
with the one-id sketch, whatever the hash, and `Bytes` followed by `Parse` is the identity.

The second half is the textbook description of a sketch, independent of the shifts, the sentinel
bits and the byte arithmetic of `sketch.Add`: a 64-bit hash is a register number in its top 14
bits and a 50-bit number below it, the rank of a hash is one more than the number of leading
zeros of that number, and a register holds the largest rank among the ids that go to it. The
code counts the leading zeros of the low bits *moved to the top*, over a sentinel of fourteen
ones. `toNat_regRho` shows that this is the rank, also when the low bits are all zero and the
sentinel is what stops the count.
-/

namespace CardinalityTracker
namespace Hll

/-! ## The register-wise order -/

theorem Sketch.ext_regs {s t : Sketch} (h : ∀ i : Fin numRegs, s.regs[i] = t.regs[i]) : s = t := by
  obtain ⟨a⟩ := s
  obtain ⟨b⟩ := t
  congr 1
  apply Vector.ext
  intro i hi
  exact h ⟨i, hi⟩

instance : LE Sketch := ⟨fun s t => ∀ i : Fin numRegs, s.regs[i] ≤ t.regs[i]⟩

instance : LT Sketch := ⟨fun s t => s ≤ t ∧ ¬ t ≤ s⟩

instance : Max Sketch := ⟨Sketch.merge⟩

instance : Bot Sketch := ⟨Sketch.new⟩

theorem Sketch.le_iff {s t : Sketch} : s ≤ t ↔ ∀ i : Fin numRegs, s.regs[i] ≤ t.regs[i] :=
  Iff.rfl

/-- A sketch as a vector of numbers. -/
def Sketch.toRegs (s : Sketch) (i : Fin numRegs) : ℕ := s.regs[i].toNat

theorem Sketch.toRegs_injective : Function.Injective Sketch.toRegs := by
  intro s t h
  apply Sketch.ext_regs
  intro i
  exact UInt8.toNat_inj.mp (congrFun h i)

theorem Sketch.toRegs_le {s t : Sketch} : s.toRegs ≤ t.toRegs ↔ s ≤ t := by
  rw [Pi.le_def, Sketch.le_iff]
  exact forall_congr' fun i => UInt8.le_iff_toNat_le.symm

theorem Sketch.toRegs_merge (s t : Sketch) : (s ⊔ t).toRegs = s.toRegs ⊔ t.toRegs := by
  funext i
  have hget : (s ⊔ t).regs[i] = if t.regs[i] > s.regs[i] then t.regs[i] else s.regs[i] := by
    show (Vector.zipWith _ s.regs t.regs)[i.val] = _
    rw [Vector.getElem_zipWith]
    rfl
  rw [Pi.sup_apply, Sketch.toRegs, Sketch.toRegs, Sketch.toRegs, hget]
  split
  case isTrue h =>
    rw [sup_eq_right.mpr (le_of_lt (UInt8.lt_iff_toNat_lt.mp h))]
  case isFalse h =>
    rw [sup_eq_left.mpr (UInt8.le_iff_toNat_le.mp (UInt8.not_lt.mp h))]

instance : SemilatticeSup Sketch :=
  Function.Injective.semilatticeSup Sketch.toRegs Sketch.toRegs_injective Sketch.toRegs_le
    (by
      intro s t
      rw [lt_iff_le_not_ge, Sketch.toRegs_le, Sketch.toRegs_le]
      exact Iff.rfl)
    Sketch.toRegs_merge

@[simp] theorem Sketch.regs_new (i : Fin numRegs) : Sketch.new.regs[i] = 0 := by
  simp [Sketch.new]

instance : OrderBot Sketch where
  bot_le := by
    intro s i
    show Sketch.new.regs[i] ≤ s.regs[i]
    rw [Sketch.regs_new]
    exact UInt8.le_iff_toNat_le.mpr (Nat.zero_le _)

/-! ## Adding and merging -/

variable (sum64 : Bytes → UInt64)

/-- Register `i` after an add: only the chosen register moves, and only upwards. -/
theorem Sketch.toRegs_add (s : Sketch) (id : UInt64) (i : Fin numRegs) :
    (s.add sum64 id).toRegs i
      = if regIndex (sum64 (putUint64 id)) = i then
          max (s.toRegs i) (regRho (sum64 (putUint64 id))).toNat
        else s.toRegs i := by
  simp only [Sketch.add, Sketch.toRegs]
  by_cases hi : regIndex (sum64 (putUint64 id)) = i
  · subst hi
    rw [if_pos rfl]
    split
    case isTrue h =>
      rw [max_eq_right (le_of_lt (UInt8.lt_iff_toNat_lt.mp h))]
      simp
    case isFalse h =>
      rw [max_eq_left (UInt8.le_iff_toNat_le.mp (UInt8.not_lt.mp h))]
  · -- another register was written, or none
    rw [if_neg hi]
    split
    · have hne : (regIndex (sum64 (putUint64 id))).val ≠ i.val := fun h => hi (Fin.ext h)
      simp [hne]
    · rfl

theorem Sketch.toRegs_bot (i : Fin numRegs) : (⊥ : Sketch).toRegs i = 0 := by
  show Sketch.new.regs[i].toNat = 0
  rw [Sketch.regs_new]
  rfl

/-- An add is the join with the one-id sketch. -/
theorem Sketch.add_eq_sup (s : Sketch) (id : UInt64) :
    s.add sum64 id = s ⊔ Sketch.add sum64 ⊥ id := by
  apply Sketch.toRegs_injective
  funext i
  rw [Sketch.toRegs_merge, Pi.sup_apply, Sketch.toRegs_add, Sketch.toRegs_add, Sketch.toRegs_bot]
  split
  · rw [Nat.zero_max]
  · rw [max_eq_left (Nat.zero_le _)]

/-- An id is counted in a sketch exactly when its one-id sketch is below it. -/
theorem Sketch.contains_iff (s : Sketch) (id : UInt64) :
    s.Contains sum64 id ↔ (algorithm sum64).single id ≤ s := by
  show _ ↔ Sketch.add sum64 ⊥ id ≤ s
  rw [Sketch.Contains, UInt8.le_iff_toNat_le, ← Sketch.toRegs_le, Pi.le_def]
  constructor
  · intro h i
    rw [Sketch.toRegs_add, Sketch.toRegs_bot]
    split
    case isTrue hi =>
      -- the only register that a one-id sketch sets
      subst hi
      rw [Nat.zero_max]
      exact h
    case isFalse => exact Nat.zero_le _
  · intro h
    have hidx := h (regIndex (sum64 (putUint64 id)))
    rw [Sketch.toRegs_add, if_pos rfl, Sketch.toRegs_bot, Nat.zero_max] at hidx
    exact hidx

/-- A rho is never zero, so an absent group counts no id. -/
theorem regRho_pos (hash : UInt64) : 0 < (regRho hash).toNat := by
  unfold regRho leadingZeros64
  rw [UInt8.toNat_add, UInt8.toNat_ofNat', UInt8.toNat_one]
  -- at most 64 leading zeros, so the byte does not overflow
  omega

theorem Sketch.not_contains_bot (id : UInt64) : ¬ (⊥ : Sketch).Contains sum64 id := by
  unfold Sketch.Contains
  rw [UInt8.le_iff_toNat_le]
  have hrho := regRho_pos (sum64 (putUint64 id))
  have hzero := Sketch.toRegs_bot (regIndex (sum64 (putUint64 id)))
  unfold Sketch.toRegs at hzero
  omega

/-- A join counts an id only if one of its sides does: registers are maxima. -/
theorem Sketch.contains_sup (s t : Sketch) (id : UInt64) :
    (s ⊔ t).Contains sum64 id ↔ s.Contains sum64 id ∨ t.Contains sum64 id := by
  unfold Sketch.Contains
  have hmax := congrFun (Sketch.toRegs_merge s t) (regIndex (sum64 (putUint64 id)))
  rw [Pi.sup_apply] at hmax
  unfold Sketch.toRegs at hmax
  rw [UInt8.le_iff_toNat_le, UInt8.le_iff_toNat_le, UInt8.le_iff_toNat_le, hmax]
  exact le_max_iff

/-! ## The wire format -/

/-- The header is the precision in two little-endian bytes; the registers follow. -/
theorem bytes_eq (s : Sketch) : s.bytes = 14 :: 0 :: s.regs.toList := by
  have hhead : putUint16 (UInt16.ofNat precision) = [14, 0] := by decide
  rw [Sketch.bytes, hhead]
  rfl

@[simp] theorem length_bytes (s : Sketch) : s.bytes.length = 2 + numRegs := by
  rw [bytes_eq, List.length_cons, List.length_cons, Vector.length_toList]
  omega

theorem uint16_bytes_append (s : Sketch) (rest : Bytes) :
    uint16 (s.bytes ++ rest) = UInt16.ofNat precision := by
  rw [bytes_eq, uint16, List.cons_append, List.cons_append, List.getD_cons_zero,
    List.getD_cons_succ, List.getD_cons_zero]
  decide

/-- `Parse` reads the registers after the header and looks at nothing behind them. -/
theorem parse_bytes_append (s : Sketch) (rest : Bytes) : parse (s.bytes ++ rest) = .ok s := by
  have hlen : ¬ (s.bytes ++ rest).length < 2 + numRegs := by
    rw [List.length_append, length_bytes]
    omega
  rw [parse, dif_neg hlen, if_neg (not_not_intro (uint16_bytes_append s rest))]
  refine congrArg Except.ok (Sketch.ext_regs fun i => ?_)
  have hi : 2 + i.val = i.val + 1 + 1 := by omega
  have hregs : i.val < s.regs.toList.length := by
    rw [Vector.length_toList]
    exact i.isLt
  show (Vector.ofFn _)[i.val] = s.regs[i.val]
  rw [Vector.getElem_ofFn, List.get_eq_getElem]
  simp only [bytes_eq, List.cons_append, hi, List.getElem_cons_succ,
    List.getElem_append_left hregs, Vector.getElem_toList]

/-- **Round trip.** What `Bytes` writes, `Parse` reads back. -/
theorem parse_bytes (s : Sketch) : parse s.bytes = .ok s := by
  have h := parse_bytes_append s []
  rwa [List.append_nil] at h

/-- The HLL algorithm satisfies the sketch contract, for every hash function. -/
theorem isJoin : (algorithm sum64).IsJoin where
  new_eq := rfl
  add_eq := Sketch.add_eq_sup sum64
  merge_eq := fun _ _ => rfl
  clone_eq := fun _ => rfl
  algoName_eq := fun _ => rfl
  parse_bytes := parse_bytes

/-- A sketch is above the sketch of some ids exactly when it counts each of them. -/
theorem Sketch.sketchOf_le_iff (ids : List UInt64) (s : Sketch) :
    (algorithm sum64).sketchOf ids ≤ s ↔ ∀ id ∈ ids, s.Contains sum64 id := by
  simp only [Sketch.contains_iff]
  exact (isJoin sum64).sketchOf_le_iff ids s

/-! ## Leading zeros -/

theorem clz_le_width {w : ℕ} (x : BitVec w) : x.clz.toNat ≤ w := by
  have h := BitVec.le_def.mp (BitVec.clz_le (x := x))
  rwa [BitVec.natCast_eq_ofNat, BitVec.toNat_ofNat, Nat.mod_eq_of_lt Nat.lt_two_pow_self] at h

/-- The leading zeros are what is left of the width beside the binary digits. -/
theorem size_toNat {w : ℕ} (x : BitVec w) : x.toNat.size = w - x.clz.toNat := by
  have hle : x.toNat.size ≤ w - x.clz.toNat := Nat.size_le.mpr BitVec.toNat_lt_two_pow_sub_clz
  have hclz := clz_le_width x
  by_cases hx : x = 0#w
  · have hwidth : x.clz = BitVec.ofNat w w := BitVec.clz_eq_iff_eq_zero.mpr hx
    have hnat : x.clz.toNat = w := by
      rw [hwidth, BitVec.toNat_ofNat, Nat.mod_eq_of_lt Nat.lt_two_pow_self]
    omega
  · by_cases hw : w = 0
    · omega
    · -- the first digit that is not zero
      have hone := BitVec.two_pow_sub_clz_le_toNat_of_ne_zero (Nat.pos_of_ne_zero hw) hx
      have hlt := Nat.lt_size.mpr hone
      omega

/-- `bits.LeadingZeros64` counts the leading zeros of a 64-bit number. -/
theorem leadingZeros64_eq (x : UInt64) : leadingZeros64 x = x.toBitVec.clz.toNat := by
  have hsize : x.toNat.size = 64 - x.toBitVec.clz.toNat := size_toNat x.toBitVec
  have hclz := clz_le_width x.toBitVec
  unfold leadingZeros64
  omega

/-! ## The reference -/

/-- The top 14 bits of a hash. -/
def topBits (hash : UInt64) : BitVec 14 := hash.toBitVec.extractLsb' 50 14

/-- The low 50 bits of a hash, as a 50-bit number. -/
def lowBits (hash : UInt64) : BitVec 50 := hash.toBitVec.extractLsb' 0 50

/-- One more than the number of leading zeros of the low bits. -/
def rank (hash : UInt64) : ℕ := 1 + (lowBits hash).clz.toNat

/-- Register `j` of the reference: the maximum of the ranks of the ids that go to it, and
zero when there is none. -/
def referenceReg (sum64 : Bytes → UInt64) (ids : List UInt64) (j : ℕ) : ℕ :=
  let hashes := ids.map fun id => sum64 (putUint64 id)
  ((hashes.filter fun hash => (topBits hash).toNat = j).map rank).foldl max 0

theorem toNat_topBits (hash : UInt64) : (topBits hash).toNat = hash.toNat / 2 ^ 50 := by
  have h := hash.toNat_lt
  unfold topBits
  rw [BitVec.extractLsb'_toNat, Nat.shiftRight_eq_div_pow, UInt64.toNat_toBitVec, Nat.mod_eq_of_lt]
  omega

theorem toNat_lowBits (hash : UInt64) : (lowBits hash).toNat = hash.toNat % 2 ^ 50 := by
  unfold lowBits
  rw [BitVec.extractLsb'_toNat, Nat.shiftRight_zero, UInt64.toNat_toBitVec]

theorem rank_le (hash : UInt64) : rank hash ≤ 51 := by
  have h := clz_le_width (lowBits hash)
  unfold rank
  omega

/-- Low bits that are all zero have the rank 51. -/
theorem rank_of_lowBits_eq_zero {hash : UInt64} (h : lowBits hash = 0) : rank hash = 51 := by
  unfold rank
  rw [h]
  decide

/-- The rank by the number of binary digits of the low bits. -/
theorem rank_eq (hash : UInt64) : rank hash = 51 - (hash.toNat % 2 ^ 50).size := by
  have hsize := size_toNat (lowBits hash)
  have hclz := clz_le_width (lowBits hash)
  rw [toNat_lowBits] at hsize
  unfold rank
  omega

/-! ## The code against the reference -/

theorem val_regIndex (hash : UInt64) : (regIndex hash).val = (topBits hash).toNat := by
  have hs : (UInt64.ofNat (64 - precision)).toNat % 64 = 50 := rfl
  rw [toNat_topBits]
  show (hash >>> UInt64.ofNat (64 - precision)).toNat = _
  rw [UInt64.toNat_shiftRight, hs, Nat.shiftRight_eq_div_pow]

/-- The low bits at the top of the word, over the sentinel. -/
theorem toNat_shiftLeft_or_sentinel (hash : UInt64) :
    (hash <<< UInt64.ofNat precision ||| UInt64.ofNat (1 <<< precision - 1)).toNat
      = (hash.toNat % 2 ^ 50) * 2 ^ 14 + (2 ^ 14 - 1) := by
  have hs : (UInt64.ofNat precision).toNat % 64 = 14 := rfl
  have hm : (UInt64.ofNat (1 <<< precision - 1)).toNat = 2 ^ 14 - 1 := rfl
  have hshift : hash.toNat * 2 ^ 14 % 2 ^ 64 = (hash.toNat % 2 ^ 50) * 2 ^ 14 := by omega
  rw [UInt64.toNat_or, UInt64.toNat_shiftLeft, hs, hm, Nat.shiftLeft_eq, hshift,
    ← Nat.shiftLeft_eq, Nat.shiftLeft_add_eq_or_of_lt (by decide)]

/-- The sentinel adds its fourteen digits and nothing else. -/
theorem size_mul_add_sentinel (low : ℕ) :
    (low * 2 ^ 14 + (2 ^ 14 - 1)).size = low.size + 14 := by
  apply eq_of_forall_ge_iff
  intro n
  by_cases hn : n < 14
  · -- fewer digits than the sentinel has
    have hpow : 2 ^ n ≤ 2 ^ 13 := Nat.pow_le_pow_right (by decide) (by omega)
    rw [Nat.size_le]
    omega
  · obtain ⟨k, rfl⟩ := Nat.exists_eq_add_of_le' (not_lt.mp hn)
    rw [Nat.size_le, Nat.add_le_add_iff_right, Nat.size_le, Nat.pow_add]
    generalize 2 ^ k = m
    omega

/-- **The code computes the rank.** -/
theorem toNat_regRho (hash : UInt64) : (regRho hash).toNat = rank hash := by
  have hsize : (hash.toNat % 2 ^ 50).size ≤ 50 := Nat.size_le.mpr (Nat.mod_lt _ (by decide))
  rw [rank_eq]
  unfold regRho leadingZeros64
  dsimp only
  rw [toNat_shiftLeft_or_sentinel, size_mul_add_sentinel, UInt8.toNat_add, UInt8.toNat_ofNat',
    UInt8.toNat_one]
  omega

theorem referenceReg_concat (ids : List UInt64) (id : UInt64) (j : ℕ) :
    referenceReg sum64 (ids ++ [id]) j
      = if (topBits (sum64 (putUint64 id))).toNat = j then
          max (referenceReg sum64 ids j) (rank (sum64 (putUint64 id)))
        else referenceReg sum64 ids j := by
  unfold referenceReg
  by_cases h : (topBits (sum64 (putUint64 id))).toNat = j
  · simp [h]
  · simp [h]

/-- The sketch of a list of ids has the registers of the reference. -/
theorem toRegs_sketchOf (ids : List UInt64) (j : Fin numRegs) :
    ((algorithm sum64).sketchOf ids).toRegs j = referenceReg sum64 ids j := by
  induction ids using List.reverseRecOn with
  | nil => exact Sketch.toRegs_bot j
  | append_singleton ids id ih =>
    have hadd : (algorithm sum64).sketchOf (ids ++ [id])
        = ((algorithm sum64).sketchOf ids).add sum64 id := Algorithm.sketchOf_concat _ ids id
    have hidx : regIndex (sum64 (putUint64 id)) = j
        ↔ (topBits (sum64 (putUint64 id))).toNat = j := by
      rw [Fin.ext_iff, val_regIndex]
    rw [hadd, Sketch.toRegs_add, referenceReg_concat, ih, toNat_regRho]
    simp only [hidx]

/-- Registers of a reference are ranks, which are at most 51. -/
theorem referenceReg_le (ids : List UInt64) (j : ℕ) : referenceReg sum64 ids j ≤ 51 := by
  induction ids using List.reverseRecOn with
  | nil => exact Nat.zero_le _
  | append_singleton ids id ih =>
    have hrank := rank_le (sum64 (putUint64 id))
    rw [referenceReg_concat]
    split <;> omega

/-- **HLL sketches are the reference register sets**, for every hash function: the sketch of
a list of ids has the registers of the reference, all in the range up to 51, and merging
sketches takes the ids together. The order and the repetition of adds and merges therefore
do not matter. -/
theorem sketchOf_eq_reference :
    (∀ ids (j : Fin numRegs),
      (((algorithm sum64).sketchOf ids).regs[j]).toNat = referenceReg sum64 ids j ∧
      (((algorithm sum64).sketchOf ids).regs[j]).toNat ≤ 51) ∧
    (∀ xs ys, ((algorithm sum64).sketchOf xs).merge ((algorithm sum64).sketchOf ys)
      = (algorithm sum64).sketchOf (xs ++ ys)) ∧
    (∀ xs ys, ((algorithm sum64).sketchOf xs).merge ((algorithm sum64).sketchOf ys)
      = ((algorithm sum64).sketchOf ys).merge ((algorithm sum64).sketchOf xs)) ∧
    (∀ xs ys zs,
      (((algorithm sum64).sketchOf xs).merge ((algorithm sum64).sketchOf ys)).merge
          ((algorithm sum64).sketchOf zs)
        = ((algorithm sum64).sketchOf xs).merge
            (((algorithm sum64).sketchOf ys).merge ((algorithm sum64).sketchOf zs))) ∧
    (∀ xs, ((algorithm sum64).sketchOf xs).merge ((algorithm sum64).sketchOf xs)
      = (algorithm sum64).sketchOf xs) ∧
    (∀ xs ys, (∀ id, id ∈ xs ↔ id ∈ ys) →
      (algorithm sum64).sketchOf xs = (algorithm sum64).sketchOf ys) := by
  have hmerge : ∀ s t : Sketch, s.merge t = s ⊔ t := fun _ _ => rfl
  refine ⟨fun ids j => ?_, fun xs ys => ?_, fun xs ys => ?_, fun xs ys zs => ?_, fun xs => ?_,
    fun xs ys hsame => ?_⟩
  · have hreg := toRegs_sketchOf sum64 ids j
    exact ⟨hreg, hreg.trans_le (referenceReg_le sum64 ids j)⟩
  · rw [hmerge, (isJoin sum64).sketchOf_append]
  · rw [hmerge, hmerge, sup_comm]
  · rw [hmerge, hmerge, hmerge, hmerge, sup_assoc]
  · rw [hmerge, sup_idem]
  · exact (isJoin sum64).sketchOf_congr hsame

end Hll
end CardinalityTracker
