import CardinalityTracker.HllEstimate

/-!
# What the estimate says about few ids

A register that some id has reached is not zero any more, so the number of occupied registers is
the number of different registers that the ids hash to. In exact arithmetic the estimate is never
below it, for any sketch, and as long as it is at most 127 the two are equal: linear counting
exceeds the number of occupied registers by less than one half. `few_ids_count` puts this in terms
of the ids that were counted.
-/

namespace CardinalityTracker
namespace Hll

/-! ## Occupied registers -/

/-- The registers that are not zero. -/
def occupied (s : Sketch) : Finset (Fin numRegs) := Finset.univ.filter fun j => s.toRegs j ≠ 0

/-- The register of an id. -/
def regOf (sum64 : Bytes → UInt64) (id : UInt64) : Fin numRegs := regIndex (sum64 (putUint64 id))

theorem zeros_add_card_occupied (s : Sketch) : zeros s + (occupied s).card = numRegs := by
  rw [zeros_eq_card, occupied, Finset.card_filter_add_card_filter_not, Finset.card_univ,
    Fintype.card_fin]

/-- The ids occupy the registers they hash to. -/
theorem occupied_sketchOf (sum64 : Bytes → UInt64) (ids : List UInt64) :
    occupied ((algorithm sum64).sketchOf ids) = ids.toFinset.image (regOf sum64) := by
  induction ids using List.reverseRecOn with
  | nil =>
    refine Finset.filter_eq_empty_iff.mpr fun j _ => ?_
    rw [not_not]
    exact Sketch.toRegs_bot j
  | append_singleton ids id ih =>
    have hadd : (algorithm sum64).sketchOf (ids ++ [id])
        = ((algorithm sum64).sketchOf ids).add sum64 id := Algorithm.sketchOf_concat _ ids id
    have hrho := regRho_pos (sum64 (putUint64 id))
    ext j
    have hj : j ∈ occupied ((algorithm sum64).sketchOf ids) ↔
        j ∈ ids.toFinset.image (regOf sum64) := by rw [ih]
    rw [occupied, Finset.mem_filter] at hj ⊢
    rw [hadd, Sketch.toRegs_add, List.toFinset_append, Finset.image_union, Finset.mem_union, ← hj]
    by_cases hidx : regIndex (sum64 (putUint64 id)) = j
    · have hpos : ∀ r : ℕ, max r (regRho (sum64 (putUint64 id))).toNat ≠ 0 := by omega
      simp [hidx, regOf, hpos]
    · simp [hidx, regOf, Ne.symm hidx]

/-! ## Linear counting -/

/-- Linear counting is at least the number of occupied registers. -/
theorem occupied_le_linearCounting {s : Sketch} (h : 0 < zeros s) :
    ((occupied s).card : ℝ) ≤ linearCounting s := by
  have hzeros : (0 : ℝ) < zeros s := Nat.cast_pos.mpr h
  have hregs : (0 : ℝ) < numRegs := Nat.cast_pos.mpr (by decide)
  have hsum : (zeros s : ℝ) + (occupied s).card = numRegs := by
    exact_mod_cast zeros_add_card_occupied s
  have hlog := Real.one_sub_inv_le_log_of_pos (div_pos hregs hzeros)
  rw [inv_div] at hlog
  calc ((occupied s).card : ℝ) = numRegs * (1 - zeros s / numRegs) := by
        field_simp
        linarith
    _ ≤ numRegs * Real.log (numRegs / zeros s) := mul_le_mul_of_nonneg_left hlog hregs.le

/-- The logarithm up to the second order. -/
theorem neg_log_one_sub_le {x : ℝ} (hnonneg : 0 ≤ x) (hlt : x < 1) :
    -Real.log (1 - x) ≤ x + x ^ 2 / 2 + x ^ 3 / (1 - x) := by
  have habs : |x| = x := abs_of_nonneg hnonneg
  have htaylor := Real.abs_log_sub_add_sum_range_le (habs.trans_lt hlt) 2
  rw [habs, Finset.sum_range_succ, Finset.sum_range_one] at htaylor
  have hbound := neg_le_of_abs_le htaylor
  norm_num at hbound
  linarith

/-- `occ` of 16384 registers are occupied: linear counting gives less than `occ` and a half, as the
terms of the logarithm beyond the first sum to less than a half of 16384. -/
theorem mul_log_lt {occ zer : ℝ} (hocc : 0 ≤ occ) (hle : occ ≤ 127) (hsum : zer + occ = 16384) :
    16384 * Real.log (16384 / zer) < occ + 1 / 2 := by
  obtain ⟨x, rfl⟩ : ∃ x, occ = 16384 * x := ⟨occ / 16384, by ring⟩
  obtain rfl : zer = 16384 * (1 - x) := by linarith
  have hx : 0 ≤ x := by linarith
  have hxle : x ≤ 127 / 16384 := by linarith
  have hsquare : x ^ 2 ≤ (127 / 16384) ^ 2 := pow_le_pow_left₀ hx hxle 2
  have hcube : x ^ 3 / (1 - x) ≤ (127 / 16384) ^ 3 / (1 - 127 / 16384) :=
    div_le_div₀ (by norm_num) (pow_le_pow_left₀ hx hxle 3) (by norm_num) (by linarith)
  have hhalf : (127 / 16384 : ℝ) ^ 2 / 2 + (127 / 16384) ^ 3 / (1 - 127 / 16384)
      < 1 / 2 / 16384 := by norm_num
  have hlog := neg_log_one_sub_le hx (hxle.trans_lt (by norm_num))
  rw [← div_div, div_self (by norm_num), one_div, Real.log_inv]
  linarith

/-- With at most 127 occupied registers it exceeds their number by less than one half. -/
theorem linearCounting_lt_occupied {s : Sketch} (h : (occupied s).card ≤ 127) :
    linearCounting s < (occupied s).card + 1 / 2 := by
  refine mul_log_lt (Nat.cast_nonneg _) ?_ ?_
  · exact_mod_cast h
  · exact_mod_cast zeros_add_card_occupied s

/-! ## The estimate -/

/-- Every zero adds one to the denominator. -/
theorem zeros_le_denominator (s : Sketch) : (zeros s : ℝ) ≤ denominator ℝ s := by
  rw [denominator_eq, zeros_eq_card, Finset.card_filter, Nat.cast_sum]
  apply Finset.sum_le_sum
  intro j _
  split
  case isTrue hzero => simp [hzero]
  case isFalse =>
    rw [Nat.cast_zero]
    positivity

/-- With at most 127 occupied registers the estimate is linear counting. -/
theorem smallRange_of_occupied {s : Sketch} (h : (occupied s).card ≤ 127) : SmallRange s := by
  have hsum : zeros s + (occupied s).card = 16384 := zeros_add_card_occupied s
  have hzeros : (16257 : ℝ) ≤ zeros s := by exact_mod_cast (by omega : 16257 ≤ zeros s)
  refine ⟨?_, by omega⟩
  rw [rawEstimate_eq, numRegs_eq, alpha_eq,
    div_le_iff₀ (hzeros.trans (zeros_le_denominator s) |>.trans_lt' (by norm_num))]
  have hdenominator := hzeros.trans (zeros_le_denominator s)
  norm_num
  linarith

/-- When no register is zero, the raw estimate is at least their number. -/
theorem numRegs_le_rawEstimate {s : Sketch} (h : zeros s = 0) :
    (numRegs : ℝ) ≤ rawEstimate ℝ s := by
  have hle : uniform 1 ≤ s := by
    rw [← Sketch.toRegs_le]
    intro j
    rw [toRegs_uniform]
    exact Nat.one_le_iff_ne_zero.mpr ((zeros_eq_zero_iff s).mp h j)
  refine le_trans ?_ (rawEstimate_mono hle)
  rw [rawEstimate_eq, denominator_uniform, alpha_eq, numRegs_eq, UInt8.toNat_one]
  norm_num

/-- **The estimate is at least the number of occupied registers**, for every sketch. -/
theorem occupied_le_exactCardinality (s : Sketch) :
    ((occupied s).card : ℤ) ≤ exactCardinality s := by
  have hsum := zeros_add_card_occupied s
  have hcard : ((occupied s).card : ℝ) ≤ numRegs := by exact_mod_cast (by omega)
  by_cases hsmall : SmallRange s
  · have hle := round_mono (occupied_le_linearCounting hsmall.2)
    rwa [round_natCast, ← exactCardinality_of_smallRange hsmall] at hle
  · have hraw : ((occupied s).card : ℝ) ≤ rawEstimate ℝ s := by
      by_cases hzeros : zeros s = 0
      · exact hcard.trans (numRegs_le_rawEstimate hzeros)
      · -- the correction is left because the raw estimate is large
        have hlarge : 2.5 * (numRegs : ℝ) < rawEstimate ℝ s := by
          by_contra hle
          exact hsmall ⟨not_lt.mp hle, Nat.pos_of_ne_zero hzeros⟩
        have hregs : (0 : ℝ) ≤ numRegs := Nat.cast_nonneg _
        linarith
    have hle := round_mono hraw
    rwa [round_natCast, ← exactCardinality_of_not_smallRange hsmall] at hle

/-- **Up to 127 of them it is their number.** -/
theorem exactCardinality_eq_occupied {s : Sketch} (h : (occupied s).card ≤ 127) :
    exactCardinality s = (occupied s).card := by
  have hsmall := smallRange_of_occupied h
  refine le_antisymm ?_ (occupied_le_exactCardinality s)
  rw [exactCardinality_of_smallRange hsmall, round_eq, ← Int.lt_add_one_iff, Int.floor_lt]
  have hlt := linearCounting_lt_occupied h
  push_cast
  linarith

/-- **What the estimate says about the ids**, for every hash function and every list of ids, in
exact arithmetic. It is at least the number of different registers they hash to, and equal to it
when that is at most 127. For at most 127 different ids it is therefore at most their number, and
their number exactly when no two of them hash to one register. -/
theorem few_ids_count (sum64 : Bytes → UInt64) (ids : List UInt64) :
    ((ids.toFinset.image (regOf sum64)).card : ℤ)
        ≤ exactCardinality ((algorithm sum64).sketchOf ids) ∧
      ((ids.toFinset.image (regOf sum64)).card ≤ 127 →
        exactCardinality ((algorithm sum64).sketchOf ids)
          = (ids.toFinset.image (regOf sum64)).card) ∧
      (ids.toFinset.card ≤ 127 →
        exactCardinality ((algorithm sum64).sketchOf ids) ≤ ids.toFinset.card ∧
        (exactCardinality ((algorithm sum64).sketchOf ids) = ids.toFinset.card ↔
          Set.InjOn (regOf sum64) {id | id ∈ ids})) := by
  have hle : (ids.toFinset.image (regOf sum64)).card ≤ ids.toFinset.card := Finset.card_image_le
  have hexact : (ids.toFinset.image (regOf sum64)).card ≤ 127 →
      exactCardinality ((algorithm sum64).sketchOf ids)
        = (ids.toFinset.image (regOf sum64)).card := by
    intro h
    rw [← occupied_sketchOf] at h ⊢
    exact exactCardinality_eq_occupied h
  refine ⟨?_, hexact, fun hfew => ⟨?_, ?_⟩⟩
  · rw [← occupied_sketchOf]
    exact occupied_le_exactCardinality _
  · rw [hexact (hle.trans hfew)]
    exact_mod_cast hle
  · have hset : {id | id ∈ ids} = (ids.toFinset : Set UInt64) := by
      ext id
      simp
    rw [hexact (hle.trans hfew), Nat.cast_inj, hset, Finset.card_image_iff]

end Hll
end CardinalityTracker
