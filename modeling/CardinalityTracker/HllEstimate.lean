import CardinalityTracker.HllFormat

/-!
# The estimate in exact arithmetic

`sketch.Cardinality` is one formula in double precision. Here the formula is written once over
an arbitrary type of numbers: at `Float` it is the function of the source
(`cardinality_eq_estimateWith`), and at a field it is what the source approximates. The two
parts of the formula, the raw estimate and linear counting, are both monotone in the registers.
What is left is the switch between them, and there the estimate can fall.
-/

namespace CardinalityTracker
namespace Hll

/-! ## The formula -/

section Formula

variable {F : Type} [Add F] [Mul F] [Div F] [OfScientific F] (ofNat powNeg : ℕ → F)

/-- `alphaMM`. -/
def alphaMMWith : F := (0.7213 / (1.0 + 1.079 / ofNat numRegs)) * ofNat numRegs * ofNat numRegs

/-- The sum of `2^-v` over the registers. -/
def sumWith (s : Sketch) : F := s.regs.foldl (fun acc v => acc + powNeg v.toNat) (ofNat 0)

/-- The raw estimate. -/
def rawWith (s : Sketch) : F := alphaMMWith ofNat / sumWith ofNat powNeg s

/-- The number of registers that are zero. -/
def zeros (s : Sketch) : ℕ := s.regs.toList.countP (· == 0)

/-- The estimate before it is rounded. -/
def estimateWith [LE F] [DecidableLE F] (log : F → F) (s : Sketch) : F :=
  let est := rawWith ofNat powNeg s
  if est ≤ 2.5 * ofNat numRegs ∧ 0 < zeros s then
    ofNat numRegs * log (ofNat numRegs / ofNat (zeros s))
  else est

end Formula

/-- At double precision the formula is the function of the source. -/
theorem cardinality_eq_estimateWith (s : Sketch) :
    s.cardinality = (Float.round (estimateWith Float.ofNat
      (fun v => Float.pow 2 (-Float.ofNat v)) Float.log s)).toUInt64 :=
  rfl

/-! ## Loops over the registers -/

section Loops

variable {α : Type}

theorem toList_eq_ofFn {n : ℕ} (v : Vector α n) : v.toList = List.ofFn fun j : Fin n => v[j] := by
  rw [← Vector.toList_ofFn]
  congr 1
  apply Vector.ext
  intro i hi
  rw [Vector.getElem_ofFn]
  rfl

theorem foldl_add_eq_sum {M : Type} [AddMonoid M] (f : α → M) (l : List α) (acc : M) :
    l.foldl (fun acc x => acc + f x) acc = acc + (l.map f).sum := by
  induction l generalizing acc with
  | nil => rw [List.foldl_nil, List.map_nil, List.sum_nil, add_zero]
  | cons x l ih => rw [List.foldl_cons, ih, List.map_cons, List.sum_cons, add_assoc]

theorem countP_eq_sum (p : α → Bool) (l : List α) :
    l.countP p = (l.map fun x => if p x then 1 else 0).sum := by
  induction l with
  | nil => rfl
  | cons x l ih => rw [List.countP_cons, ih, List.map_cons, List.sum_cons, add_comm]

end Loops

theorem zeros_eq_card (s : Sketch) :
    zeros s = (Finset.univ.filter fun j : Fin numRegs => s.toRegs j = 0).card := by
  have hzero : ∀ j : Fin numRegs, (s.regs[j] == 0) = true ↔ s.toRegs j = 0 := by
    intro j
    rw [beq_iff_eq, ← UInt8.toNat_inj]
    rfl
  unfold zeros
  rw [toList_eq_ofFn, countP_eq_sum, List.map_ofFn, List.sum_ofFn, Finset.card_filter]
  apply Finset.sum_congr rfl
  intro j _
  exact if_congr (hzero j) rfl rfl

/-- Registers that rise leave fewer zeros. -/
theorem zeros_anti {s t : Sketch} (h : s ≤ t) : zeros t ≤ zeros s := by
  rw [zeros_eq_card, zeros_eq_card]
  apply Finset.card_le_card
  intro j hj
  have hle := Sketch.toRegs_le.mpr h j
  rw [Finset.mem_filter] at hj ⊢
  exact ⟨hj.1, Nat.le_zero.mp (hj.2 ▸ hle)⟩

theorem zeros_le (s : Sketch) : zeros s ≤ numRegs := by
  rw [zeros_eq_card]
  exact (Finset.card_filter_le _ _).trans_eq (Finset.card_fin numRegs)

theorem zeros_eq_zero_iff (s : Sketch) : zeros s = 0 ↔ ∀ j, s.toRegs j ≠ 0 := by
  rw [zeros_eq_card, Finset.card_eq_zero, Finset.filter_eq_empty_iff]
  exact ⟨fun h j => h (Finset.mem_univ j), fun h j _ => h j⟩

/-! ## The raw estimate over a field -/

section Field

variable (F : Type) [Field F]

/-- `alphaMM`, exactly. -/
def alpha : F := alphaMMWith (Nat.cast : ℕ → F)

/-- The denominator of the raw estimate, exactly. -/
def denominator (s : Sketch) : F := sumWith (Nat.cast : ℕ → F) (fun v => (2 ^ v)⁻¹) s

/-- The raw estimate, exactly. -/
def rawEstimate (s : Sketch) : F := rawWith (Nat.cast : ℕ → F) (fun v => (2 ^ v)⁻¹) s

variable {F}

theorem rawEstimate_eq (s : Sketch) : rawEstimate F s = alpha F / denominator F s := rfl

/-- The loop adds up the registers. -/
theorem denominator_eq (s : Sketch) :
    denominator F s = ∑ j : Fin numRegs, (2 ^ s.toRegs j)⁻¹ := by
  unfold denominator sumWith
  rw [← Vector.foldl_toList, toList_eq_ofFn, foldl_add_eq_sum, Nat.cast_zero, zero_add,
    List.map_ofFn, List.sum_ofFn]
  rfl

/-- Every register at `v`. -/
def uniform (v : UInt8) : Sketch := ⟨Vector.replicate numRegs v⟩

theorem toRegs_uniform (v : UInt8) (j : Fin numRegs) : (uniform v).toRegs j = v.toNat := by
  show ((Vector.replicate numRegs v)[j.val]).toNat = v.toNat
  rw [Vector.getElem_replicate]

theorem denominator_uniform (v : UInt8) :
    denominator F (uniform v) = numRegs / 2 ^ v.toNat := by
  rw [denominator_eq]
  simp only [toRegs_uniform, Finset.sum_const, Finset.card_univ, Fintype.card_fin]
  rw [nsmul_eq_mul, ← div_eq_mul_inv]

theorem alpha_eq : alpha F = 0.7213 / (1.0 + 1.079 / 16384) * 16384 * 16384 := by
  unfold alpha alphaMMWith
  rw [numRegs_eq, Nat.cast_ofNat]

variable [LinearOrder F] [IsStrictOrderedRing F]

theorem alpha_pos : 0 < alpha F := by
  rw [alpha_eq]
  norm_num

theorem denominator_pos (s : Sketch) : 0 < denominator F s := by
  have : Nonempty (Fin numRegs) := ⟨⟨0, by decide⟩⟩
  rw [denominator_eq]
  exact Finset.sum_pos (fun j _ => by positivity) Finset.univ_nonempty

/-- Larger exponents give a smaller sum. -/
theorem sum_inv_two_pow_anti {a b : Fin numRegs → ℕ} (h : a ≤ b) :
    ∑ j, ((2 : F) ^ b j)⁻¹ ≤ ∑ j, ((2 : F) ^ a j)⁻¹ := by
  apply Finset.sum_le_sum
  intro j _
  have hpow : (2 : F) ^ a j ≤ 2 ^ b j := pow_le_pow_right₀ one_le_two (h j)
  exact inv_anti₀ (by positivity) hpow

theorem denominator_anti {s t : Sketch} (h : s ≤ t) : denominator F t ≤ denominator F s := by
  rw [denominator_eq, denominator_eq]
  exact sum_inv_two_pow_anti (Sketch.toRegs_le.mpr h)

/-- The raw estimate is monotone. -/
theorem rawEstimate_mono {s t : Sketch} (h : s ≤ t) : rawEstimate F s ≤ rawEstimate F t := by
  rw [rawEstimate_eq, rawEstimate_eq]
  exact div_le_div_of_nonneg_left alpha_pos.le (denominator_pos t) (denominator_anti h)

end Field

/-! ## The estimate over the reals -/

/-- The guard of the small range correction. -/
def SmallRange (s : Sketch) : Prop := rawEstimate ℝ s ≤ 2.5 * numRegs ∧ 0 < zeros s

/-- Linear counting. -/
noncomputable def linearCounting (s : Sketch) : ℝ := numRegs * Real.log (numRegs / zeros s)

/-- The estimate of the source, in real numbers. -/
noncomputable def exactEstimate (s : Sketch) : ℝ :=
  estimateWith Nat.cast (fun v => (2 ^ v)⁻¹) Real.log s

/-- `sketch.Cardinality` in exact arithmetic. `math.Round` and `round` agree on the numbers that
are not negative, and estimates are such (`exactEstimate_nonneg`). -/
noncomputable def exactCardinality (s : Sketch) : ℤ := round (exactEstimate s)

theorem exactCardinality_of_smallRange {s : Sketch} (h : SmallRange s) :
    exactCardinality s = round (linearCounting s) :=
  congrArg round (if_pos h)

theorem exactCardinality_of_not_smallRange {s : Sketch} (h : ¬ SmallRange s) :
    exactCardinality s = round (rawEstimate ℝ s) :=
  congrArg round (if_neg h)

/-- Estimates are not negative. -/
theorem exactEstimate_nonneg (s : Sketch) : 0 ≤ exactEstimate s := by
  have hregs : (0 : ℝ) ≤ numRegs := Nat.cast_nonneg numRegs
  unfold exactEstimate estimateWith
  dsimp only
  split
  case isTrue h =>
    have hpos : (0 : ℝ) < zeros s := Nat.cast_pos.mpr h.2
    have hle : (zeros s : ℝ) ≤ numRegs := Nat.cast_le.mpr (zeros_le s)
    exact mul_nonneg hregs (Real.log_nonneg ((one_le_div hpos).mpr hle))
  case isFalse => exact (div_pos alpha_pos (denominator_pos s)).le

theorem round_mono {x y : ℝ} (h : x ≤ y) : round x ≤ round y := by
  rw [round_eq, round_eq]
  exact Int.floor_mono (by linarith)

/-- The small range is left once and for all. -/
theorem SmallRange.of_le {s t : Sketch} (h : s ≤ t) (ht : SmallRange t) : SmallRange s :=
  ⟨(rawEstimate_mono h).trans ht.1, ht.2.trans_le (zeros_anti h)⟩

/-- Linear counting is monotone, as long as there is a zero left to count. -/
theorem linearCounting_mono {s t : Sketch} (h : s ≤ t) (ht : 0 < zeros t) :
    linearCounting s ≤ linearCounting t := by
  have hpos : (0 : ℝ) < zeros t := Nat.cast_pos.mpr ht
  have hle : (zeros t : ℝ) ≤ zeros s := Nat.cast_le.mpr (zeros_anti h)
  have hregs : (0 : ℝ) < numRegs := Nat.cast_pos.mpr (by decide)
  unfold linearCounting
  apply mul_le_mul_of_nonneg_left _ hregs.le
  apply Real.log_le_log (div_pos hregs (hpos.trans_le hle))
  exact div_le_div_of_nonneg_left hregs.le hpos hle

/-- The estimate falls from `s` to `t`: the correction ends, and the raw estimate that takes
its place rounds to less. -/
def FallsAtSwitch (s t : Sketch) : Prop :=
  SmallRange s ∧ ¬ SmallRange t ∧ round (rawEstimate ℝ t) < round (linearCounting s)

/-- **The switch is the only place where the estimate falls** as registers rise. -/
theorem exactCardinality_lt_iff {s t : Sketch} (h : s ≤ t) :
    exactCardinality t < exactCardinality s ↔ FallsAtSwitch s t := by
  unfold FallsAtSwitch
  by_cases ht : SmallRange t
  · -- linear counting on both sides
    have hs := SmallRange.of_le h ht
    have hle := round_mono (linearCounting_mono h ht.2)
    rw [exactCardinality_of_smallRange ht, exactCardinality_of_smallRange hs]
    exact ⟨fun hlt => absurd hle (not_le.mpr hlt), fun hfall => absurd ht hfall.2.1⟩
  · rw [exactCardinality_of_not_smallRange ht]
    by_cases hs : SmallRange s
    · rw [exactCardinality_of_smallRange hs]
      exact ⟨fun hlt => ⟨hs, ht, hlt⟩, fun hfall => hfall.2.2⟩
    · -- the raw estimate on both sides
      have hle : round (rawEstimate ℝ s) ≤ round (rawEstimate ℝ t) :=
        round_mono (rawEstimate_mono h)
      rw [exactCardinality_of_not_smallRange hs]
      exact ⟨fun hlt => absurd hle (not_le.mpr hlt), fun hfall => absurd hfall.1 hs⟩

/-- With 1345 zeros or more, linear counting is at most the threshold of the raw estimate. -/
theorem linearCounting_le {s : Sketch} (h : 1345 ≤ zeros s) :
    linearCounting s ≤ 2.5 * numRegs := by
  have hzeros : (1345 : ℝ) ≤ zeros s := by exact_mod_cast h
  have hexp : Real.exp 2.5 ^ 2 = Real.exp 1 ^ 5 := by
    rw [← Real.exp_nat_mul, ← Real.exp_nat_mul]
    norm_num
  have hfive : (2.7182818283 : ℝ) ^ 5 ≤ Real.exp 1 ^ 5 :=
    pow_le_pow_left₀ (by norm_num) Real.exp_one_gt_d9.le 5
  have hbound : (16384 / 1345 : ℝ) ≤ Real.exp 2.5 := by
    apply le_of_sq_le_sq _ (Real.exp_pos _).le
    rw [hexp]
    exact le_trans (by norm_num) hfive
  have hratio : (numRegs / zeros s : ℝ) ≤ 16384 / 1345 := by
    rw [numRegs_eq, Nat.cast_ofNat]
    exact div_le_div_of_nonneg_left (by norm_num) (by norm_num) hzeros
  have hpos : (0 : ℝ) < numRegs / zeros s := by
    rw [numRegs_eq, Nat.cast_ofNat]
    exact div_pos (by norm_num) (by linarith)
  have hlog : Real.log (numRegs / zeros s) ≤ 2.5 :=
    (Real.log_le_iff_le_exp hpos).mpr (hratio.trans hbound)
  unfold linearCounting
  rw [mul_comm]
  exact mul_le_mul_of_nonneg_right hlog (Nat.cast_nonneg _)

/-- A fall needs a correction that ends on the last zero, or few zeros. -/
theorem FallsAtSwitch.threshold {s t : Sketch} (h : FallsAtSwitch s t) :
    rawEstimate ℝ t ≤ 2.5 * numRegs ∨ zeros s < 1345 := by
  by_contra hnot
  obtain ⟨hraw, hzeros⟩ := not_or.mp hnot
  have hle : linearCounting s ≤ rawEstimate ℝ t :=
    (linearCounting_le (not_lt.mp hzeros)).trans (not_le.mp hraw).le
  exact absurd (round_mono hle) (not_le.mpr h.2.2)

/-- **Counting more ids lowers the estimate at the switch only**, for every hash function and
every sketch: an add or a merge gives a smaller estimate exactly when it ends the small range
correction and the raw estimate then rounds to less than linear counting did before. When the
raw estimate has passed the threshold this takes fewer than 1345 zeros. -/
theorem cardinality_falls_only_at_switch (sum64 : Bytes → UInt64) (s : Sketch) :
    (∀ id, exactCardinality (s.add sum64 id) < exactCardinality s ↔
      FallsAtSwitch s (s.add sum64 id)) ∧
    (∀ t, exactCardinality (s.merge t) < exactCardinality s ↔ FallsAtSwitch s (s.merge t)) ∧
    ∀ t, FallsAtSwitch s t → rawEstimate ℝ t ≤ 2.5 * numRegs ∨ zeros s < 1345 := by
  refine ⟨fun id => ?_, fun t => ?_, fun t h => h.threshold⟩
  · apply exactCardinality_lt_iff
    rw [Sketch.add_eq_sup]
    exact le_sup_left
  · apply exactCardinality_lt_iff
    exact le_sup_left

/-! ## Where it falls -/

/-- Every register at one, except for the first, which is still zero. -/
def lastZero : Sketch := ⟨Vector.ofFn fun j => if j.val = 0 then 0 else 1⟩

theorem toRegs_lastZero (j : Fin numRegs) : lastZero.toRegs j = if j.val = 0 then 0 else 1 := by
  show ((Vector.ofFn fun j : Fin numRegs => if j.val = 0 then (0 : UInt8) else 1)[j.val]).toNat = _
  rw [Vector.getElem_ofFn]
  split
  · rfl
  · rfl

theorem lastZero_le_uniform : lastZero ≤ uniform 1 := by
  apply Sketch.toRegs_le.mp
  intro j
  rw [toRegs_lastZero, toRegs_uniform]
  split
  · exact Nat.zero_le _
  · exact le_rfl

/-- The id of the first register fills it. -/
theorem lastZero_add : lastZero.add (hashOf (uniform 1)) 0 = uniform 1 := by
  have hhash : hashOf (uniform 1) (putUint64 0) = hashFor 0 1 := by
    have h := hashOf_id (uniform 1) ⟨0, by decide⟩
    rwa [toRegs_uniform] at h
  have hidx : ∀ j : Fin numRegs, regIndex (hashFor 0 1) = j ↔ j.val = 0 := by
    intro j
    rw [Fin.ext_iff, val_regIndex, topBits_hashFor (by decide) (by decide), eq_comm]
  apply Sketch.toRegs_injective
  funext j
  rw [Sketch.toRegs_add, hhash, toNat_regRho, rank_hashFor (by decide) (by decide) (by decide),
    toRegs_lastZero, toRegs_uniform, UInt8.toNat_one]
  by_cases hj : j.val = 0
  · rw [if_pos ((hidx j).mpr hj), if_pos hj]
    rfl
  · rw [if_neg (mt (hidx j).mp hj), if_neg hj]

theorem built_lastZero : Built (hashOf (uniform 1)) lastZero := by
  have hbuilt := Built.sketchOf (hashOf (uniform 1)) (idsOf lastZero)
  rwa [sketchOf_idsOf] at hbuilt
  · intro j
    rw [toRegs_lastZero]
    split <;> omega
  · intro j hj
    rw [toRegs_lastZero] at hj ⊢
    rw [hashOf_id, toRegs_uniform, UInt8.toNat_one, if_neg (fun h => hj (if_pos h))]

theorem zeros_lastZero : zeros lastZero = 1 := by
  rw [zeros_eq_card, Finset.card_eq_one]
  refine ⟨⟨0, by decide⟩, Finset.ext fun j => ?_⟩
  rw [Finset.mem_filter, Finset.mem_singleton, toRegs_lastZero, Fin.ext_iff]
  simp

theorem zeros_uniform : zeros (uniform 1) = 0 := by
  rw [zeros_eq_zero_iff]
  intro j
  rw [toRegs_uniform]
  exact one_ne_zero

theorem rawEstimate_uniform_le : rawEstimate ℝ (uniform 1) ≤ 2.5 * numRegs := by
  rw [rawEstimate_eq, denominator_uniform, alpha_eq, numRegs_eq, UInt8.toNat_one]
  norm_num

/-- Linear counting with a single zero left. -/
theorem le_linearCounting_lastZero : 100000 ≤ linearCounting lastZero := by
  have hlog : Real.log (2 ^ 14) = 14 * Real.log 2 := by
    rw [Real.log_pow, Nat.cast_ofNat]
  have htwo := Real.log_two_gt_d9
  unfold linearCounting
  rw [zeros_lastZero, numRegs_eq, Nat.cast_one, div_one, Nat.cast_ofNat,
    show (16384 : ℝ) = 2 ^ 14 by norm_num, hlog]
  linarith

/-- Filling the last zero register ends the correction, and the estimate falls from about
159 000 to about 23 600. -/
theorem cardinality_falls_on_last_zero :
    Built (hashOf (uniform 1)) lastZero ∧
      exactCardinality (lastZero.add (hashOf (uniform 1)) 0) < exactCardinality lastZero := by
  have hsmall : SmallRange lastZero :=
    ⟨(rawEstimate_mono lastZero_le_uniform).trans rawEstimate_uniform_le,
      zeros_lastZero ▸ one_pos⟩
  have hlarge : ¬ SmallRange (uniform 1) := by
    intro h
    have hpos := h.2
    rw [zeros_uniform] at hpos
    exact lt_irrefl 0 hpos
  have hraw : round (rawEstimate ℝ (uniform 1)) ≤ 40960 := by
    have hle := round_mono rawEstimate_uniform_le
    rwa [numRegs_eq, show (2.5 * (16384 : ℕ) : ℝ) = (40960 : ℕ) by norm_num,
      round_natCast] at hle
  have hcount : 100000 ≤ round (linearCounting lastZero) := by
    have hle := round_mono le_linearCounting_lastZero
    rwa [round_ofNat] at hle
  refine ⟨built_lastZero, ?_⟩
  rw [lastZero_add, exactCardinality_lt_iff lastZero_le_uniform]
  refine ⟨hsmall, hlarge, ?_⟩
  omega

end Hll
end CardinalityTracker
