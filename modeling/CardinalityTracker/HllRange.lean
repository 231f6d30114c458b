import CardinalityTracker.HllEstimate
import CardinalityTracker.EngineRuns
import CardinalityTracker.Reference.Gob
import CardinalityTracker.Reference.Murmur3

/-!
# The range of the estimate

`sketch.Cardinality` converts the rounded estimate to `uint64`, without a check. Linear counting
is far below the limit, and the raw estimate depends on the registers alone, so what matters is
which registers an engine can ever hold: the ranks of hashes, which are at most 51, and the
register bytes that `Parse` lets in, which are any bytes at all.

The limit lies between the two ranks 50 and 51. A sketch whose registers are all at 50 still
fits, one whose registers are all at 51 does not.
-/

namespace CardinalityTracker
namespace Hll

open Lib

/-- The raw estimate is defined, and below what rounds to `2^64` whenever it is the value that
is returned. -/
def EstimateFits (s : Sketch) : Prop :=
  0 < denominator ℚ s ∧
    (zeros s = 0 ∨ 2.5 * numRegs < rawEstimate ℚ s → rawEstimate ℚ s < 2 ^ 64 - 1 / 2)

/-- Where the raw estimate is not returned it is small, so it always has to fit. -/
theorem estimateFits_iff (s : Sketch) :
    EstimateFits s ↔ alpha ℚ < (2 ^ 64 - 1 / 2) * denominator ℚ s := by
  have hpos : 0 < denominator ℚ s := denominator_pos s
  rw [← div_lt_iff₀ hpos, ← rawEstimate_eq]
  constructor
  · intro h
    by_cases hraw : 2.5 * numRegs < rawEstimate ℚ s
    · exact h.2 (Or.inr hraw)
    · apply lt_of_le_of_lt (not_lt.mp hraw)
      rw [numRegs_eq]
      norm_num
  · intro h
    exact ⟨hpos, fun _ => h⟩

/-- The limit is between the ranks 50 and 51. -/
theorem estimateFits_uniform_iff (v : UInt8) : EstimateFits (uniform v) ↔ v.toNat ≤ 50 := by
  have hpow : (0 : ℚ) < 2 ^ v.toNat := by positivity
  rw [estimateFits_iff, denominator_uniform, ← mul_div_assoc, lt_div_iff₀ hpow, alpha_eq,
    numRegs_eq]
  constructor
  · intro h
    by_contra hlt
    have hle : (2 : ℚ) ^ 51 ≤ 2 ^ v.toNat := pow_le_pow_right₀ one_le_two (by omega)
    norm_num at h hle
    linarith
  · intro h
    have hle : (2 : ℚ) ^ v.toNat ≤ 2 ^ 50 := pow_le_pow_right₀ one_le_two h
    norm_num at hle ⊢
    linarith

/-! ## Registers under a bound -/

section Bounds

variable (sum64 : Bytes → UInt64) (ids : Set UInt64) (bytes : Set Bytes)

/-- No id and no sketch bytes that `Parse` accepts put more than `bound j` into register `j`. -/
def Bounds (bound : Fin numRegs → ℕ) : Prop :=
  (∀ id ∈ ids, (regRho (sum64 (putUint64 id))).toNat ≤ bound (regIndex (sum64 (putUint64 id)))) ∧
    ∀ b ∈ bytes, ∀ sk, parse b = .ok sk → ∀ j, sk.toRegs j ≤ bound j

variable {sum64 ids bytes} {gob : Gob}

theorem toRegs_single_le_iff (id : UInt64) (bound : Fin numRegs → ℕ) :
    ((algorithm sum64).single id).toRegs ≤ bound ↔
      (regRho (sum64 (putUint64 id))).toNat ≤ bound (regIndex (sum64 (putUint64 id))) := by
  show (Sketch.add sum64 ⊥ id).toRegs ≤ bound ↔ _
  constructor
  · intro h
    have hidx := h (regIndex (sum64 (putUint64 id)))
    rwa [Sketch.toRegs_add, if_pos rfl, Sketch.toRegs_bot, Nat.zero_max] at hidx
  · intro h j
    rw [Sketch.toRegs_add, Sketch.toRegs_bot, Nat.zero_max]
    split
    case isTrue hj =>
      subst hj
      exact h
    case isFalse => exact Nat.zero_le _

/-- The bounds are those of the sketches that come in. -/
theorem bounds_iff (bound : Fin numRegs → ℕ) :
    Bounds sum64 ids bytes bound ↔
      ∀ r, Engine.Entering (algorithm sum64) ids bytes r → r.toRegs ≤ bound := by
  unfold Bounds Engine.Entering
  constructor
  · rintro ⟨hids, hbytes⟩ r (⟨id, hid, rfl⟩ | ⟨b, hb, hr⟩)
    · exact (toRegs_single_le_iff id bound).mpr (hids id hid)
    · exact hbytes b hb r hr
  · intro h
    constructor
    · intro id hid
      exact (toRegs_single_le_iff id bound).mp (h _ (Or.inl ⟨id, hid, rfl⟩))
    · intro b hb sk hsk
      exact h sk (Or.inr ⟨b, hb, hsk⟩)

/-- Runs keep the registers under the bounds. -/
theorem toRegs_after_le {bound : Fin numRegs → ℕ} (hbound : Bounds sum64 ids bytes bound)
    {updates : List Engine.Update} (hu : ∀ u ∈ updates, u.Within gob ids bytes)
    (group : GoString) :
    (value (Engine.after (algorithm sum64) gob updates).groups group).toRegs ≤ bound := by
  have hkeeps : Engine.Keeps (algorithm sum64) ids bytes fun s => s.toRegs ≤ bound := by
    constructor
    · intro j
      rw [Sketch.toRegs_bot]
      exact Nat.zero_le _
    · intro s r hs hr
      rw [Sketch.toRegs_merge]
      exact sup_le hs ((bounds_iff bound).mp hbound r hr)
  exact hkeeps.after (isJoin sum64) hu group

variable (sum64 ids bytes)

/-- Among the sketches that come in, and the empty one, some sketch has the largest value of a
register. -/
theorem exists_largest (j : Fin numRegs) :
    ∃ r, (Engine.Entering (algorithm sum64) ids bytes r ∨ r = ⊥) ∧
      ∀ r', Engine.Entering (algorithm sum64) ids bytes r' → r'.toRegs j ≤ r.toRegs j := by
  set values : Set ℕ :=
    {v | ∃ r, (Engine.Entering (algorithm sum64) ids bytes r ∨ r = ⊥) ∧ r.toRegs j = v}
  -- a register is a byte
  have hbdd : BddAbove values := by
    refine ⟨255, ?_⟩
    rintro v ⟨r, -, rfl⟩
    exact Nat.le_of_lt_succ r.regs[j].toNat_lt
  have hne : values.Nonempty := ⟨_, ⊥, Or.inr rfl, rfl⟩
  obtain ⟨r, hr, hmax⟩ := Nat.sSup_mem hne hbdd
  refine ⟨r, hr, fun r' hr' => ?_⟩
  rw [hmax]
  exact le_csSup hbdd ⟨r', Or.inl hr', rfl⟩

/-- Some run reaches the least bounds, in all registers of one group. -/
theorem exists_after_reaching (gob : Gob) (group : GoString) :
    ∃ (bound : Fin numRegs → ℕ) (updates : List Engine.Update), Bounds sum64 ids bytes bound ∧
      (∀ u ∈ updates, u.Within gob ids bytes) ∧
      bound ≤ (value (Engine.after (algorithm sum64) gob updates).groups group).toRegs := by
  choose r hr hmax using exists_largest sum64 ids bytes
  obtain ⟨updates, hu, habove⟩ : ∃ updates : List Engine.Update,
      (∀ u ∈ updates, u.Within gob ids bytes) ∧ ∀ j ∈ Finset.univ,
        r j ≤ value (Engine.after (algorithm sum64) gob updates).groups group :=
    Engine.exists_updates_above (isJoin sum64) Finset.univ r hr group
  refine ⟨fun j => (r j).toRegs j, updates, ?_, hu, fun j => ?_⟩
  · rw [bounds_iff]
    exact fun r' hr' j => hmax j r' hr'
  · exact Sketch.toRegs_le.mpr (habove j (Finset.mem_univ j)) j

end Bounds

theorem estimateFits_bot : EstimateFits ⊥ :=
  (estimateFits_uniform_iff 0).mpr (Nat.zero_le 50)

/-- **The estimate fits as long as the inputs keep the registers under bounds that fit**, for
every hash function. In the runs of `Add`, `MergeBytes`, `Restore` and `Unmarshal` calls on given
ids and given sketch bytes every group's estimate fits `uint64`, exactly when there are bounds
for the registers that none of these inputs exceeds, and that are small enough together. -/
theorem estimate_fits_iff_bounded (sum64 : Bytes → UInt64) (gob : Gob) (ids : Set UInt64)
    (bytes : Set Bytes) :
    (∀ updates : List Engine.Update, (∀ u ∈ updates, u.Within gob ids bytes) →
      ∀ (group : GoString) (sk : Sketch),
        (Engine.after (algorithm sum64) gob updates).groups[group]? = some sk →
          EstimateFits sk) ↔
    ∃ bound : Fin numRegs → ℕ, Bounds sum64 ids bytes bound ∧
      alpha ℚ < (2 ^ 64 - 1 / 2) * ∑ j, ((2 : ℚ) ^ bound j)⁻¹ := by
  have hlimit : (0 : ℚ) ≤ 2 ^ 64 - 1 / 2 := by norm_num
  constructor
  · intro hfits
    obtain ⟨bound, updates, hbound, hu, hreach⟩ :=
      exists_after_reaching sum64 ids bytes gob (str "g")
    set s := value (Engine.after (algorithm sum64) gob updates).groups (str "g") with hs
    have hfit : EstimateFits s := by
      cases hg : (Engine.after (algorithm sum64) gob updates).groups[str "g"]? with
      | none =>
        rw [hs, value_of_none hg]
        exact estimateFits_bot
      | some sk =>
        rw [hs, value_of_getElem? hg]
        exact hfits updates hu (str "g") sk hg
    rw [estimateFits_iff, denominator_eq] at hfit
    exact ⟨bound, hbound,
      hfit.trans_le (mul_le_mul_of_nonneg_left (sum_inv_two_pow_anti hreach) hlimit)⟩
  · rintro ⟨bound, hbound, hlt⟩ updates hu group sk hg
    have hregs := toRegs_after_le hbound hu group
    rw [value_of_getElem? hg] at hregs
    rw [estimateFits_iff, denominator_eq]
    exact hlt.trans_le (mul_le_mul_of_nonneg_left (sum_inv_two_pow_anti hregs) hlimit)

/-- The first sketch that is merged into a group is the group. -/
theorem after_mergeBytes (sum64 : Bytes → UInt64) (gob : Gob) (group : GoString) (s : Sketch) :
    (Engine.after (algorithm sum64) gob [.mergeBytes group algoName s.bytes]).groups[group]?
      = some s := by
  have hmerge : (Engine.new (algorithm sum64)).mergeBytes group algoName s.bytes
      = (⟨joinAt ∅ group s⟩, none) :=
    Engine.mergeBytes_of_parse (isJoin sum64) _ group ((isJoin sum64).parse_bytes s)
  show ((Engine.new (algorithm sum64)).mergeBytes group algoName s.bytes).1.groups[group]? = some s
  rw [hmerge, getElem?_joinAt_self, value_empty, bot_sup_eq]

/-- Register bytes that no hash can reach are merged in, and so are those of the highest rank:
the raw estimate is returned, and it is out of range in both cases. -/
theorem estimate_out_of_range :
    (Engine.after (algorithm Murmur3.sum64) GobCodec.codec
        [.mergeBytes (str "g") algoName (uniform 255).bytes]).groups[str "g"]?
      = some (uniform 255) ∧
    ¬ EstimateFits (uniform 255) ∧
    (Engine.after (algorithm Murmur3.sum64) GobCodec.codec
        [.mergeBytes (str "g") algoName (uniform 51).bytes]).groups[str "g"]?
      = some (uniform 51) ∧
    ¬ EstimateFits (uniform 51) := by
  refine ⟨after_mergeBytes _ _ _ _, ?_, after_mergeBytes _ _ _ _, ?_⟩
  · rw [estimateFits_uniform_iff]
    decide
  · rw [estimateFits_uniform_iff]
    decide

end Hll
end CardinalityTracker
