import Mathlib

/-!
# Points on a circle

A hash ring looks up the first point at or after a position on the circle of 32-bit
numbers, by binary search in a sorted list that is then wrapped around. This file has the
binary search (the loop of Go's `sort.Search`), the clockwise distance, and the theorem that
joins them: the point found is the one at the least clockwise distance.
-/

namespace Lib

/-! ## Binary search -/

/-- The loop of `sort.Search`: `f` is false below `i` and true from `j` on. -/
def searchLoop (f : ℕ → Bool) (i j : ℕ) : ℕ :=
  if i < j then
    let h := (i + j) / 2
    if f h then searchLoop f i h else searchLoop f (h + 1) j
  else i
termination_by j - i

/-- `sort.Search`: the least index below `n` at which `f` is true, or `n`. -/
def search (n : ℕ) (f : ℕ → Bool) : ℕ := searchLoop f 0 n

/-- The loop keeps its bounds and what it knows about `f` on both sides of them. -/
theorem searchLoop_spec {f : ℕ → Bool} {n i j : ℕ}
    (hmono : ∀ a b, a ≤ b → b < n → f a = true → f b = true) (hij : i ≤ j) (hjn : j ≤ n)
    (hbelow : ∀ a, a < i → f a = false) (habove : ∀ a, j ≤ a → a < n → f a = true) :
    searchLoop f i j ≤ n ∧ (∀ a, a < searchLoop f i j → f a = false) ∧
      ∀ a, searchLoop f i j ≤ a → a < n → f a = true := by
  fun_induction searchLoop f i j with
  | case1 i j hlt h hf ih =>
    -- `f` is true at the middle, hence from there on
    have hh : h < n := by omega
    exact ih (by omega) (by omega) hbelow fun a ha han => hmono h a ha han hf
  | case2 i j hlt h hf ih =>
    -- `f` is false at the middle, hence at every index before it
    refine ih (by omega) hjn (fun a ha => ?_) habove
    cases hfa : f a with
    | false => rfl
    | true =>
      have hh : h < n := by omega
      exact absurd (hmono a h (by omega) hh hfa) hf
  | case3 i j hlt =>
    -- the bounds have met
    have hji : j = i := by omega
    exact ⟨by omega, hbelow, fun a ha han => habove a (by omega) han⟩

/-- **Binary search is correct** for a predicate that stays true once it is. -/
theorem search_spec {n : ℕ} {f : ℕ → Bool}
    (hmono : ∀ a b, a ≤ b → b < n → f a = true → f b = true) :
    search n f ≤ n ∧ (∀ a, a < search n f → f a = false) ∧
      ∀ a, search n f ≤ a → a < n → f a = true :=
  searchLoop_spec hmono (Nat.zero_le n) le_rfl (fun a ha => absurd ha (by omega))
    (fun a ha han => absurd ha (by omega))

/-- Whatever the predicate, the index found is at most `n`. -/
theorem searchLoop_le (f : ℕ → Bool) {i j : ℕ} (hij : i ≤ j) : searchLoop f i j ≤ j := by
  fun_induction searchLoop f i j with
  | case1 i j hlt h hf ih => exact (ih (by omega)).trans (by omega)
  | case2 i j hlt h hf ih => exact ih (by omega)
  | case3 i j hlt => exact hij

theorem search_le (n : ℕ) (f : ℕ → Bool) : search n f ≤ n := searchLoop_le f (Nat.zero_le n)

/-! ## The clockwise distance -/

/-- How far clockwise `p` is from `h`. -/
def clockwise (h p : UInt32) : ℕ := (p - h).toNat

theorem clockwise_of_le {h p : UInt32} (hle : h ≤ p) : clockwise h p = p.toNat - h.toNat :=
  UInt32.toNat_sub_of_le p h hle

/-- A point before `h` is reached after going around. -/
theorem clockwise_of_lt {h p : UInt32} (hlt : p < h) :
    clockwise h p = 2 ^ 32 - h.toNat + p.toNat := by
  have hp := UInt32.lt_iff_toNat_lt.mp hlt
  have hh := h.toNat_lt
  unfold clockwise
  rw [UInt32.toNat_sub, Nat.mod_eq_of_lt]
  omega

theorem clockwise_injective (h : UInt32) : Function.Injective (clockwise h) := by
  intro p q hpq
  have hsub : p - h = q - h := UInt32.toNat_inj.mp hpq
  rw [← UInt32.sub_add_cancel p h, ← UInt32.sub_add_cancel q h, hsub]

/-- The nearest point clockwise is the least point at or above `h`, if there is one. -/
theorem least_at_or_above {points : List UInt32} {h p : UInt32}
    (hnearest : ∀ q ∈ points, clockwise h p ≤ clockwise h q) (hat : ∃ q ∈ points, h ≤ q) :
    h ≤ p ∧ ∀ q ∈ points, h ≤ q → p ≤ q := by
  obtain ⟨q, hq, hle⟩ := hat
  have hhp : h ≤ p := by
    by_contra hlt
    -- a point below `h` is farther than every point at or above it
    have hdist := hnearest q hq
    rw [clockwise_of_lt (UInt32.not_le.mp hlt), clockwise_of_le hle] at hdist
    have := q.toNat_lt
    have := h.toNat_lt
    omega
  refine ⟨hhp, fun q' hq' hle' => ?_⟩
  have hdist := hnearest q' hq'
  rw [clockwise_of_le hhp, clockwise_of_le hle'] at hdist
  rw [UInt32.le_iff_toNat_le] at hhp hle' ⊢
  omega

/-- It is the least point of all when every point is below `h`. -/
theorem least_of_all {points : List UInt32} {h p : UInt32} (hp : p ∈ points)
    (hnearest : ∀ q ∈ points, clockwise h p ≤ clockwise h q) (hbelow : ∀ q ∈ points, q < h) :
    ∀ q ∈ points, p ≤ q := by
  intro q hq
  have hdist := hnearest q hq
  rw [clockwise_of_lt (hbelow p hp), clockwise_of_lt (hbelow q hq)] at hdist
  rw [UInt32.le_iff_toNat_le]
  omega

/-! ## The first point at or after a position -/

/-- The index of the first point at or after `h`: the first of all when there is none. -/
def successorIdx (points : List UInt32) (h : UInt32) : ℕ :=
  let idx := search points.length fun i => decide (h ≤ points.getD i 0)
  if idx = points.length then 0 else idx

theorem successorIdx_lt {points : List UInt32} (hne : points ≠ []) (h : UInt32) :
    successorIdx points h < points.length := by
  have hpos := List.length_pos_iff.mpr hne
  have hle := search_le points.length fun i => decide (h ≤ points.getD i 0)
  unfold successorIdx
  dsimp only
  split <;> omega

/-- In a sorted list, a later index has a larger point. -/
theorem getD_mono {points : List UInt32} (hsorted : points.Pairwise (· ≤ ·)) {a b : ℕ}
    (hab : a ≤ b) (hb : b < points.length) : points.getD a 0 ≤ points.getD b 0 := by
  have ha : a < points.length := by omega
  rw [List.getD_eq_getElem _ _ ha, List.getD_eq_getElem _ _ hb]
  rcases hab.lt_or_eq with hlt | rfl
  · exact List.pairwise_iff_getElem.mp hsorted a b ha hb hlt
  · exact UInt32.le_refl _

/-- **The successor is the nearest point clockwise.** -/
theorem clockwise_successorIdx_le {points : List UInt32} (hsorted : points.Pairwise (· ≤ ·))
    {h p : UInt32} (hp : p ∈ points) :
    clockwise h (points.getD (successorIdx points h) 0) ≤ clockwise h p := by
  obtain ⟨b, hb, rfl⟩ := List.getElem_of_mem hp
  rw [← List.getD_eq_getElem points 0 hb]
  have hmono : ∀ a b, a ≤ b → b < points.length → decide (h ≤ points.getD a 0) = true →
      decide (h ≤ points.getD b 0) = true := by
    intro a b hab hb ha
    exact decide_eq_true (UInt32.le_trans (of_decide_eq_true ha) (getD_mono hsorted hab hb))
  obtain ⟨hle, hbelow, habove⟩ := search_spec hmono
  unfold successorIdx
  dsimp only
  -- from here on only the specification of the search is used
  generalize search points.length (fun i => decide (h ≤ points.getD i 0)) = idx at *
  have hlow : ∀ a, a < idx → points.getD a 0 < h := fun a ha =>
    UInt32.not_le.mp (of_decide_eq_false (hbelow a ha))
  by_cases hwrap : idx = points.length
  · -- every point is before `h`: the least point is reached first after going around
    rw [if_pos hwrap, clockwise_of_lt (hlow 0 (by omega)), clockwise_of_lt (hlow b (by omega))]
    have := UInt32.le_iff_toNat_le.mp (getD_mono hsorted (Nat.zero_le b) hb)
    omega
  · rw [if_neg hwrap]
    have hidx : h ≤ points.getD idx 0 := of_decide_eq_true (habove idx le_rfl (by omega))
    rw [clockwise_of_le hidx]
    by_cases hbi : b < idx
    · -- a point before `h` is only reached after going around
      rw [clockwise_of_lt (hlow b hbi)]
      have := (points.getD idx 0).toNat_lt
      omega
    · have hhb : h ≤ points.getD b 0 := of_decide_eq_true (habove b (by omega) hb)
      rw [clockwise_of_le hhb]
      have := UInt32.le_iff_toNat_le.mp (getD_mono hsorted (not_lt.mp hbi) hb)
      omega

end Lib
