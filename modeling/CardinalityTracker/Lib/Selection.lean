import Mathlib

/-!
# Selecting by an unstable sort

A program that sorts with a comparison function and keeps the first elements depends on its
sort only through the contract of the sort: the result is a permutation, and no element stands
behind one that it is less than. `Sorter` is any function with this contract. When the
comparison tells every two elements apart, the result is the same for every sorter and every
order of the input (`Sorter.sort_eq`).
-/

namespace Lib

/-- What a comparison function must satisfy to be sorted by: a strict weak order. -/
structure IsLess {α : Type} (less : α → α → Bool) : Prop where
  irrefl : ∀ a, less a a = false
  trans : ∀ a b c, less a b = true → less b c = true → less a c = true
  neg_trans : ∀ a b c, less a b = false → less b c = false → less a c = false

/-- Every two elements are told apart. -/
def Separates {α : Type} (less : α → α → Bool) : Prop :=
  ∀ a b, less a b = false → less b a = false → a = b

/-- A strict order that tells every two elements apart can be sorted by. -/
theorem Separates.isLess {α : Type} {less : α → α → Bool} (h : Separates less)
    (irrefl : ∀ a, less a a = false)
    (trans : ∀ a b c, less a b = true → less b c = true → less a c = true) : IsLess less := by
  refine ⟨irrefl, trans, fun a b c hab hbc => ?_⟩
  by_contra hac
  rw [Bool.not_eq_false] at hac
  cases hba : less b a with
  | true =>
    -- then `b` is below `c` as well
    rw [trans b a c hba hac] at hbc
    cases hbc
  | false =>
    obtain rfl := h a b hab hba
    rw [hac] at hbc
    cases hbc

/-- A sorting function, known by its contract. Elements of which neither is less than the
other may come in any order. -/
structure Sorter where
  sort : {α : Type} → (α → α → Bool) → List α → List α
  perm : ∀ {α : Type} (less : α → α → Bool) (l : List α), (sort less l).Perm l
  sorted : ∀ {α : Type} {less : α → α → Bool}, IsLess less → ∀ l : List α,
    (sort less l).Pairwise fun a b => less b a = false

namespace Sorter

/-- Insertion sort is one. -/
def insertion : Sorter where
  sort := fun less l => l.insertionSort fun a b => less b a = false
  perm := fun _ l => List.perm_insertionSort _ l
  sorted := fun {α less} h l => by
    have : Std.Total fun a b : α => less b a = false := by
      refine ⟨fun a b => ?_⟩
      by_contra hc
      rw [not_or, Bool.not_eq_false, Bool.not_eq_false] at hc
      have haa := h.trans a b a hc.2 hc.1
      rw [h.irrefl] at haa
      cases haa
    have : IsTrans α fun a b => less b a = false := ⟨fun a b c hab hbc => h.neg_trans c b a hbc hab⟩
    exact List.pairwise_insertionSort _ l

variable {α : Type} {less : α → α → Bool}

/-- **The result does not depend on the sorter or on the order of the input**, when the
comparison tells every two elements apart. -/
theorem sort_eq (S S' : Sorter) (h : IsLess less) (hsep : Separates less) {l l' : List α}
    (hperm : l.Perm l') : S.sort less l = S'.sort less l' := by
  have hsame : (S.sort less l).Perm (S'.sort less l') :=
    (S.perm less l).trans (hperm.trans (S'.perm less l').symm)
  exact List.Perm.eq_of_pairwise (fun a b _ _ hab hba => hsep a b hba hab) (S.sorted h l)
    (S'.sorted h l') hsame

/-- What is not among the first elements is not less than any of them. -/
theorem not_less_of_mem_take (S : Sorter) (h : IsLess less) {l : List α} {n : ℕ} {a b : α}
    (ha : a ∈ (S.sort less l).take n) (hb : b ∈ l) (hb' : b ∉ (S.sort less l).take n) :
    less b a = false := by
  have hsorted := S.sorted h l
  rw [← List.take_append_drop n (S.sort less l), List.pairwise_append] at hsorted
  refine hsorted.2.2 a ha b ?_
  -- so it is behind them
  have hmem : b ∈ S.sort less l := (S.perm less l).mem_iff.mpr hb
  rw [← List.take_append_drop n (S.sort less l), List.mem_append] at hmem
  exact hmem.resolve_left hb'

end Sorter
end Lib
