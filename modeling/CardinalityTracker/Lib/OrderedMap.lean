import Mathlib

/-!
# Filling and scanning ordered maps

Two things programs do with a byte-ordered key-value map: fill one from a list of bindings,
and scan the keys under a common prefix by seeking to the prefix and reading on while the
keys still start with it. The second stops at the first key outside the prefix; that it has
then seen every key inside is a fact about the lexicographic order (`scan_eq_filter`).
-/

namespace Lib

open Std

/-! ## Filling a map from a list -/

section Fill

variable {κ ν : Type} {cmp : κ → κ → Ordering} [TransCmp cmp] [LawfulEqCmp cmp]

/-- Insert the bindings one after the other. -/
def fill (m : ExtTreeMap κ ν cmp) (l : List (κ × ν)) : ExtTreeMap κ ν cmp :=
  l.foldl (fun m p => m.insert p.1 p.2) m

omit [LawfulEqCmp cmp] in
theorem fill_cons (m : ExtTreeMap κ ν cmp) (p : κ × ν) (l : List (κ × ν)) :
    fill m (p :: l) = fill (m.insert p.1 p.2) l := rfl

/-- A key that no binding has keeps its value. -/
theorem getElem?_fill_of_notMem {l : List (κ × ν)} {k : κ} (h : ∀ p ∈ l, p.1 ≠ k)
    (m : ExtTreeMap κ ν cmp) : (fill m l)[k]? = m[k]? := by
  induction l generalizing m with
  | nil => rfl
  | cons p l ih =>
    have hp : ¬ cmp p.1 k = .eq := fun hc => h p List.mem_cons_self (LawfulEqCmp.eq_of_compare hc)
    rw [fill_cons, ih fun q hq => h q (List.mem_cons_of_mem _ hq), ExtTreeMap.getElem?_insert,
      if_neg hp]

/-- With distinct keys, every binding of the list is in the map. -/
theorem getElem?_fill_of_mem {l : List (κ × ν)} (hd : l.Pairwise fun p q => p.1 ≠ q.1)
    {k : κ} {v : ν} (h : (k, v) ∈ l) (m : ExtTreeMap κ ν cmp) : (fill m l)[k]? = some v := by
  induction l generalizing m with
  | nil => cases h
  | cons p l ih =>
    rw [List.pairwise_cons] at hd
    rw [fill_cons]
    rcases List.mem_cons.mp h with rfl | hmem
    · -- the rest of the list does not bind the key again
      rw [getElem?_fill_of_notMem fun q hq => (hd.1 q hq).symm]
      exact ExtTreeMap.getElem?_insert_self
    · exact ih hd.2 hmem _

omit [LawfulEqCmp cmp] in
/-- The bindings of a map have distinct keys. -/
theorem pairwise_ne_toList [ReflCmp cmp] (m : ExtTreeMap κ ν cmp) :
    m.toList.Pairwise fun p q => p.1 ≠ q.1 := by
  refine ExtTreeMap.distinct_keys_toList.imp fun {p q} h hpq => h ?_
  rw [hpq]
  exact ReflCmp.compare_self

end Fill

/-! ## Scanning a prefix -/

section Scan

variable {α ν : Type} [Ord α] [TransOrd α] [LawfulEqOrd α] [DecidableEq α]

omit [TransOrd α] [DecidableEq α] in
/-- A key that starts with `p` is not below `p`. -/
theorem compare_ne_lt_of_isPrefix {p k : List α} (h : p <+: k) : compare k p ≠ .lt := by
  induction p generalizing k with
  | nil =>
    cases k with
    | nil => exact Ordering.noConfusion
    | cons y k => exact Ordering.noConfusion
  | cons x p ih =>
    obtain ⟨t, rfl⟩ := h
    rw [List.cons_append, List.compare_cons_cons, compare_self, Ordering.then]
    exact ih (List.prefix_append p t)

omit [TransOrd α] [DecidableEq α] in
/-- The keys that start with `p` are an interval above `p`: a key below one of them, and
not below `p`, starts with `p` as well. -/
theorem isPrefix_of_compare_lt {p k k' : List α} (hp : compare k p ≠ .lt)
    (hk : compare k k' = .lt) (h : p <+: k') : p <+: k := by
  induction p generalizing k k' with
  | nil => exact List.nil_prefix
  | cons x p ih =>
    obtain ⟨t, rfl⟩ := h
    cases k with
    | nil => exact absurd rfl hp
    | cons y k =>
      rw [List.cons_append, List.compare_cons_cons] at hk
      rw [List.compare_cons_cons] at hp
      -- unless the first elements agree, one of the two comparisons has ended
      cases hyx : compare y x with
      | lt => rw [hyx] at hp; exact absurd rfl hp
      | gt => rw [hyx] at hk; cases hk
      | eq =>
        rw [hyx] at hp hk
        obtain rfl : y = x := LawfulEqOrd.eq_of_compare hyx
        have hpk : p <+: k := ih hp hk (List.prefix_append p t)
        exact (List.prefix_cons_inj y).mpr hpk

omit [TransOrd α] [DecidableEq α] in
/-- A common prefix does not matter for the order of keys. -/
theorem compare_append_left (p k k' : List α) : compare (p ++ k) (p ++ k') = compare k k' := by
  induction p with
  | nil => rfl
  | cons x p ih =>
    rw [List.cons_append, List.cons_append, List.compare_cons_cons, compare_self, Ordering.then, ih]

/-- Seek to the prefix `p`, then read bindings while their keys start with `p`. -/
def scan (p : List α) (l : List (List α × ν)) : List (List α × ν) :=
  (l.dropWhile fun kv => compare kv.1 p == .lt).takeWhile fun kv => p.isPrefixOf kv.1

omit [TransOrd α] in
/-- Reading on from a key at or above the prefix sees every key with the prefix. -/
theorem takeWhile_eq_filter_of_sorted {p : List α} {l : List (List α × ν)}
    (hl : l.Pairwise fun a b => compare a.1 b.1 = .lt) (hp : ∀ a ∈ l, compare a.1 p ≠ .lt) :
    l.takeWhile (fun kv => p.isPrefixOf kv.1) = l.filter fun kv => p.isPrefixOf kv.1 := by
  induction l with
  | nil => rfl
  | cons a l ih =>
    rw [List.pairwise_cons] at hl
    by_cases ha : p.isPrefixOf a.1
    · rw [List.takeWhile_cons, List.filter_cons, if_pos ha, if_pos ha,
        ih hl.2 fun b hb => hp b (List.mem_cons_of_mem _ hb)]
    · -- reading stops at `a`, so nothing after it may have the prefix
      rw [List.takeWhile_cons, List.filter_cons, if_neg ha, if_neg ha, eq_comm,
        List.filter_eq_nil_iff]
      intro b hb hpb
      refine ha (List.isPrefixOf_iff_prefix.mpr ?_)
      exact isPrefix_of_compare_lt (hp a List.mem_cons_self) (hl.1 b hb)
        (List.isPrefixOf_iff_prefix.mp hpb)

/-- **The scan sees exactly the keys with the prefix**, in key order. -/
theorem scan_eq_filter (p : List α) {l : List (List α × ν)}
    (hl : l.Pairwise fun a b => compare a.1 b.1 = .lt) :
    scan p l = l.filter fun kv => p.isPrefixOf kv.1 := by
  induction l with
  | nil => rfl
  | cons a l ih =>
    by_cases ha : compare a.1 p = .lt
    · have hna : ¬ p.isPrefixOf a.1 := fun h =>
        compare_ne_lt_of_isPrefix (List.isPrefixOf_iff_prefix.mp h) ha
      rw [List.filter_cons, if_neg hna, ← ih (List.pairwise_cons.mp hl).2, scan, scan,
        List.dropWhile_cons, if_pos (by rw [ha]; rfl)]
    · -- from here on every key is at or above the prefix
      have hge : ∀ b ∈ a :: l, compare b.1 p ≠ .lt := by
        intro b hb hlt
        rcases List.mem_cons.mp hb with rfl | hb
        · exact ha hlt
        · exact ha (TransCmp.lt_trans ((List.pairwise_cons.mp hl).1 b hb) hlt)
      rw [scan, List.dropWhile_cons, if_neg (by simpa using ha)]
      exact takeWhile_eq_filter_of_sorted hl hge

end Scan

end Lib
