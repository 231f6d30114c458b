import Mathlib

/-!
# Folding commuting, idempotent updates

A replicated state whose updates all *join* something into it does not care in which
order the updates arrive, nor how often each of them does. This file states that once,
for an arbitrary update function, and then instantiates it with the update everything
else is built from: joining a value into one key of a finite map.

* `Absorbing f`: the updates `f · x` commute with each other and repeating one of them
  changes nothing;
* `Absorbing.foldl_congr`: the fold of an absorbing update depends only on the *set* of
  updates in the list;
* `joinAt m k v`: the finite map `m` with `v` joined into the value at `k`, an absent
  key counting as `⊥`.
-/

namespace Lib

/-! ## Absorbing updates -/

section Absorbing

variable {α β : Type*} {f : β → α → β}

/-- Updates that commute and absorb their own repetition. -/
structure Absorbing (f : β → α → β) : Prop where
  comm : ∀ b x y, f (f b x) y = f (f b y) x
  idem : ∀ b x, f (f b x) x = f b x

/-- An update after the fold may be moved in front of it. -/
theorem Absorbing.foldl_apply (h : Absorbing f) (l : List α) (b : β) (x : α) :
    f (l.foldl f b) x = l.foldl f (f b x) := by
  induction l generalizing b with
  | nil => rfl
  | cons y l ih =>
    rw [List.foldl_cons, List.foldl_cons, ih, h.comm]

/-- An update that occurs in the list changes nothing after it. -/
theorem Absorbing.absorb (h : Absorbing f) {l : List α} {x : α} (hx : x ∈ l) (b : β) :
    f (l.foldl f b) x = l.foldl f b := by
  obtain ⟨l₁, l₂, rfl⟩ := List.append_of_mem hx
  -- the second `x` is moved next to the first one, which absorbs it
  rw [h.foldl_apply, List.foldl_append, List.foldl_append, List.foldl_cons, List.foldl_cons,
    ← h.foldl_apply l₁ b x, h.idem]

/-- Replaying updates that have already been folded in changes nothing. -/
theorem Absorbing.foldl_of_subset (h : Absorbing f) {l₁ l₂ : List α}
    (hsub : ∀ x ∈ l₂, x ∈ l₁) (b : β) :
    l₂.foldl f (l₁.foldl f b) = l₁.foldl f b := by
  induction l₂ with
  | nil => rfl
  | cons x l₂ ih =>
    rw [List.foldl_cons, h.absorb (hsub x List.mem_cons_self)]
    exact ih fun y hy => hsub y (List.mem_cons_of_mem _ hy)

/-- Two folds of one absorbing update may be taken in either order. -/
theorem Absorbing.foldl_comm (h : Absorbing f) (l₁ l₂ : List α) (b : β) :
    l₁.foldl f (l₂.foldl f b) = l₂.foldl f (l₁.foldl f b) := by
  induction l₁ generalizing b with
  | nil => rfl
  | cons x l₁ ih =>
    rw [List.foldl_cons, List.foldl_cons, h.foldl_apply, ih]

/-- The fold of an absorbing update depends only on the set of updates. -/
theorem Absorbing.foldl_congr (h : Absorbing f) {l₁ l₂ : List α}
    (hmem : ∀ x, x ∈ l₁ ↔ x ∈ l₂) (b : β) : l₁.foldl f b = l₂.foldl f b := by
  -- each list replays the other one, and the two may be swapped
  calc l₁.foldl f b
      = l₂.foldl f (l₁.foldl f b) := (h.foldl_of_subset (fun x hx => (hmem x).mpr hx) b).symm
    _ = l₁.foldl f (l₂.foldl f b) := h.foldl_comm l₂ l₁ b
    _ = l₂.foldl f b := h.foldl_of_subset (fun x hx => (hmem x).mp hx) b

end Absorbing

/-! ## Joining into one key of a finite map -/

section JoinAt

open Std

variable {κ ν : Type} {cmp : κ → κ → Ordering} [TransCmp cmp] [LawfulEqCmp cmp]

/-- Lookup after an insertion, with the keys compared by equality. -/
theorem getElem?_insert_ite [DecidableEq κ] (m : ExtTreeMap κ ν cmp) (k k' : κ) (v : ν) :
    (m.insert k v)[k']? = if k = k' then some v else m[k']? := by
  rw [ExtTreeMap.getElem?_insert]
  by_cases h : k = k'
  · rw [if_pos h, if_pos (by rw [h]; exact ReflCmp.compare_self)]
  · rw [if_neg h, if_neg (fun hc => h (LawfulEqCmp.eq_of_compare hc))]

/-- The later of two insertions at one key is the one that stays. -/
theorem insert_insert_self (m : ExtTreeMap κ ν cmp) (k : κ) (v w : ν) :
    (m.insert k v).insert k w = m.insert k w := by
  classical
  apply ExtTreeMap.ext_getElem?
  intro k'
  rw [getElem?_insert_ite, getElem?_insert_ite, getElem?_insert_ite]
  by_cases h : k = k'
  · rw [if_pos h, if_pos h]
  · rw [if_neg h, if_neg h, if_neg h]

/-- Mapping the values after an insertion inserts the mapped value. -/
theorem map_insert {ν' : Type} (f : ν → ν') (m : ExtTreeMap κ ν cmp) (k : κ) (v : ν) :
    ((m.insert k v).map fun _ => f) = (m.map fun _ => f).insert k (f v) := by
  classical
  apply ExtTreeMap.ext_getElem?
  intro k'
  rw [ExtTreeMap.getElem?_map, getElem?_insert_ite, getElem?_insert_ite, ExtTreeMap.getElem?_map]
  by_cases h : k = k'
  · rw [if_pos h, if_pos h, Option.map_some]
  · rw [if_neg h, if_neg h]

variable [SemilatticeSup ν] [OrderBot ν]

/-- The value at `k`, an absent key counting as `⊥`. -/
def value (m : ExtTreeMap κ ν cmp) (k : κ) : ν := m[k]?.getD ⊥

/-- `m` with `v` joined into the value at `k`. The key is present afterwards. -/
def joinAt (m : ExtTreeMap κ ν cmp) (k : κ) (v : ν) : ExtTreeMap κ ν cmp :=
  m.insert k (value m k ⊔ v)

omit [LawfulEqCmp cmp] in
theorem value_of_getElem? {m : ExtTreeMap κ ν cmp} {k : κ} {v : ν} (h : m[k]? = some v) :
    value m k = v := by
  rw [value, h]
  rfl

omit [LawfulEqCmp cmp] in
theorem value_of_none {m : ExtTreeMap κ ν cmp} {k : κ} (h : m[k]? = none) :
    value m k = ⊥ := by
  rw [value, h]
  rfl

omit [LawfulEqCmp cmp] in
@[simp] theorem value_empty (k : κ) : value (∅ : ExtTreeMap κ ν cmp) k = ⊥ := by
  simp [value]

omit [LawfulEqCmp cmp] in
theorem getElem?_joinAt_self (m : ExtTreeMap κ ν cmp) (k : κ) (v : ν) :
    (joinAt m k v)[k]? = some (value m k ⊔ v) :=
  ExtTreeMap.getElem?_insert_self

theorem getElem?_joinAt_of_ne (m : ExtTreeMap κ ν cmp) {k k' : κ} (h : k ≠ k') (v : ν) :
    (joinAt m k v)[k']? = m[k']? := by
  classical
  rw [joinAt, getElem?_insert_ite, if_neg h]

omit [LawfulEqCmp cmp] in
@[simp] theorem value_joinAt_self (m : ExtTreeMap κ ν cmp) (k : κ) (v : ν) :
    value (joinAt m k v) k = value m k ⊔ v :=
  value_of_getElem? (getElem?_joinAt_self m k v)

theorem value_joinAt_of_ne (m : ExtTreeMap κ ν cmp) {k k' : κ} (h : k ≠ k') (v : ν) :
    value (joinAt m k v) k' = value m k' := by
  rw [value, value, getElem?_joinAt_of_ne m h]

/-- Two joins into one key are one join of both. -/
theorem joinAt_joinAt (m : ExtTreeMap κ ν cmp) (k : κ) (v w : ν) :
    joinAt (joinAt m k v) k w = joinAt m k (v ⊔ w) := by
  apply ExtTreeMap.ext_getElem?
  intro k'
  by_cases h : k = k'
  · subst h
    rw [getElem?_joinAt_self, getElem?_joinAt_self, value_joinAt_self, sup_assoc]
  · rw [getElem?_joinAt_of_ne _ h, getElem?_joinAt_of_ne _ h, getElem?_joinAt_of_ne _ h]

theorem joinAt_comm (m : ExtTreeMap κ ν cmp) (k l : κ) (v w : ν) :
    joinAt (joinAt m k v) l w = joinAt (joinAt m l w) k v := by
  by_cases hkl : k = l
  · subst hkl
    rw [joinAt_joinAt, joinAt_joinAt, sup_comm]
  · -- neither join reads the key that the other one writes
    apply ExtTreeMap.ext_getElem?
    intro k'
    by_cases hk : k = k'
    · subst hk
      rw [getElem?_joinAt_of_ne _ (Ne.symm hkl), getElem?_joinAt_self, getElem?_joinAt_self,
        value_joinAt_of_ne _ (Ne.symm hkl)]
    · by_cases hl : l = k'
      · subst hl
        rw [getElem?_joinAt_self, getElem?_joinAt_of_ne _ hkl, getElem?_joinAt_self,
          value_joinAt_of_ne _ hkl]
      · rw [getElem?_joinAt_of_ne _ hl, getElem?_joinAt_of_ne _ hk, getElem?_joinAt_of_ne _ hk,
          getElem?_joinAt_of_ne _ hl]

theorem joinAt_idem (m : ExtTreeMap κ ν cmp) (k : κ) (v : ν) :
    joinAt (joinAt m k v) k v = joinAt m k v := by
  rw [joinAt_joinAt, sup_idem]

/-- The update by an optional join: `none` leaves the map alone. -/
def joinOpt (m : ExtTreeMap κ ν cmp) : Option (κ × ν) → ExtTreeMap κ ν cmp
  | none => m
  | some (k, v) => joinAt m k v

/-- Values only grow. -/
theorem getElem?_joinOpt_mono {m : ExtTreeMap κ ν cmp} {k : κ} {v : ν} (h : m[k]? = some v)
    (x : Option (κ × ν)) : ∃ v', (joinOpt m x)[k]? = some v' ∧ v ≤ v' := by
  rcases x with _ | ⟨l, w⟩
  · exact ⟨v, h, le_rfl⟩
  · by_cases hl : l = k
    · subst hl
      refine ⟨value m l ⊔ w, getElem?_joinAt_self m l w, ?_⟩
      rw [value_of_getElem? h]
      exact le_sup_left
    · exact ⟨v, (getElem?_joinAt_of_ne m hl w).trans h, le_rfl⟩

theorem getElem?_foldl_joinOpt_mono {m : ExtTreeMap κ ν cmp} {k : κ} {v : ν} (h : m[k]? = some v)
    (xs : List (Option (κ × ν))) : ∃ v', (xs.foldl joinOpt m)[k]? = some v' ∧ v ≤ v' := by
  induction xs generalizing m v with
  | nil => exact ⟨v, h, le_rfl⟩
  | cons x xs ih =>
    obtain ⟨v', hv', hle⟩ := getElem?_joinOpt_mono h x
    obtain ⟨v'', hv'', hle'⟩ := ih hv'
    exact ⟨v'', hv'', hle.trans hle'⟩

/-- What one of the joins has put in is there at the end. -/
theorem getElem?_foldl_joinOpt_of_mem (m : ExtTreeMap κ ν cmp) {xs : List (Option (κ × ν))} {k : κ}
    {v : ν} (hmem : some (k, v) ∈ xs) : ∃ w, (xs.foldl joinOpt m)[k]? = some w ∧ v ≤ w := by
  obtain ⟨pre, post, rfl⟩ := List.append_of_mem hmem
  rw [List.foldl_append, List.foldl_cons]
  obtain ⟨w, hw, hle⟩ :=
    getElem?_foldl_joinOpt_mono (getElem?_joinAt_self (pre.foldl joinOpt m) k v) post
  exact ⟨w, hw, le_sup_right.trans hle⟩

/-- Optional joins commute and absorb their own repetition. -/
theorem absorbing_joinOpt :
    Absorbing (joinOpt : ExtTreeMap κ ν cmp → Option (κ × ν) → ExtTreeMap κ ν cmp) where
  comm := by
    intro m x y
    rcases x with _ | ⟨k, v⟩ <;> rcases y with _ | ⟨l, w⟩ <;> simp only [joinOpt]
    exact joinAt_comm m k l v w
  idem := by
    intro m x
    rcases x with _ | ⟨k, v⟩ <;> simp only [joinOpt]
    exact joinAt_idem m k v

end JoinAt

end Lib
