import CardinalityTracker.EngineTheorems
import CardinalityTracker.Lib.Selection

/-!
# The per-group metrics (`internal/server/collector.go`)

`EngineCollector.Collect` reads the estimate of every group and exports the largest ones. It
ranges over two maps, in any orders, and sorts with `sort.Slice`, which is not stable: the
model takes any `RangeOrder` and any `Lib.Sorter`. The metrics come out in the order in which
they are sent on the channel.
-/

namespace CardinalityTracker

open Lib

variable {σ : Type} {alg : Algorithm σ}

/-- `Engine.CardinalityAll`: the estimate of every group. -/
def Engine.cardinalityAll (order : RangeOrder) (e : Engine alg) : StringMap UInt64 :=
  (order.range e.groups).foldl (fun out p => out.insert p.1 (alg.cardinality p.2)) ∅

/-- The gauges of the collector. Their values are `float64`, converted as in the source. -/
inductive Metric
  /-- `cardinality_tracker_groups_dropped`. -/
  | groupsDropped (value : Float)
  /-- `cardinality_tracker_engine_groups`. -/
  | engineGroups (value : Float)
  /-- `cardinality_tracker_group_cardinality`, with its label. -/
  | groupCardinality (value : Float) (group : GoString)

/-- `EngineCollector`. -/
structure EngineCollector (alg : Algorithm σ) where
  engine : Engine alg
  maxGroups : ℤ

/-- `all[group]`: a missing group reads as zero. -/
def estimateIn (all : StringMap UInt64) (group : GoString) : UInt64 := all[group]?.getD 0

/-- The comparison of `Collect`: the larger estimate first, and the smaller name among equal
estimates. -/
def collectLess (all : StringMap UInt64) (a b : GoString) : Bool :=
  if estimateIn all a ≠ estimateIn all b then estimateIn all a > estimateIn all b
  else compare a b == .lt

/-- `Collect`, on the map that `CardinalityAll` has returned. -/
def collectAll (sorter : Sorter) (order : RangeOrder) (maxGroups : ℤ) (all : StringMap UInt64) :
    List Metric :=
  let groups := (order.range all).map Prod.fst
  let (dropped, groups) : ℤ × List GoString :=
    if 0 < maxGroups ∧ maxGroups < groups.length then
      (groups.length - maxGroups, (sorter.sort (collectLess all) groups).take maxGroups.toNat)
    else (0, groups)
  .groupsDropped (Float.ofInt dropped) :: .engineGroups (Float.ofNat all.size) ::
    groups.map fun group => .groupCardinality (estimateIn all group).toFloat group

/-- `EngineCollector.Collect`. -/
def EngineCollector.collect (c : EngineCollector alg) (sorter : Sorter)
    (order order' : RangeOrder) : List Metric :=
  collectAll sorter order' c.maxGroups (c.engine.cardinalityAll order)

/-! ## The map of estimates -/

theorem getElem?_cardinalityAll (order : RangeOrder) (e : Engine alg) (group : GoString) :
    (e.cardinalityAll order)[group]? = e.groups[group]?.map alg.cardinality := by
  have h := Engine.getElem?_fill_range order e.groups (fun p => alg.cardinality p.2) group
  unfold fill at h
  rw [List.foldl_map] at h
  exact h

/-- The map does not depend on the order in which it was filled. -/
theorem cardinalityAll_eq_map (order : RangeOrder) (e : Engine alg) :
    e.cardinalityAll order = e.groups.map fun _ sk => alg.cardinality sk := by
  refine Std.ExtTreeMap.ext_getElem? fun group => ?_
  rw [getElem?_cardinalityAll, Std.ExtTreeMap.getElem?_map]

/-- The names in the order of a range. -/
theorem names_perm (order : RangeOrder) {ν : Type} (m : StringMap ν) :
    ((order.range m).map Prod.fst).Perm m.keys := by
  rw [← Std.ExtTreeMap.map_fst_toList_eq_keys]
  exact (order.perm m).map Prod.fst

/-! ## The comparison -/

theorem collectLess_iff (all : StringMap UInt64) (a b : GoString) :
    collectLess all a b = true ↔ estimateIn all b < estimateIn all a ∨
      estimateIn all a = estimateIn all b ∧ compare a b = .lt := by
  unfold collectLess
  by_cases h : estimateIn all a = estimateIn all b
  · simp [h]
  · simp [h]

/-- Two groups with the same estimate have different names. -/
theorem separates_collectLess (all : StringMap UInt64) : Separates (collectLess all) := by
  intro a b hab hba
  rw [← Bool.not_eq_true, collectLess_iff, not_or, not_and, UInt64.not_lt] at hab hba
  have hest : estimateIn all a = estimateIn all b := UInt64.le_antisymm hab.1 hba.1
  have hlt := hab.2 hest
  have hgt := hba.2 hest.symm
  cases hcmp : compare a b with
  | lt => exact absurd hcmp hlt
  | eq => exact Std.LawfulEqCmp.eq_of_compare hcmp
  | gt => exact absurd (Std.OrientedCmp.lt_of_gt hcmp) hgt

theorem isLess_collectLess (all : StringMap UInt64) : IsLess (collectLess all) := by
  refine (separates_collectLess all).isLess (fun a => ?_) (fun a b c hab hbc => ?_)
  · rw [← Bool.not_eq_true, collectLess_iff]
    simp
  · rw [collectLess_iff] at hab hbc ⊢
    rcases hab with hab | ⟨hab, hab'⟩
    · rcases hbc with hbc | ⟨hbc, -⟩
      · exact Or.inl (UInt64.lt_trans hbc hab)
      · exact Or.inl (hbc ▸ hab)
    · rcases hbc with hbc | ⟨hbc, hbc'⟩
      · exact Or.inl (hab ▸ hbc)
      · exact Or.inr ⟨hab.trans hbc, Std.TransCmp.lt_trans hab' hbc'⟩

/-! ## The export -/

/-- The groups that are exported, from the names in any order. -/
def chosenGroups (maxGroups : ℤ) (all : StringMap UInt64) (sorter : Sorter)
    (names : List GoString) : List GoString :=
  if 0 < maxGroups ∧ maxGroups < names.length then
    (sorter.sort (collectLess all) names).take maxGroups.toNat
  else names

section Chosen

variable {maxGroups : ℤ} {all : StringMap UInt64} {sorter sorter' : Sorter}
  {names names' : List GoString}

/-- Another sort or another order of the names exports the same groups. -/
theorem chosenGroups_perm (hperm : names.Perm names') :
    (chosenGroups maxGroups all sorter names).Perm
      (chosenGroups maxGroups all sorter' names') := by
  unfold chosenGroups
  rw [hperm.length_eq]
  by_cases hcap : 0 < maxGroups ∧ maxGroups < names'.length
  · rw [if_pos hcap, if_pos hcap,
      sorter.sort_eq sorter' (isLess_collectLess all) (separates_collectLess all) hperm]
  · rw [if_neg hcap, if_neg hcap]
    exact hperm

theorem chosenGroups_subperm : (chosenGroups maxGroups all sorter names).Subperm names := by
  unfold chosenGroups
  split
  · exact (List.take_sublist _ _).subperm.trans (sorter.perm _ names).subperm
  · exact List.Subperm.refl names

theorem nodup_chosenGroups (h : names.Nodup) :
    (chosenGroups maxGroups all sorter names).Nodup := by
  obtain ⟨l, hperm, hsub⟩ : (chosenGroups maxGroups all sorter names).Subperm names :=
    chosenGroups_subperm
  exact hperm.nodup_iff.mp (h.sublist hsub)

/-- No group that is left out comes before one that is exported. -/
theorem not_less_of_mem_chosenGroups {a b : GoString}
    (ha : a ∈ chosenGroups maxGroups all sorter names) (hb : b ∈ names)
    (hb' : b ∉ chosenGroups maxGroups all sorter names) : collectLess all b a = false := by
  unfold chosenGroups at ha hb'
  by_cases hcap : 0 < maxGroups ∧ maxGroups < names.length
  · rw [if_pos hcap] at ha hb'
    exact sorter.not_less_of_mem_take (isLess_collectLess all) ha hb hb'
  · rw [if_neg hcap] at hb'
    exact absurd hb hb'

theorem length_chosenGroups :
    (chosenGroups maxGroups all sorter names).length
      = if 0 < maxGroups then min maxGroups.toNat names.length else names.length := by
  unfold chosenGroups
  by_cases hcap : 0 < maxGroups ∧ maxGroups < names.length
  · rw [if_pos hcap, if_pos hcap.1, List.length_take, (sorter.perm _ names).length_eq]
  · rw [if_neg hcap]
    split <;> omega

end Chosen

/-- What `Collect` sends, by the groups it exports. -/
theorem collectAll_eq (sorter : Sorter) (order : RangeOrder) (maxGroups : ℤ)
    (all : StringMap UInt64) {groups : List GoString}
    (hgroups : groups = chosenGroups maxGroups all sorter ((order.range all).map Prod.fst)) :
    collectAll sorter order maxGroups all
      = .groupsDropped (Float.ofInt (all.size - groups.length : ℕ))
        :: .engineGroups (Float.ofNat all.size)
        :: groups.map fun group => .groupCardinality (estimateIn all group).toFloat group := by
  have hlen : ((order.range all).map Prod.fst).length = all.size := by
    rw [(names_perm order all).length_eq, Std.ExtTreeMap.length_keys]
  have hdropped : ((all.size - groups.length : ℕ) : ℤ)
      = if 0 < maxGroups ∧ maxGroups < all.size then all.size - maxGroups else 0 := by
    rw [hgroups, length_chosenGroups, hlen]
    split <;> split <;> omega
  rw [hdropped, hgroups]
  unfold collectAll chosenGroups
  simp only [hlen]
  by_cases hcap : 0 < maxGroups ∧ maxGroups < all.size
  · simp only [if_pos hcap]
  · simp only [if_neg hcap]

/-- The estimate of a group of the engine, and zero for a group that it does not hold. -/
def Engine.estimate (e : Engine alg) (group : GoString) : UInt64 :=
  (e.groups[group]?.map alg.cardinality).getD 0

/-- The map `CardinalityAll` returns holds the estimates of the engine's groups. -/
theorem estimateIn_estimates (e : Engine alg) (group : GoString) :
    estimateIn (e.groups.map fun _ sk => alg.cardinality sk) group = e.estimate group := by
  unfold estimateIn Engine.estimate
  rw [Std.ExtTreeMap.getElem?_map]

theorem mem_keys_estimates_iff (e : Engine alg) (group : GoString) :
    group ∈ (e.groups.map fun _ sk => alg.cardinality sk).keys
      ↔ ∃ sk, e.groups[group]? = some sk := by
  rw [Std.ExtTreeMap.keys_map, Std.ExtTreeMap.mem_keys, Std.ExtTreeMap.mem_iff_isSome_getElem?,
    Option.isSome_iff_exists]

/-- What `Collect` sends, with any sort and any orders, up to the order of the groups. -/
theorem collect_eq (c : EngineCollector alg) {all : StringMap UInt64}
    (hall : all = c.engine.groups.map fun _ sk => alg.cardinality sk)
    (sorter sorter' : Sorter) (order order' : RangeOrder) :
    ∃ groups : List GoString,
      groups.Perm (chosenGroups c.maxGroups all sorter' all.keys) ∧
      c.collect sorter order order'
        = .groupsDropped (Float.ofInt (all.size - groups.length : ℕ))
          :: .engineGroups (Float.ofNat all.size)
          :: groups.map fun group => .groupCardinality (c.engine.estimate group).toFloat group := by
  refine ⟨chosenGroups c.maxGroups all sorter ((order'.range all).map Prod.fst),
    chosenGroups_perm (names_perm order' all), ?_⟩
  unfold EngineCollector.collect
  rw [cardinalityAll_eq_map, ← hall, collectAll_eq sorter order' c.maxGroups all rfl]
  simp only [hall, estimateIn_estimates]

/-- **The export is a top-N**, the same for every iteration order and every sort. There are a
set of groups and a number, such that `Collect` sends the number of dropped groups, the number
of groups, and each group of the set once with its estimate. The set has exactly `maxGroups`
groups when `maxGroups` is positive and there are that many, and all groups otherwise; no group
that is dropped has a larger estimate than an exported one, or the same estimate and a smaller
name. -/
theorem collect_topN (c : EngineCollector alg) :
    ∃ (exported : Finset GoString) (dropped : ℕ),
      (∀ (sorter : Sorter) (order order' : RangeOrder), ∃ groups : List GoString,
        groups.Nodup ∧ groups.toFinset = exported ∧
        c.collect sorter order order'
          = .groupsDropped (Float.ofInt dropped)
            :: .engineGroups (Float.ofNat c.engine.groups.size)
            :: groups.map fun group =>
                .groupCardinality (c.engine.estimate group).toFloat group) ∧
      (∀ group ∈ exported, ∃ sk, c.engine.groups[group]? = some sk) ∧
      exported.card + dropped = c.engine.groups.size ∧
      (0 < c.maxGroups → (exported.card : ℤ) = min c.maxGroups c.engine.groups.size) ∧
      (c.maxGroups ≤ 0 → ∀ group sk, c.engine.groups[group]? = some sk → group ∈ exported) ∧
      ∀ group ∈ exported, ∀ other sk, c.engine.groups[other]? = some sk → other ∉ exported →
        ¬ c.engine.estimate group < c.engine.estimate other ∧
          ¬ (c.engine.estimate other = c.engine.estimate group ∧ compare other group = .lt) := by
  set all := c.engine.groups.map fun _ sk => alg.cardinality sk with hall
  have hsize : all.size = c.engine.groups.size := Std.ExtTreeMap.size_map
  -- one sort and one order stand for all of them
  set chosen := chosenGroups c.maxGroups all Sorter.insertion all.keys with hchosen
  have hlen : chosen.length
      = if 0 < c.maxGroups then min c.maxGroups.toNat all.size else all.size := by
    rw [hchosen, length_chosenGroups, Std.ExtTreeMap.length_keys]
  have hcard : chosen.toFinset.card = chosen.length :=
    List.toFinset_card_of_nodup (nodup_chosenGroups Std.ExtTreeMap.nodup_keys)
  refine ⟨chosen.toFinset, all.size - chosen.length, fun sorter order order' => ?_,
    fun group hgroup => ?_, ?_, fun hpos => ?_, fun hneg group sk hsk => ?_,
    fun group hgroup other sk hother hdropped => ?_⟩
  · obtain ⟨groups, hperm, hcollect⟩ := collect_eq c hall sorter Sorter.insertion order order'
    refine ⟨groups, hperm.nodup_iff.mpr (nodup_chosenGroups Std.ExtTreeMap.nodup_keys),
      List.toFinset_eq_of_perm _ _ hperm, ?_⟩
    rw [hcollect, hperm.length_eq, hsize]
  · rw [List.mem_toFinset] at hgroup
    exact (mem_keys_estimates_iff c.engine group).mp (chosenGroups_subperm.subset hgroup)
  · rw [hcard, ← hsize, hlen]
    split <;> omega
  · rw [hcard, hlen, if_pos hpos, hsize]
    omega
  · have hall' : chosen = all.keys := if_neg fun hcap => absurd hcap.1 (not_lt.mpr hneg)
    rw [List.mem_toFinset, hall']
    exact (mem_keys_estimates_iff c.engine group).mpr ⟨sk, hsk⟩
  · rw [List.mem_toFinset] at hgroup hdropped
    have hless := not_less_of_mem_chosenGroups hgroup
      ((mem_keys_estimates_iff c.engine other).mpr ⟨sk, hother⟩) hdropped
    rw [← Bool.not_eq_true, collectLess_iff, not_or, estimateIn_estimates,
      estimateIn_estimates] at hless
    exact hless

end CardinalityTracker
