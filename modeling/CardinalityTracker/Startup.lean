import CardinalityTracker.HllTheorems
import CardinalityTracker.Recovery

/-!
# Startup inverts persistence

What `LoadAll` makes of any sequence of saves, under any group names, for any callback. The
items it visits are read off the database (`Store.visited`): the key of a group is trimmed back
to the group exactly once, and keys that share the prefix `sketch/` are in the order of their
groups. `loadAll_inverts_save` puts the two directions together: the items are the last saves
of the groups, in the bytewise order of their names.
-/

namespace CardinalityTracker

open Lib

/-! ## Sequences of saves -/

/-- `Save` of each pair in turn. -/
def Store.saveAll (out : ℕ → SaveOutcome) (saves : List (GoString × Bytes)) (st : Store) : Store :=
  saves.foldl (fun st p => (st.save out p.1 p.2).1) st

/-- What was saved last for the group. -/
def lastSaved {β : Type} (saves : List (GoString × β)) (group : GoString) : Option β :=
  (saves.reverse.find? fun p => p.1 = group).map Prod.snd

section LastSaved

variable {β : Type}

theorem lastSaved_concat (saves : List (GoString × β)) (p : GoString × β) (group : GoString) :
    lastSaved (saves ++ [p]) group = if p.1 = group then some p.2 else lastSaved saves group := by
  unfold lastSaved
  rw [List.reverse_append, List.reverse_singleton, List.singleton_append, List.find?_cons]
  by_cases h : p.1 = group <;> simp [h]

/-- A group has a last save when it has been saved. -/
theorem exists_lastSaved_iff (saves : List (GoString × β)) (group : GoString) :
    (∃ b, lastSaved saves group = some b) ↔ group ∈ saves.map Prod.fst := by
  induction saves using List.reverseRecOn with
  | nil => simp [lastSaved]
  | append_singleton saves p ih =>
    rw [lastSaved_concat, List.map_append, List.mem_append, ← ih]
    by_cases h : p.1 = group
    · simp [h]
    · simp [h, Ne.symm h]

/-- The last saves are the bindings of a map that is filled with all of them. -/
theorem getElem?_fill_empty (saves : List (GoString × β)) (group : GoString) :
    (fill (∅ : StringMap β) saves)[group]? = lastSaved saves group := by
  induction saves using List.reverseRecOn with
  | nil => exact Std.ExtTreeMap.getElem?_empty
  | append_singleton saves p ih =>
    have hfill : fill (∅ : StringMap β) (saves ++ [p]) = (fill ∅ saves).insert p.1 p.2 := by
      unfold fill
      rw [List.foldl_append, List.foldl_cons, List.foldl_nil]
    rw [hfill, getElem?_insert_ite, lastSaved_concat, ih]

theorem lastSaved_map {γ : Type} (f : β → γ) (saves : List (GoString × β)) (group : GoString) :
    lastSaved (saves.map fun p => (p.1, f p.2)) group = (lastSaved saves group).map f := by
  unfold lastSaved
  rw [← List.map_reverse, List.find?_map, Option.map_map, Option.map_map]
  rfl

end LastSaved

/-- With saves that succeed, `Load` returns the bytes that were saved last. -/
theorem load_saveAll (saves : List (GoString × Bytes)) (group : GoString) :
    (Store.empty.saveAll (fun _ => .ok) saves).load group = lastSaved saves group := by
  induction saves using List.reverseRecOn with
  | nil => exact Std.ExtTreeMap.getElem?_empty
  | append_singleton saves p ih =>
    have hdb : (Store.empty.saveAll (fun _ => .ok) (saves ++ [p])).db
        = (Store.empty.saveAll (fun _ => .ok) saves).db.insert (key p.1) p.2 := by
      unfold Store.saveAll
      rw [List.foldl_append, List.foldl_cons, List.foldl_nil]
      rfl
    unfold Store.load at ih ⊢
    rw [hdb, getElem?_insert_ite, lastSaved_concat, ih]
    simp only [key_injective.eq_iff]

/-! ## What `LoadAll` visits -/

/-- The items of the iteration, as the callback gets them. -/
def Store.visited (st : Store) : List (GoString × Bytes) :=
  (scan keyPrefix st.db.toList).map fun p => (trimPrefix p.1 keyPrefix, p.2)

/-- Every stored group is visited, with what `Load` returns for it. -/
theorem mem_visited_iff (st : Store) (group : GoString) (b : Bytes) :
    (group, b) ∈ st.visited ↔ st.load group = some b := by
  unfold Store.visited Store.load
  rw [List.mem_map]
  constructor
  · rintro ⟨⟨k, v⟩, hmem, hp⟩
    obtain ⟨hpre, hdb⟩ := (mem_scan_iff st k v).mp hmem
    obtain ⟨rfl, rfl⟩ := Prod.mk.inj hp
    rw [key_trimPrefix hpre, hdb]
  · intro hdb
    refine ⟨(key group, b), (mem_scan_iff st _ _).mpr ⟨keyPrefix_isPrefixOf_key group, hdb⟩, ?_⟩
    rw [trimPrefix_key]

/-- The groups come in the bytewise order of their names, each of them once. -/
theorem visited_sorted (st : Store) :
    st.visited.Pairwise fun p q => compare p.1 q.1 = .lt := by
  have hkeys : (scan keyPrefix st.db.toList).Pairwise fun p q => compare p.1 q.1 = .lt := by
    rw [scan_eq_filter _ Std.ExtTreeMap.ordered_keys_toList]
    exact Std.ExtTreeMap.ordered_keys_toList.filter _
  unfold Store.visited
  rw [List.pairwise_map]
  refine hkeys.imp_of_mem ?_
  rintro ⟨k, v⟩ ⟨k', v'⟩ hp hq hlt
  -- both keys are the prefix and the group
  have hk := key_trimPrefix ((mem_scan_iff st k v).mp hp).1
  have hk' := key_trimPrefix ((mem_scan_iff st k' v').mp hq).1
  rw [← hk, ← hk'] at hlt
  unfold key at hlt
  rwa [compare_append_left] at hlt

section Callback

variable {S ε : Type} (fn : GoString → Bytes → S → S × Option ε)

/-- The state after the callback has been called on the items in turn. -/
def reached (items : List (GoString × Bytes)) (s : S) : S :=
  items.foldl (fun s p => (fn p.1 p.2 s).1) s

/-- None of these calls returns an error. -/
def Silent (items : List (GoString × Bytes)) (s : S) : Prop :=
  ∀ pre p post, items = pre ++ p :: post → (fn p.1 p.2 (reached fn pre s)).2 = none

variable {fn}

theorem loadLoop_cons_of_none {p : Bytes × Bytes} {s : S}
    (h : (fn (trimPrefix p.1 keyPrefix) p.2 s).2 = none) (l : List (Bytes × Bytes)) :
    loadLoop fn (p :: l) s = loadLoop fn l (fn (trimPrefix p.1 keyPrefix) p.2 s).1 := by
  rcases hcall : fn (trimPrefix p.1 keyPrefix) p.2 s with ⟨s', err⟩
  rw [hcall] at h
  obtain rfl : err = none := h
  rw [loadLoop, hcall]

theorem loadLoop_cons_of_some {p : Bytes × Bytes} {s : S} {err : ε}
    (h : (fn (trimPrefix p.1 keyPrefix) p.2 s).2 = some err) (l : List (Bytes × Bytes)) :
    loadLoop fn (p :: l) s = ((fn (trimPrefix p.1 keyPrefix) p.2 s).1, some err) := by
  rcases hcall : fn (trimPrefix p.1 keyPrefix) p.2 s with ⟨s', err'⟩
  rw [hcall] at h
  obtain rfl : err' = some err := h
  rw [loadLoop, hcall]

theorem Silent.tail {p : GoString × Bytes} {items : List (GoString × Bytes)} {s : S}
    (h : Silent fn (p :: items) s) : Silent fn items (fn p.1 p.2 s).1 := by
  intro pre q post hitems
  exact h (p :: pre) q post (by rw [hitems, List.cons_append])

/-- The loop goes through all items when no call fails. -/
theorem loadLoop_of_silent {l : List (Bytes × Bytes)} {s : S}
    (h : Silent fn (l.map fun p => (trimPrefix p.1 keyPrefix, p.2)) s) :
    loadLoop fn l s = (reached fn (l.map fun p => (trimPrefix p.1 keyPrefix, p.2)) s, none) := by
  induction l generalizing s with
  | nil => rfl
  | cons p l ih =>
    have hp : (fn (trimPrefix p.1 keyPrefix) p.2 s).2 = none := h [] _ _ rfl
    rw [loadLoop_cons_of_none hp, ih h.tail]
    rfl

/-- The first call that fails ends the loop, and its error is returned. -/
theorem loadLoop_of_error {l : List (Bytes × Bytes)} {s : S}
    {pre post : List (GoString × Bytes)} {q : GoString × Bytes} {err : ε}
    (hl : (l.map fun p => (trimPrefix p.1 keyPrefix, p.2)) = pre ++ q :: post)
    (hsilent : Silent fn pre s) (herr : (fn q.1 q.2 (reached fn pre s)).2 = some err) :
    loadLoop fn l s = (reached fn (pre ++ [q]) s, some err) := by
  induction pre generalizing l s with
  | nil =>
    obtain ⟨p, l', rfl, hp, -⟩ := List.map_eq_cons_iff.mp hl
    subst hp
    rw [loadLoop_cons_of_some herr]
    rfl
  | cons x pre ih =>
    obtain ⟨p, l', rfl, hp, hl'⟩ := List.map_eq_cons_iff.mp hl
    subst hp
    have hx : (fn (trimPrefix p.1 keyPrefix) p.2 s).2 = none := hsilent [] _ _ rfl
    rw [loadLoop_cons_of_none hx, ih hl' hsilent.tail herr]
    rfl

end Callback

/-- No group is visited twice or left out, so the items are as many as the groups saved. -/
theorem length_visited_saveAll (saves : List (GoString × Bytes)) :
    (Store.empty.saveAll (fun _ => .ok) saves).visited.length
      = (saves.map Prod.fst).dedup.length := by
  set st := Store.empty.saveAll (fun _ => .ok) saves with hst
  have hnodup : (st.visited.map Prod.fst).Nodup := by
    refine List.pairwise_map.mpr ((visited_sorted st).imp fun {p q} hlt heq => ?_)
    rw [heq, Std.compare_self] at hlt
    cases hlt
  have hmem : ∀ group, group ∈ st.visited.map Prod.fst ↔ group ∈ (saves.map Prod.fst).dedup := by
    intro group
    rw [List.mem_dedup, ← exists_lastSaved_iff saves, ← load_saveAll saves, ← hst]
    simp [mem_visited_iff]
  have hperm := (List.perm_ext_iff_of_nodup hnodup (List.nodup_dedup _)).mpr hmem
  rw [← List.length_map Prod.fst]
  exact hperm.length_eq

/-- **Startup inverts persistence.** After any sequence of saves of HLL sketches under any
group names, with saves that succeed, there is a list of items, the last saved bytes of each
group, once for each group and in the bytewise order of the names, such that:

* `Load` agrees with it;
* `LoadAll` calls any callback on the items in turn, until a call returns an error, which it
  returns;
* the startup loop builds the engine with exactly these groups and their sketches, and counts
  the groups. -/
theorem loadAll_inverts_save (sum64 : Bytes → UInt64) (saves : List (GoString × Hll.Sketch)) :
    ∃ (st : Store) (items : List (GoString × Bytes)),
      st = Store.empty.saveAll (fun _ => .ok) (saves.map fun p => (p.1, p.2.bytes)) ∧
      items.Pairwise (fun p q => compare p.1 q.1 = .lt) ∧
      (∀ group b, (group, b) ∈ items ↔ (lastSaved saves group).map Hll.Sketch.bytes = some b) ∧
      (∀ group, st.load group = (lastSaved saves group).map Hll.Sketch.bytes) ∧
      (∀ (S ε : Type) (fn : GoString → Bytes → S → S × Option ε) (s : S),
        (Silent fn items s → st.loadAll fn s = (reached fn items s, none)) ∧
        ∀ pre q post err, items = pre ++ q :: post → Silent fn pre s →
          (fn q.1 q.2 (reached fn pre s)).2 = some err →
          st.loadAll fn s = (reached fn (pre ++ [q]) s, some err)) ∧
      ∃ engine : Engine (Hll.algorithm sum64),
        restoreAll (Hll.algorithm sum64) st
          = ((engine, (saves.map Prod.fst).dedup.length), none) ∧
        ∀ group, engine.groups[group]? = lastSaved saves group := by
  set st := Store.empty.saveAll (fun _ => .ok) (saves.map fun p => (p.1, p.2.bytes)) with hst
  have hload : ∀ group, st.load group = (lastSaved saves group).map Hll.Sketch.bytes := by
    intro group
    rw [hst, load_saveAll, lastSaved_map]
  have hholds : st.Holds (Hll.algorithm sum64) (fill ∅ saves) := by
    intro group
    rw [getElem?_fill_empty]
    exact hload group
  refine ⟨st, st.visited, rfl, visited_sorted st, fun group b => ?_, hload, fun S ε fn s => ?_,
    ⟨fill ∅ saves⟩, ?_, getElem?_fill_empty saves⟩
  · rw [mem_visited_iff, hload]
  · exact ⟨loadLoop_of_silent, fun pre q post err => loadLoop_of_error⟩
  · have hcount := length_visited_saveAll (saves.map fun p => (p.1, p.2.bytes))
    rw [← hst, List.map_map] at hcount
    rw [restoreAll_of_holds (Hll.isJoin sum64) hholds]
    unfold Store.visited at hcount
    rw [List.length_map] at hcount
    rw [hcount]
    rfl

end CardinalityTracker
