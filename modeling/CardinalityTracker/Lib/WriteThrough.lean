import CardinalityTracker.Lib.JoinFold
import CardinalityTracker.Lib.Runs

/-!
# A live map and its stored copy

A process keeps a map in memory and copies single keys of it to durable storage. An update
joins something into one key (or into none) and may or may not flush that key afterwards; a
restart replaces the live map by the stored one. What can be said of such a pair at every
point of every run is collected here:

* `Copies.Below`: a stored value never exceeds the live one;
* `Copies.Durable`: what has been flushed once is never lost again;
* `Copies.Bounded`: nothing is live that was not joined;
* `Copies.Maps`: a map that keeps joins can be taken before the updates or after them;
* `Copies.coherentAt_iff`: after a run of updates from a coherent state, the two maps agree
  on a key exactly when every unflushed join into it was flushed later or changed nothing.
-/

namespace Lib

open Std

variable {κ ν : Type} {cmp : κ → κ → Ordering}

/-- The live map and the stored one. -/
structure Copies (κ ν : Type) (cmp : κ → κ → Ordering) where
  live : ExtTreeMap κ ν cmp
  stored : ExtTreeMap κ ν cmp

/-- Join `content` into `key`, then copy the key to the store if `flush` says so. -/
structure Update (κ ν : Type) where
  key : κ
  content : Option ν
  flush : Bool

/-- The same update with the image of its content. -/
def Update.map {μ : Type} (f : ν → μ) (u : Update κ ν) : Update κ μ :=
  ⟨u.key, u.content.map f, u.flush⟩

/-- The optional join that an update makes. -/
def Update.joins (u : Update κ ν) : Option (κ × ν) := u.content.map fun v => (u.key, v)

section

variable [TransCmp cmp] [LawfulEqCmp cmp] [SemilatticeSup ν] [OrderBot ν]

/-- Copy the live value of `k`, if there is one. -/
def flushInto (live stored : ExtTreeMap κ ν cmp) (k : κ) : ExtTreeMap κ ν cmp :=
  match live[k]? with
  | none => stored
  | some v => stored.insert k v

/-- One update. -/
def Copies.apply (c : Copies κ ν cmp) (u : Update κ ν) : Copies κ ν cmp :=
  let live := joinOpt c.live u.joins
  ⟨live, if u.flush then flushInto live c.stored u.key else c.stored⟩

/-- The process restarts from what is stored. -/
def Copies.restart (c : Copies κ ν cmp) : Copies κ ν cmp := ⟨c.stored, c.stored⟩

/-- Every stored value is at most the live one, whose key is then present. -/
def Copies.Below (c : Copies κ ν cmp) : Prop :=
  ∀ (k : κ) (w : ν), c.stored[k]? = some w → ∃ v, c.live[k]? = some v ∧ w ≤ v

/-! ## Lookups after an update -/

omit [LawfulEqCmp cmp] [SemilatticeSup ν] [OrderBot ν] in
theorem getElem?_flushInto_self {live : ExtTreeMap κ ν cmp} {k : κ} {v : ν}
    (h : live[k]? = some v) (stored : ExtTreeMap κ ν cmp) :
    (flushInto live stored k)[k]? = some v := by
  unfold flushInto
  rw [h]
  exact ExtTreeMap.getElem?_insert_self

omit [SemilatticeSup ν] [OrderBot ν] in
theorem getElem?_flushInto_of_ne (live stored : ExtTreeMap κ ν cmp) {k k' : κ} (h : k ≠ k') :
    (flushInto live stored k)[k']? = stored[k']? := by
  classical
  unfold flushInto
  cases live[k]? with
  | none => rfl
  | some v => simp only [getElem?_insert_ite, if_neg h]

namespace Copies

variable {c : Copies κ ν cmp} {u : Update κ ν} {k : κ}

omit [LawfulEqCmp cmp] in
theorem stored_apply_of_flush (h : u.flush = true) :
    (c.apply u).stored = flushInto (c.apply u).live c.stored u.key := if_pos h

omit [LawfulEqCmp cmp] in
theorem stored_apply_of_not_flush (h : u.flush = false) : (c.apply u).stored = c.stored := by
  unfold apply
  rw [h]
  rfl

omit [LawfulEqCmp cmp] in
theorem live_apply_of_content {v : ν} (hv : u.content = some v) :
    (c.apply u).live[u.key]? = some (value c.live u.key ⊔ v) := by
  unfold apply Update.joins
  rw [hv]
  exact getElem?_joinAt_self c.live u.key v

omit [LawfulEqCmp cmp] in
/-- The live map after a run of updates is the fold of their joins. -/
theorem live_foldl_apply (us : List (Update κ ν)) (c : Copies κ ν cmp) :
    (us.foldl apply c).live = (us.map Update.joins).foldl joinOpt c.live := by
  induction us generalizing c with
  | nil => rfl
  | cons u us ih => exact ih (c.apply u)

/-- An update of one key leaves every other key alone, live and stored. -/
theorem apply_of_ne (c : Copies κ ν cmp) (h : u.key ≠ k) :
    (c.apply u).live[k]? = c.live[k]? ∧ (c.apply u).stored[k]? = c.stored[k]? := by
  constructor
  · unfold apply Update.joins
    cases u.content with
    | none => rfl
    | some v => exact getElem?_joinAt_of_ne c.live h v
  · cases hflush : u.flush with
    | false => rw [stored_apply_of_not_flush hflush]
    | true => rw [stored_apply_of_flush hflush, getElem?_flushInto_of_ne _ _ h]

/-- Live values only grow. -/
theorem live_mono (u : Update κ ν) {v : ν} (h : c.live[k]? = some v) :
    ∃ v', (c.apply u).live[k]? = some v' ∧ v ≤ v' :=
  getElem?_joinOpt_mono h u.joins

/-! ## The stored copy stays below -/

theorem below_apply (hbelow : c.Below) (u : Update κ ν) : (c.apply u).Below := by
  intro k w hw
  -- a value that was stored before the update is still below the live one
  have hold : c.stored[k]? = some w → ∃ v, (c.apply u).live[k]? = some v ∧ w ≤ v := by
    intro hw
    obtain ⟨v, hv, hwv⟩ := hbelow k w hw
    obtain ⟨v', hv', hvv'⟩ := live_mono u hv
    exact ⟨v', hv', hwv.trans hvv'⟩
  cases hflush : u.flush with
  | false =>
    rw [stored_apply_of_not_flush hflush] at hw
    exact hold hw
  | true =>
    by_cases hk : u.key = k
    · subst hk
      rw [stored_apply_of_flush hflush] at hw
      cases hlive : (c.apply u).live[u.key]? with
      | none =>
        -- there is nothing to copy
        unfold flushInto at hw
        rw [hlive] at hw
        rw [← hlive]
        exact hold hw
      | some v =>
        rw [getElem?_flushInto_self hlive, Option.some.injEq] at hw
        exact ⟨v, rfl, hw.ge⟩
    · rw [(c.apply_of_ne hk).2] at hw
      exact hold hw

theorem below_foldl_apply (hbelow : c.Below) (us : List (Update κ ν)) :
    (us.foldl apply c).Below := by
  induction us generalizing c with
  | nil => exact hbelow
  | cons u us ih => exact ih (below_apply hbelow u)

omit [LawfulEqCmp cmp] [OrderBot ν] in
theorem below_restart (c : Copies κ ν cmp) : c.restart.Below :=
  fun _ w hw => ⟨w, hw, le_rfl⟩

omit [LawfulEqCmp cmp] in
theorem Below.value_le (hbelow : c.Below) (k : κ) : value c.stored k ≤ value c.live k := by
  cases hw : c.stored[k]? with
  | none =>
    rw [value_of_none hw]
    exact bot_le
  | some w =>
    obtain ⟨v, hv, hwv⟩ := hbelow k w hw
    rw [value_of_getElem? hw, value_of_getElem? hv]
    exact hwv

/-! ## What has been stored stays stored -/

/-- The stored value of `k` is at least `v`. -/
def Durable (c : Copies κ ν cmp) (k : κ) (v : ν) : Prop := ∃ w, c.stored[k]? = some w ∧ v ≤ w

omit [LawfulEqCmp cmp] in
/-- A flush makes durable what it has just joined. -/
theorem durable_of_flush (hflush : u.flush = true) {v : ν} (hv : u.content = some v) :
    (c.apply u).Durable u.key v := by
  refine ⟨value c.live u.key ⊔ v, ?_, le_sup_right⟩
  rw [stored_apply_of_flush hflush, getElem?_flushInto_self (live_apply_of_content hv)]

/-- An update overwrites a stored value only by a larger one: the live value, which is above
it. -/
theorem Durable.apply (hbelow : c.Below) {v : ν} (h : c.Durable k v) (u : Update κ ν) :
    (c.apply u).Durable k v := by
  obtain ⟨w, hw, hvw⟩ := h
  cases hflush : u.flush with
  | false => exact ⟨w, by rw [stored_apply_of_not_flush hflush, hw], hvw⟩
  | true =>
    by_cases hk : u.key = k
    · -- the value is overwritten by the live one
      subst hk
      obtain ⟨x, hx, hwx⟩ := hbelow u.key w hw
      obtain ⟨x', hx', hxx'⟩ := live_mono u hx
      refine ⟨x', ?_, hvw.trans (hwx.trans hxx')⟩
      rw [stored_apply_of_flush hflush, getElem?_flushInto_self hx']
    · exact ⟨w, by rw [(c.apply_of_ne hk).2, hw], hvw⟩

theorem Durable.foldl_apply (hbelow : c.Below) {v : ν} (h : c.Durable k v)
    (us : List (Update κ ν)) : (us.foldl Copies.apply c).Durable k v := by
  induction us generalizing c with
  | nil => exact h
  | cons u us ih => exact ih (below_apply hbelow u) (h.apply hbelow u)

/-- **What one update makes durable**: what was durable before, and when it flushes its key,
all that is live under that key by then. -/
theorem durable_apply_iff (hbelow : c.Below) (u : Update κ ν) {v : ν} :
    (c.apply u).Durable k v
      ↔ c.Durable k v ∨
        u.key = k ∧ u.flush = true ∧ ∃ w, (c.apply u).live[k]? = some w ∧ v ≤ w := by
  constructor
  · intro h
    obtain ⟨w, hw, hvw⟩ := h
    by_cases hu : u.key = k ∧ u.flush = true
    · right
      obtain ⟨x, hx, hvx⟩ := (below_apply hbelow u) k w hw
      exact ⟨hu.1, hu.2, x, hx, hvw.trans hvx⟩
    · -- the stored value of `k` is the old one
      left
      cases hflush : u.flush with
      | false =>
        rw [stored_apply_of_not_flush hflush] at hw
        exact ⟨w, hw, hvw⟩
      | true =>
        have hk : u.key ≠ k := fun hk => hu ⟨hk, hflush⟩
        rw [(c.apply_of_ne hk).2] at hw
        exact ⟨w, hw, hvw⟩
  · rintro (h | ⟨rfl, hflush, w, hw, hvw⟩)
    · exact h.apply hbelow u
    · refine ⟨w, ?_, hvw⟩
      rw [stored_apply_of_flush hflush, getElem?_flushInto_self hw]

/-- After a run of updates, what one of them has flushed is durable. -/
theorem durable_foldl_of_mem (hbelow : c.Below) {us : List (Update κ ν)} (hmem : u ∈ us)
    (hflush : u.flush = true) {v : ν} (hv : u.content = some v) :
    (us.foldl apply c).Durable u.key v := by
  obtain ⟨pre, post, rfl⟩ := List.append_of_mem hmem
  rw [List.foldl_append, List.foldl_cons]
  have hbelow' := below_apply (below_foldl_apply hbelow pre) u
  have hflushed : ((pre.foldl apply c).apply u).Durable u.key v := durable_of_flush hflush hv
  exact hflushed.foldl_apply hbelow' post

omit [LawfulEqCmp cmp] in
theorem Durable.le_value {v : ν} (h : c.Durable k v) : v ≤ value c.stored k := by
  obtain ⟨w, hw, hvw⟩ := h
  rw [value_of_getElem? hw]
  exact hvw

omit [LawfulEqCmp cmp] [OrderBot ν] in
/-- What is durable is live. -/
theorem Durable.live (hbelow : c.Below) {v : ν} (h : c.Durable k v) :
    ∃ x, c.live[k]? = some x ∧ v ≤ x := by
  obtain ⟨w, hw, hvw⟩ := h
  obtain ⟨x, hx, hwx⟩ := hbelow k w hw
  exact ⟨x, hx, hvw.trans hwx⟩

/-! ## Nothing comes from nowhere -/

/-- No live value exceeds what `bound` allows for its key. -/
def Bounded (c : Copies κ ν cmp) (bound : κ → ν) : Prop := ∀ k, value c.live k ≤ bound k

theorem Bounded.apply {bound : κ → ν} (h : c.Bounded bound)
    (hu : ∀ v, u.content = some v → v ≤ bound u.key) : (c.apply u).Bounded bound := by
  intro k
  unfold Copies.apply Update.joins
  cases hcontent : u.content with
  | none => exact h k
  | some v =>
    show value (joinAt c.live u.key v) k ≤ bound k
    by_cases hk : u.key = k
    · rw [← hk, value_joinAt_self]
      exact sup_le (h u.key) (hu v hcontent)
    · rw [value_joinAt_of_ne _ hk]
      exact h k

omit [LawfulEqCmp cmp] in
theorem Bounded.mono {bound bound' : κ → ν} (h : c.Bounded bound) (hle : ∀ k, bound k ≤ bound' k) :
    c.Bounded bound' :=
  fun k => (h k).trans (hle k)

omit [LawfulEqCmp cmp] in
/-- A restart only lowers the live values. -/
theorem Bounded.restart {bound : κ → ν} (h : c.Bounded bound) (hbelow : c.Below) :
    c.restart.Bounded bound :=
  fun k => (hbelow.value_le k).trans (h k)

/-! ## Images -/

section Images

variable {μ : Type} [SemilatticeSup μ] [OrderBot μ] {f : SupBotHom ν μ} {d : Copies κ μ cmp}

/-- The pair `d` has the keys of `c`, with the images of its values. -/
structure Maps (f : SupBotHom ν μ) (c : Copies κ ν cmp) (d : Copies κ μ cmp) : Prop where
  live : ∀ k : κ, d.live[k]? = c.live[k]?.map f
  stored : ∀ k : κ, d.stored[k]? = c.stored[k]?.map f

omit [LawfulEqCmp cmp] in
theorem Maps.value_live (h : c.Maps f d) (k : κ) : value d.live k = f (value c.live k) := by
  unfold value
  rw [h.live]
  cases c.live[k]? with
  | none => exact (map_bot f).symm
  | some v => rfl

theorem Maps.live_apply (h : c.Maps f d) (u : Update κ ν) (k : κ) :
    (d.apply (u.map f)).live[k]? = (c.apply u).live[k]?.map f := by
  by_cases hk : u.key = k
  · subst hk
    cases hu : u.content with
    | none =>
      unfold apply Update.joins Update.map
      rw [hu]
      exact h.live u.key
    | some v =>
      have hmap : (u.map f).content = some (f v) := congrArg (Option.map f) hu
      have hlive : (d.apply (u.map f)).live[u.key]? = some (value d.live u.key ⊔ f v) :=
        live_apply_of_content hmap
      rw [hlive, live_apply_of_content hu, h.value_live, Option.map_some, map_sup]
  · have hne : (u.map f).key ≠ k := hk
    rw [(c.apply_of_ne hk).1, (d.apply_of_ne hne).1, h.live]

/-- Joining and flushing commute with the map. -/
theorem Maps.apply (h : c.Maps f d) (u : Update κ ν) : (c.apply u).Maps f (d.apply (u.map f)) := by
  refine ⟨h.live_apply u, fun k => ?_⟩
  cases hflush : u.flush with
  | false =>
    have hmap : (u.map f).flush = false := hflush
    rw [stored_apply_of_not_flush hflush, stored_apply_of_not_flush hmap, h.stored]
  | true =>
    have hmap : (u.map f).flush = true := hflush
    by_cases hk : u.key = k
    · subst hk
      have hlive := h.live_apply u u.key
      rw [stored_apply_of_flush hflush, stored_apply_of_flush hmap]
      show (flushInto _ _ u.key)[u.key]? = _
      cases hu : (c.apply u).live[u.key]? with
      | none =>
        rw [hu, Option.map_none] at hlive
        unfold flushInto
        rw [hu, hlive]
        exact h.stored u.key
      | some v =>
        rw [hu, Option.map_some] at hlive
        rw [getElem?_flushInto_self hu, getElem?_flushInto_self hlive, Option.map_some]
    · have hne : (u.map f).key ≠ k := hk
      rw [(c.apply_of_ne hk).2, (d.apply_of_ne hne).2, h.stored]

omit [LawfulEqCmp cmp] in
theorem Maps.restart (h : c.Maps f d) : c.restart.Maps f d.restart := ⟨h.stored, h.stored⟩

end Images

/-! ## When the two maps agree -/

/-- The two maps agree on `k`. -/
def CoherentAt (c : Copies κ ν cmp) (k : κ) : Prop := c.stored[k]? = c.live[k]?

/-- A flush leaves its key coherent. -/
theorem coherentAt_of_flush (hbelow : c.Below) (hflush : u.flush = true) :
    (c.apply u).CoherentAt u.key := by
  unfold CoherentAt
  cases hlive : (c.apply u).live[u.key]? with
  | some v => rw [stored_apply_of_flush hflush, getElem?_flushInto_self hlive]
  | none =>
    cases hstored : (c.apply u).stored[u.key]? with
    | none => rfl
    | some w =>
      obtain ⟨v, hv, -⟩ := below_apply hbelow u u.key w hstored
      rw [hlive] at hv
      cases hv

/-- Maps that agree everywhere still do after an update that is flushed. -/
theorem eq_of_flush (h : c.live = c.stored) (hflush : u.flush = true) :
    (c.apply u).live = (c.apply u).stored := by
  have hbelow : c.Below := fun k w hw => ⟨w, by rw [h, hw], le_rfl⟩
  apply ExtTreeMap.ext_getElem?
  intro k
  by_cases hk : u.key = k
  · exact hk ▸ (coherentAt_of_flush hbelow hflush).symm
  · rw [(c.apply_of_ne hk).1, (c.apply_of_ne hk).2, h]

omit [LawfulEqCmp cmp] in
/-- A join that is not flushed leaves its key coherent exactly when the key was coherent
and the join changed nothing. -/
theorem coherentAt_of_join (hbelow : c.Below) (hflush : u.flush = false) {v : ν}
    (hv : u.content = some v) :
    (c.apply u).CoherentAt u.key
      ↔ c.CoherentAt u.key ∧ ∃ w, c.live[u.key]? = some w ∧ v ≤ w := by
  unfold CoherentAt
  rw [live_apply_of_content hv, stored_apply_of_not_flush hflush]
  constructor
  · -- the stored value is the join and at most the live value, so the join adds nothing
    intro hstored
    obtain ⟨w, hw, hle⟩ := hbelow u.key _ hstored
    rw [value_of_getElem? hw] at hstored hle
    have hvw : v ≤ w := le_sup_right.trans hle
    rw [hstored, hw, sup_eq_left.mpr hvw]
    exact ⟨rfl, w, rfl, hvw⟩
  · rintro ⟨hstored, w, hw, hvw⟩
    rw [hstored, value_of_getElem? hw, hw, sup_eq_left.mpr hvw]

/-- Every join into `k` that is not flushed at once is flushed later in the run, or finds
its content already there. -/
def Settled (us : List (Update κ ν)) (c : Copies κ ν cmp) (k : κ) : Prop :=
  ∀ pre u post, us = pre ++ u :: post → u.key = k → u.flush = false →
    ∀ v, u.content = some v →
      (∃ u' ∈ post, u'.key = k ∧ u'.flush = true) ∨
        ∃ w, ((pre.map Update.joins).foldl joinOpt c.live)[k]? = some w ∧ v ≤ w

omit [LawfulEqCmp cmp] in
/-- One more update: what it adds to `Settled`. -/
theorem settled_concat (us : List (Update κ ν)) (u : Update κ ν) (c : Copies κ ν cmp) (k : κ) :
    Settled (us ++ [u]) c k
      ↔ (u.key = k ∧ u.flush = true) ∨
        Settled us c k ∧ (u.key = k → ∀ v, u.content = some v →
          ∃ w, ((us.map Update.joins).foldl joinOpt c.live)[k]? = some w ∧ v ≤ w) := by
  constructor
  · intro h
    by_cases hu : u.key = k ∧ u.flush = true
    · exact Or.inl hu
    · refine Or.inr ⟨?_, ?_⟩
      · intro pre x post hus hkey hflush v hv
        rcases h pre x (post ++ [u]) (by rw [hus]; simp) hkey hflush v hv with hlater | hknown
        · -- the flush is not the last update, which does not flush `k`
          obtain ⟨u', hmem, hu'⟩ := hlater
          rcases List.mem_append.mp hmem with hmem | hmem
          · exact Or.inl ⟨u', hmem, hu'⟩
          · rw [List.mem_singleton.mp hmem] at hu'
            exact absurd hu' hu
        · exact Or.inr hknown
      · intro hkey v hv
        have hflush : u.flush = false := by
          cases hf : u.flush with
          | false => rfl
          | true => exact absurd ⟨hkey, hf⟩ hu
        rcases h us u [] rfl hkey hflush v hv with ⟨u', hmem, -⟩ | hknown
        · cases hmem
        · exact hknown
  · intro h pre x post hus hkey hflush v hv
    -- the join is the last update or an earlier one
    rcases concat_eq_append_cons hus with ⟨rfl, rfl, rfl⟩ | ⟨post', rfl, hus'⟩
    · rcases h with ⟨-, hf⟩ | ⟨-, hlast⟩
      · rw [hflush] at hf
        cases hf
      · exact Or.inr (hlast hkey v hv)
    · rcases h with hu | ⟨hus'', -⟩
      · exact Or.inl ⟨u, by simp, hu⟩
      · rcases hus'' pre x post' hus' hkey hflush v hv with ⟨u', hmem, hu'⟩ | hknown
        · exact Or.inl ⟨u', List.mem_append_left _ hmem, hu'⟩
        · exact Or.inr hknown

/-- **When a key is coherent.** From a state that is coherent at `k`, a run of updates ends
coherent at `k` exactly when it is settled there. The induction is on the last update. -/
theorem coherentAt_iff (hbelow : c.Below) (hstart : c.CoherentAt k) (us : List (Update κ ν)) :
    (us.foldl apply c).CoherentAt k ↔ Settled us c k := by
  induction us using List.reverseRecOn with
  | nil =>
    refine iff_of_true hstart ?_
    intro pre u post hnil
    exact absurd hnil (by simp)
  | append_singleton us u ih =>
    have hbelow' := below_foldl_apply hbelow us
    rw [List.foldl_append, List.foldl_cons, List.foldl_nil, settled_concat, ← ih,
      ← live_foldl_apply]
    by_cases hkey : u.key = k
    · subst hkey
      cases hflush : u.flush with
      | true => simp [coherentAt_of_flush hbelow' hflush]
      | false =>
        cases hv : u.content with
        | none =>
          -- neither a join nor a flush
          have hsame : (us.foldl apply c).apply u = us.foldl apply c := by
            unfold apply Update.joins
            rw [hv, hflush]
            rfl
          simp [hsame]
        | some v => simp [coherentAt_of_join hbelow' hflush hv]
    · have hne := (us.foldl apply c).apply_of_ne hkey
      simp [CoherentAt, hne, hkey]

end Copies

end

end Lib
