import CardinalityTracker.Bitmap
import CardinalityTracker.Denotation
import CardinalityTracker.HllSmall

/-!
# Exact counts, and what an estimate estimates

With bitmap sketches a standalone server counts exactly: after every history, `Cardinality` of a
group lies between the number of different ids that have been acknowledged and the number that have
been submitted (`counts_exactly`).

A bitmap stands for the set of its members, so the server with bitmaps goes through a history in
lockstep with a server that has sets for its sketches (`denotes`). With sets any other server can be
compared. Taking the join of the one-id sketches of a set keeps joins, so a server with another kind
of sketch is in lockstep with the one with sets as well, and each of its sketches is the summary of
the set (`follows`). For HyperLogLog this says what its count is an estimate of
(`hll_follows_bitmap`).
-/

namespace CardinalityTracker

open Lib

namespace Standalone

variable {σ : Type} {alg : Algorithm σ} {out : ℕ → SaveOutcome}

theorem seen_of_add {s s' : State alg} {group : GoString} {id : UInt64}
    (h : step out s (.add group id) = some s') :
    s'.store.saves = s.store.saves + 1 ∧ s'.attempted = s.attempted ++ [(group, id)] ∧
      s'.acked = if (out s.store.saves).error = none then s.acked ++ [(group, id)]
        else s.acked := by
  rw [step_add, Option.some.injEq] at h
  subst h
  exact ⟨(save_seen ..).1, rfl, rfl⟩

theorem seen_of_restart {s s' : State alg} (h : step out s .restart = some s') :
    s'.store = s.store ∧ s'.attempted = s.attempted ∧ s'.acked = s.acked := by
  unfold step at h
  dsimp only at h
  split at h
  · cases h
  · rw [Option.some.injEq] at h
    subst h
    exact ⟨rfl, rfl, rfl⟩

/-! ## Whole histories, for every algorithm -/

/-- What a history leaves: the maps, no more adds than events, and without a failed save every
submitted add acknowledged. -/
structure Through [SemilatticeSup σ] [OrderBot σ] (out : ℕ → SaveOutcome) (history : List Event)
    (s : State alg) : Prop where
  inv : ∃ c, Inv s c
  length : s.attempted.length ≤ history.length
  acked : (∀ n, out n = .ok) → s.acked = s.attempted

variable [SemilatticeSup σ] [OrderBot σ]

theorem through (halg : alg.IsJoin) (out : ℕ → SaveOutcome) (history : List Event) :
    ∃ s, run (step out) (init alg) history = some s ∧ Through out history s := by
  refine progress_of_meets ⟨⟨_, inv_init⟩, le_rfl, fun _ => rfl⟩ ?_ (meets_true history)
  intro hist s event h _
  obtain ⟨s', hstep, hinv⟩ := exists_step halg out h.inv event
  refine ⟨s', hstep, hinv, ?_, ?_⟩
  · rw [List.length_append, List.length_singleton]
    cases event with
    | add group id =>
      rw [(seen_of_add hstep).2.1, List.length_append, List.length_singleton]
      exact Nat.succ_le_succ h.length
    | restart =>
      rw [(seen_of_restart hstep).2.1]
      exact Nat.le_succ_of_le h.length
  · intro hok
    cases event with
    | add group id =>
      have hnil : (out s.store.saves).error = none := by rw [hok]; rfl
      rw [(seen_of_add hstep).2.1, (seen_of_add hstep).2.2, if_pos hnil, h.acked hok]
    | restart => rw [(seen_of_restart hstep).2.1, (seen_of_restart hstep).2.2, h.acked hok]

/-! ## Lockstep -/

/-- The join of the one-id sketches of a set. -/
def summary (alg : Algorithm σ) : SupBotHom (Finset UInt64) σ where
  toFun ids := ids.sup alg.single
  map_sup' _ _ := Finset.sup_union
  map_bot' := Finset.sup_empty

theorem summary_toFinset (halg : alg.IsJoin) (ids : List UInt64) :
    summary alg ids.toFinset = alg.sketchOf ids := by
  apply eq_of_forall_ge_iff
  intro s
  rw [halg.sketchOf_le_iff]
  show ids.toFinset.sup alg.single ≤ s ↔ _
  rw [Finset.sup_le_iff]
  simp only [List.mem_toFinset]

/-- The two servers have seen the same and hold the same groups, one of them as sets and the
other one as their summaries. -/
structure Follows (s : State Bitmap.sets) (t : State alg) : Prop where
  groups : ∃ c d, Inv s c ∧ Inv t d ∧ c.Maps (summary alg) d
  saves : t.store.saves = s.store.saves
  attempted : t.attempted = s.attempted
  acked : t.acked = s.acked

theorem Follows.step {s : State Bitmap.sets} {t : State alg} (halg : alg.IsJoin) (h : Follows s t)
    (event : Event) : ∃ s' t', Standalone.step out s event = some s' ∧
      Standalone.step out t event = some t' ∧ Follows s' t' := by
  obtain ⟨c, d, hs, ht, hmaps⟩ := h.groups
  cases event with
  | add group id =>
    obtain ⟨s', hstep, hs'⟩ := inv_add Bitmap.isJoin out hs group id
    obtain ⟨t', htstep, ht'⟩ := inv_add halg out ht group id
    obtain ⟨hsaves, hattempted, hacked⟩ := seen_of_add hstep
    obtain ⟨htsaves, htattempted, htacked⟩ := seen_of_add htstep
    -- the one-id sketch is the summary of the one-id set
    have hsummary : summary alg (Bitmap.sets.single id) = alg.single id :=
      Finset.sup_singleton
    have hupdate : addUpdate alg (out t.store.saves) group id
        = (addUpdate Bitmap.sets (out s.store.saves) group id).map (summary alg) := by
      rw [h.saves]
      unfold addUpdate Update.map
      rw [Option.map_some, hsummary]
    rw [hupdate] at ht'
    refine ⟨s', t', hstep, htstep, ⟨_, _, hs', ht', hmaps.apply _⟩, ?_, ?_, ?_⟩
    · rw [htsaves, hsaves, h.saves]
    · rw [htattempted, hattempted, h.attempted]
    · rw [htacked, hacked, h.saves, h.acked]
  | restart =>
    obtain ⟨s', hstep, hs'⟩ := inv_restart Bitmap.isJoin out hs
    obtain ⟨t', htstep, ht'⟩ := inv_restart halg out ht
    obtain ⟨hstore, hattempted, hacked⟩ := seen_of_restart hstep
    obtain ⟨htstore, htattempted, htacked⟩ := seen_of_restart htstep
    refine ⟨s', t', hstep, htstep, ⟨_, _, hs', ht', hmaps.restart⟩, ?_, ?_, ?_⟩
    · rw [htstore, hstore, h.saves]
    · rw [htattempted, hattempted, h.attempted]
    · rw [htacked, hacked, h.acked]

/-- **A server follows the one with sets** through every history. -/
theorem follows (halg : alg.IsJoin) (out : ℕ → SaveOutcome) (history : List Event) :
    ∃ s t, run (Standalone.step out) (init Bitmap.sets) history = some s ∧
      run (Standalone.step out) (init alg) history = some t ∧ Follows s t := by
  have hmaps : (⟨∅, ∅⟩ : Copies GoString (Finset UInt64) compare).Maps (summary alg) ⟨∅, ∅⟩ := by
    constructor <;> intro g <;> simp
  exact lockstep ⟨⟨_, _, inv_init, inv_init, hmaps⟩, rfl, rfl, rfl⟩
    (fun s t event h => h.step halg event) history

end Standalone

namespace Bitmap

open Standalone

/-! ## Bitmaps stand for sets -/

theorem denotes (roaring64 : Roaring64) :
    (algorithm roaring64).Denotes sets roaring64.members where
  new_eq := roaring64.members_new
  add_eq := roaring64.members_add
  merge_eq := roaring64.members_or
  clone_eq := roaring64.members_clone
  cardinality_eq := roaring64.getCardinality_eq
  algoName_eq _ := rfl
  ref_algoName_eq _ := rfl
  parse_bytes rb := by
    obtain ⟨b, rb', hmarshal, hunmarshal, hmembers⟩ := roaring64.roundTrip rb
    have hb : Sketch.bytes roaring64 rb = b := by rw [Sketch.bytes, hmarshal]
    refine ⟨rb', ?_, hmembers⟩
    show roaring64.unmarshalBinary (Sketch.bytes roaring64 rb) = .ok rb'
    rw [hb, hunmarshal]

/-- `Merge` leaves the union of the members, in a group that was there and in one that was not. -/
theorem members_merge (roaring64 : Roaring64) (e : Engine (algorithm roaring64)) (group : GoString)
    (remote : Sketch roaring64) :
    ∃ rb, (e.merge group (.own remote)).1.groups[group]? = some rb ∧
      roaring64.members rb
        = (e.groups[group]?.map roaring64.members).getD ∅ ∪ roaring64.members remote := by
  have hmerge := congrArg (fun e : Engine sets => e.groups[group]?)
    (Engine.denote_merge (denotes roaring64) e group remote)
  rw [Engine.getElem?_denote, Engine.merge_own (e := e.denote sets roaring64.members) rfl,
    Std.ExtTreeMap.getElem?_insert_self, Engine.getElem?_denote] at hmerge
  obtain ⟨rb, hrb, hmembers⟩ := Option.map_eq_some_iff.mp hmerge
  refine ⟨rb, hrb, hmembers.trans ?_⟩
  cases e.groups[group]? with
  | none => exact (Finset.empty_union _).symm
  | some sk => rfl

/-! ## Exact counts -/

/-- The count of a server with sets. -/
theorem count_of_through {out : ℕ → SaveOutcome} {history : List Event} {s : State sets}
    (h : Through out history s) (hlen : history.length < 2 ^ 64) (g : GoString) :
    (s.engine.cardinality g = .error (.unknownGroup g) ∧ idsOf s.acked g = []) ∨
      ∃ n, s.engine.cardinality g = .ok n ∧ (idsOf s.acked g).toFinset.card ≤ n.toNat ∧
        n.toNat ≤ (idsOf s.attempted g).toFinset.card := by
  obtain ⟨c, hinv⟩ := h.inv
  unfold Engine.cardinality
  cases hg : s.engine.groups[g]? with
  | none =>
    refine Or.inl ⟨rfl, List.eq_nil_iff_forall_not_mem.mpr fun id hid => ?_⟩
    -- an acknowledged id would be live
    obtain ⟨ids, hids, -⟩ := (hinv.acked (g, id) (mem_idsOf.mp hid)).live hinv.below
    rw [← hinv.live, hg] at hids
    cases hids
  | some ids =>
    have hvalue : value c.live g = ids := by rw [← hinv.live, value_of_getElem? hg]
    have hupper : ids ⊆ (idsOf s.attempted g).toFinset := by
      rw [← sketchOf_eq, ← hvalue]
      exact hinv.attempted g
    have hlower : (idsOf s.acked g).toFinset ⊆ ids := by
      intro id hid
      obtain ⟨w, hw, hle⟩ :=
        (hinv.acked (g, id) (mem_idsOf.mp (List.mem_toFinset.mp hid))).live hinv.below
      rw [← hinv.live, hg, Option.some.injEq] at hw
      rw [hw]
      exact hle (Finset.mem_singleton_self id)
    have hcard : ids.card < 2 ^ 64 :=
      calc ids.card ≤ (idsOf s.attempted g).toFinset.card := Finset.card_le_card hupper
        _ ≤ (idsOf s.attempted g).length := List.toFinset_card_le _
        _ ≤ s.attempted.length := by
          unfold idsOf
          rw [List.length_map]
          exact List.length_filter_le ..
        _ ≤ history.length := h.length
        _ < 2 ^ 64 := hlen
    refine Or.inr ⟨_, rfl, ?_, ?_⟩
    · rw [toNat_cardinality hcard]
      exact Finset.card_le_card hlower
    · rw [toNat_cardinality hcard]
      exact Finset.card_le_card hupper

/-- **Bitmaps count exactly.** After every history of a standalone server with bitmap sketches,
with any outcomes of its saves and restarts in between, the count of a group is at least the number
of its different acknowledged ids and at most the number of the submitted ones; a group that
`Cardinality` does not know has no acknowledged id. When no save has failed the acknowledged ids are
the submitted ones. The server has seen fewer than 2⁶⁴ requests. -/
theorem counts_exactly (roaring64 : Roaring64) (out : ℕ → SaveOutcome) (history : List Event)
    (hlen : history.length < 2 ^ 64) :
    ∃ s, run (step out) (init (algorithm roaring64)) history = some s ∧
      ((∀ n, out n = .ok) → s.acked = s.attempted) ∧
      ∀ g, (s.engine.cardinality g = .error (.unknownGroup g) ∧ idsOf s.acked g = []) ∨
        ∃ n, s.engine.cardinality g = .ok n ∧
          (idsOf s.acked g).toFinset.card ≤ n.toNat ∧
          n.toNat ≤ (idsOf s.attempted g).toFinset.card := by
  have hdenotes := denotes roaring64
  obtain ⟨s, t, hrun, ht, hsim⟩ := simulates isJoin hdenotes out history
  obtain ⟨t', ht', h⟩ := through isJoin out history
  obtain rfl : t = t' := Option.some.inj (ht.symm.trans ht')
  refine ⟨s, hrun, fun hok => ?_, fun g => ?_⟩
  · rw [← hsim.acked, ← hsim.attempted]
    exact h.acked hok
  · rw [← Engine.cardinality_denote hdenotes, ← hsim.engine, ← hsim.acked, ← hsim.attempted]
    exact count_of_through h hlen g

/-- An id that is added twice, with a restart in between, counts once. -/
theorem counts_exactly_restart :
    ∃ s, run (step fun _ => .ok) (init (algorithm slices))
        [.add (str "g") 7, .restart, .add (str "g") 7] = some s ∧
      ∃ n, s.engine.cardinality (str "g") = .ok n ∧ n.toNat = 1 := by
  obtain ⟨s, hrun, hacked, hcount⟩ := counts_exactly slices (fun _ => .ok)
    [.add (str "g") 7, .restart, .add (str "g") 7] (by decide)
  have hseen : (run (step fun _ => .ok) (init (algorithm slices))
      [.add (str "g") 7, .restart, .add (str "g") 7]).map State.attempted
        = some [(str "g", 7), (str "g", 7)] := by decide +kernel
  rw [hrun, Option.map_some, Option.some.injEq] at hseen
  have hids : (idsOf s.attempted (str "g")).toFinset.card = 1 := by
    rw [hseen]
    decide
  rw [hacked fun _ => rfl] at hcount
  rcases hcount (str "g") with ⟨-, hnil⟩ | ⟨n, hn, hlower, hupper⟩
  · rw [hnil] at hids
    cases hids
  · exact ⟨s, hrun, n, hn, by omega⟩

/-! ## Estimates -/

/-- The HyperLogLog sketch of a set, and what it counts in exact arithmetic. -/
theorem summary_hll (sum64 : Bytes → UInt64) (ids : Finset UInt64) :
    summary (Hll.algorithm sum64) ids = (Hll.algorithm sum64).sketchOf ids.toList ∧
      ((ids.image (Hll.regOf sum64)).card : ℤ)
        ≤ Hll.exactCardinality (summary (Hll.algorithm sum64) ids) ∧
      ((ids.image (Hll.regOf sum64)).card ≤ 127 →
        Hll.exactCardinality (summary (Hll.algorithm sum64) ids)
          = (ids.image (Hll.regOf sum64)).card) := by
  have hsketch : summary (Hll.algorithm sum64) ids
      = (Hll.algorithm sum64).sketchOf ids.toList := by
    rw [← summary_toFinset (Hll.isJoin sum64), Finset.toList_toFinset]
  have hoccupied : Hll.occupied (summary (Hll.algorithm sum64) ids)
      = ids.image (Hll.regOf sum64) := by
    rw [hsketch, Hll.occupied_sketchOf, Finset.toList_toFinset]
  refine ⟨hsketch, ?_, fun hfew => ?_⟩
  · rw [← hoccupied]
    exact Hll.occupied_le_exactCardinality _
  · rw [← hoccupied] at hfew ⊢
    exact Hll.exactCardinality_eq_occupied hfew

/-- **What the count of a HyperLogLog server is an estimate of.** After every history it holds the
same groups as a server with bitmap sketches that has gone through the same history, and has
acknowledged the same adds. Each of its sketches is the one of the ids in the bitmap. In exact
arithmetic its count is at least the number of different registers those ids hash to, and equal to
it up to 127 registers. -/
theorem hll_follows_bitmap (roaring64 : Roaring64) (sum64 : Bytes → UInt64)
    (out : ℕ → SaveOutcome) (history : List Event) :
    ∃ s t, run (step out) (init (algorithm roaring64)) history = some s ∧
      run (step out) (init (Hll.algorithm sum64)) history = some t ∧
      t.attempted = s.attempted ∧ t.acked = s.acked ∧
      ∀ g : GoString, (s.engine.groups[g]? = none ∧ t.engine.groups[g]? = none) ∨
        ∃ (rb : Sketch roaring64) (sk : Hll.Sketch),
          s.engine.groups[g]? = some rb ∧ t.engine.groups[g]? = some sk ∧
          sk = (Hll.algorithm sum64).sketchOf (roaring64.members rb).toList ∧
          (((roaring64.members rb).image (Hll.regOf sum64)).card : ℤ)
            ≤ Hll.exactCardinality sk ∧
          (((roaring64.members rb).image (Hll.regOf sum64)).card ≤ 127 →
            Hll.exactCardinality sk
              = ((roaring64.members rb).image (Hll.regOf sum64)).card) := by
  obtain ⟨s, u, hs, hu, hsim⟩ := simulates isJoin (denotes roaring64) out history
  obtain ⟨u', t, hu', ht, h⟩ := follows (Hll.isJoin sum64) out history
  obtain rfl : u = u' := Option.some.inj (hu.symm.trans hu')
  refine ⟨s, t, hs, ht, h.attempted.trans hsim.attempted, h.acked.trans hsim.acked, fun g => ?_⟩
  -- a bitmap stands for a set, whose summary is the other server's sketch
  obtain ⟨c, d, huinv, htinv, hmaps⟩ := h.groups
  have hgroup := hmaps.live g
  rw [← huinv.live, ← htinv.live, hsim.engine, Engine.getElem?_denote, Option.map_map] at hgroup
  cases hg : s.engine.groups[g]? with
  | none =>
    rw [hg, Option.map_none] at hgroup
    exact Or.inl ⟨rfl, hgroup⟩
  | some rb =>
    rw [hg, Option.map_some] at hgroup
    exact Or.inr ⟨rb, _, rfl, hgroup, summary_hll sum64 (roaring64.members rb)⟩

end Bitmap
end CardinalityTracker
