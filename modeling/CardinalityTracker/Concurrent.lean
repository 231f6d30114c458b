import CardinalityTracker.Collector
import CardinalityTracker.Hll
import CardinalityTracker.Lib.RwMutex
import CardinalityTracker.Reference.Murmur3

/-!
# The engine under concurrent calls

`Engine.lean` takes a method of the engine as one step on a map of sketches. Here the methods are
what the source has: goroutines that share a heap of sketches and a map of references into it, take
the engine's `sync.RWMutex` and execute one statement after another, in any interleaving the mutex
allows. A sketch changes in place through its reference, `Clone` and `New` allocate, and a `save`
callback acts on a world of its own while the lock is held. What a call does before it takes the
lock (parsing, decoding, checking names) and after it has released it (gob encoding) works on
values nobody else has a reference to, so it is part of the code of the call but not of its
critical section.

`Op.apply` is the same call as one step, by the methods of `Engine.lean`. `refines` says that a
critical section executed alone is that step, and that the memory is well formed at each of its
statements: no two groups share a sketch, and no group shares one with a caller.
-/

namespace CardinalityTracker
namespace Concurrent

open Lib Lib.RwMutex

variable {σ W : Type}

/-- What the calls share: the sketches on the heap, the field `groups` with references to them,
and the world the `save` callbacks act on. -/
structure Memory (σ W : Type) where
  objects : List σ
  groups : StringMap ℕ
  world : W

namespace Memory

/-- An engine without groups, beside the sketches of the callers. -/
def initial (callers : List σ) (world : W) : Memory σ W := ⟨callers, ∅, world⟩

/-- The sketch behind a reference. -/
def object (alg : Algorithm σ) (m : Memory σ W) (ref : ℕ) : σ := m.objects.getD ref alg.new

/-- `e.groups[group] = sk`, for a sketch that only this call has: it gets its place on the heap. -/
def install (m : Memory σ W) (group : GoString) (sk : σ) : Memory σ W :=
  { m with objects := m.objects ++ [sk], groups := m.groups.insert group m.objects.length }

/-- A method that changes the sketch behind a reference in place. -/
def update (m : Memory σ W) (ref : ℕ) (f : σ → σ) : Memory σ W :=
  { m with objects := m.objects.modify ref f }

/-- `e.groups = groups`, for a map of sketches that only this call has. -/
def replace (m : Memory σ W) (groups : StringMap σ) : Memory σ W :=
  groups.toList.foldl (fun m p => m.install p.1 p.2) { m with groups := ∅ }

/-- The engine the memory represents. -/
def engine (alg : Algorithm σ) (m : Memory σ W) : Engine alg :=
  ⟨m.groups.map fun _ ref => m.object alg ref⟩

end Memory

/-- The `remote` of a `Merge`: nil, one of the `n` sketches that the callers have on the heap, or
one of another algorithm. -/
inductive RemoteRef (alg : Algorithm σ) (n : ℕ)
  | nil
  | own (ref : Fin n)
  | foreign (algoName : GoString) (h : algoName ≠ alg.name)

/-- A call of a method of the engine, with its arguments. Each call ranges over maps in an order of
its own. -/
inductive Op (alg : Algorithm σ) (W : Type) (n : ℕ)
  | add (group : GoString) (id : UInt64)
  | cardinality (group : GoString)
  | cardinalityAll (order : RangeOrder)
  | addAndPersist (group : GoString) (id : UInt64) (save : Bytes → W → W × Option GoString)
  | persist (group : GoString) (save : Bytes → W → W × Option GoString)
  | restore (group : GoString) (b : Bytes)
  | merge (group : GoString) (remote : RemoteRef alg n)
  | mergeBytes (group algoName : GoString) (b : Bytes)
  | marshal (gob : Gob) (order : RangeOrder)
  | unmarshal (gob : Gob) (order : RangeOrder) (data : Bytes)

/-- What a method returns. -/
inductive Result
  | err (err : Option EngineError)
  | count (count : Except EngineError UInt64)
  | counts (counts : StringMap UInt64)
  | bytes (bytes : Except EngineError Bytes)

/-! ## Critical sections -/

section Code

/-- A statement that only reads. -/
def get {α : Type} (f : Memory σ W → α) (rest : α → Body (Memory σ W) Result) :
    Body (Memory σ W) Result :=
  .stmt id fun m => rest (f m)

/-- A statement that writes. -/
def set (f : Memory σ W → Memory σ W) (rest : Body (Memory σ W) Result) :
    Body (Memory σ W) Result :=
  .stmt f fun _ => rest

variable (alg : Algorithm σ)

/-- `sk, ok := e.groups[group]; if !ok { sk = e.alg.New(); e.groups[group] = sk }`. -/
def sketchOrNew (group : GoString) (rest : ℕ → Body (Memory σ W) Result) :
    Body (Memory σ W) Result :=
  get (fun m => m.groups[group]?) fun
    | some ref => rest ref
    | none => .stmt (·.install group alg.new) fun m => rest m.objects.length

/-- `return save(sk.Bytes())`. -/
def saveBytes (ref : ℕ) (save : Bytes → W → W × Option GoString) : Body (Memory σ W) Result :=
  get (fun m => alg.bytes (m.object alg ref)) fun b =>
    .stmt (fun m => { m with world := (save b m.world).1 })
      fun m => .ret (.err ((save b m.world).2.map .save))

/-- `for group, sk := range e.groups { out[group] = f(sk) }`. -/
def collect {ν : Type} (f : σ → ν) (rest : StringMap ν → Body (Memory σ W) Result) :
    List (GoString × ℕ) → StringMap ν → Body (Memory σ W) Result
  | [], out => rest out
  | (group, ref) :: refs, out =>
    get (fun m => f (m.object alg ref)) fun v => collect f rest refs (out.insert group v)

/-- The section of `Merge`; `remote` reads the remote sketch. -/
def mergeBody (group : GoString) (remote : Memory σ W → σ) : Body (Memory σ W) Result :=
  get (fun m => m.groups[group]?) fun
    | none => get (fun m => alg.clone (remote m)) fun sk =>
      set (·.install group sk) (.ret (.err none))
    | some ref => set (fun m => m.update ref (alg.merge · (remote m))) (.ret (.err none))

/-- The methods. -/
def code {n : ℕ} : Op alg W n → Code (Memory σ W) Result
  | .add group id =>
    .take .write <| sketchOrNew alg group fun ref =>
      set (·.update ref (alg.add · id)) (.ret (.err none))
  | .cardinality group =>
    .take .read <| get (fun m => m.groups[group]?) fun
      | none => .ret (.count (.error (.unknownGroup group)))
      | some ref => get (fun m => alg.cardinality (m.object alg ref)) fun c => .ret (.count (.ok c))
  | .cardinalityAll order =>
    .take .read <| get (fun m => order.range m.groups) fun refs =>
      collect alg alg.cardinality (fun out => .ret (.counts out)) refs ∅
  | .addAndPersist group id save =>
    .take .write <| sketchOrNew alg group fun ref =>
      set (·.update ref (alg.add · id)) (saveBytes alg ref save)
  | .persist group save =>
    .take .write <| get (fun m => m.groups[group]?) fun
      | none => .ret (.err (some (.unknownGroup group)))
      | some ref => saveBytes alg ref save
  | .restore group b =>
    match alg.parse b with
    | .error err => .done (.err (some (.parse group err)))
    | .ok sk => .take .write <| set (·.install group sk) (.ret (.err none))
  | .merge _ .nil => .done (.err (some .nilRemote))
  | .merge _ (.foreign algoName _) => .done (.err (some (.algoMismatch alg.name algoName)))
  -- `AlgoName` of a sketch of the engine's own algorithm is that algorithm's name
  | .merge group (.own ref) => .take .write <| mergeBody alg group (·.object alg ref)
  | .mergeBytes group algoName b =>
    if algoName ≠ alg.name then .done (.err (some (.algoMismatch alg.name algoName)))
    else
      match alg.parse b with
      | .error err => .done (.err (some (.parse group err)))
      | .ok remote =>
        if alg.algoName remote ≠ alg.name then
          .done (.err (some (.algoMismatch alg.name (alg.algoName remote))))
        else .take .write <| mergeBody alg group fun _ => remote
  | .marshal gob order =>
    .take .read <| get (fun m => order.range m.groups) fun refs =>
      -- the lock is released before the map is encoded
      collect alg alg.bytes (fun wire => .ret (.bytes
        (match gob.encode wire with
          | .error err => .error (.gob err)
          | .ok data => .ok data))) refs ∅
  | .unmarshal gob order data =>
    match gob.decode data with
    | .error err => .done (.err (some (.gob err)))
    | .ok wire =>
      match Engine.unmarshalLoop alg (order.range wire) ∅ with
      | .error err => .done (.err (some err))
      | .ok groups => .take .write <| set (·.replace groups) (.ret (.err none))

end Code

/-! ## The same calls as single steps -/

/-- The remote sketch as a value. -/
def RemoteRef.deref {alg : Algorithm σ} (callers : List σ) :
    RemoteRef alg callers.length → Remote alg
  | .nil => .nil
  | .own ref => .own (callers.get ref)
  | .foreign algoName h => .foreign algoName h

/-- A call as one step, by the methods of `Engine.lean`; the callers' sketches are `callers`. -/
def Op.apply {alg : Algorithm σ} (callers : List σ) (op : Op alg W callers.length)
    (s : Engine alg × W) : (Engine alg × W) × Result :=
  match op with
  | .add group id => (((s.1.add group id).1, s.2), .err (s.1.add group id).2)
  | .cardinality group => (s, .count (s.1.cardinality group))
  | .cardinalityAll order => (s, .counts (s.1.cardinalityAll order))
  | .addAndPersist group id save =>
    let (e, w, err) := s.1.addAndPersist group id save s.2
    ((e, w), .err err)
  | .persist group save =>
    let (w, err) := s.1.persist group save s.2
    ((s.1, w), .err err)
  | .restore group b => (((s.1.restore group b).1, s.2), .err (s.1.restore group b).2)
  | .merge group remote =>
    let (e, err) := s.1.merge group (remote.deref callers)
    ((e, s.2), .err err)
  | .mergeBytes group algoName b =>
    let (e, err) := s.1.mergeBytes group algoName b
    ((e, s.2), .err err)
  | .marshal gob order => (s, .bytes (s.1.marshal gob order))
  | .unmarshal gob order data =>
    let (e, err) := s.1.unmarshal gob order data
    ((e, s.2), .err err)

/-! ## Well-formed memory -/

/-- Every group has a sketch of its own, which no caller has a reference to, and the callers'
sketches are what they were. -/
structure WellFormed (callers : List σ) (m : Memory σ W) : Prop where
  bounds : ∀ (g : GoString) (ref : ℕ), m.groups[g]? = some ref →
    callers.length ≤ ref ∧ ref < m.objects.length
  injective : ∀ (g g' : GoString) (ref : ℕ), m.groups[g]? = some ref →
    m.groups[g']? = some ref → g = g'
  callers_eq : ∀ ref : ℕ, ref < callers.length → m.objects[ref]? = callers[ref]?

section Memory

variable {alg : Algorithm σ} {callers : List σ} {m : Memory σ W}

theorem getElem?_engine (alg : Algorithm σ) (m : Memory σ W) (g : GoString) :
    (m.engine alg).groups[g]? = m.groups[g]?.map (m.object alg) := by
  unfold Memory.engine
  rw [Std.ExtTreeMap.getElem?_map]

theorem object_of_getElem? {ref : ℕ} {sk : σ} (h : m.objects[ref]? = some sk) :
    m.object alg ref = sk := by
  unfold Memory.object
  rw [List.getD_eq_getElem?_getD, h, Option.getD_some]

theorem WellFormed.world (h : WellFormed callers m) (world : W) :
    WellFormed callers { m with world } := ⟨h.bounds, h.injective, h.callers_eq⟩

theorem WellFormed.length_le (h : WellFormed callers m) : callers.length ≤ m.objects.length := by
  by_contra hlt
  have hget := h.callers_eq m.objects.length (Nat.lt_of_not_le hlt)
  rw [List.getElem?_eq_none (Nat.le_refl _),
    List.getElem?_eq_getElem (Nat.lt_of_not_le hlt)] at hget
  cases hget

/-- A caller's sketch is still what it was. -/
theorem WellFormed.object_caller (h : WellFormed callers m) (ref : Fin callers.length) :
    m.object alg ref = callers.get ref := by
  refine object_of_getElem? ?_
  rw [h.callers_eq ref ref.isLt, List.getElem?_eq_getElem ref.isLt]
  rfl

theorem WellFormed.install (h : WellFormed callers m) (group : GoString) (sk : σ) :
    WellFormed callers (m.install group sk) where
  bounds g ref hg := by
    simp only [Memory.install, getElem?_insert_ite] at hg
    simp only [Memory.install, List.length_append, List.length_singleton]
    by_cases hgroup : group = g
    · rw [if_pos hgroup, Option.some.injEq] at hg
      have := h.length_le
      omega
    · rw [if_neg hgroup] at hg
      have := h.bounds g ref hg
      omega
  injective g g' ref hg hg' := by
    simp only [Memory.install, getElem?_insert_ite] at hg hg'
    -- the new reference is none of the old ones
    have hnew : ∀ g : GoString, m.groups[g]? ≠ some m.objects.length := fun g hg =>
      absurd (h.bounds g _ hg).2 (Nat.lt_irrefl _)
    by_cases hgroup : group = g
    · by_cases hgroup' : group = g'
      · rw [← hgroup, hgroup']
      · rw [if_pos hgroup, Option.some.injEq] at hg
        rw [if_neg hgroup', ← hg] at hg'
        exact absurd hg' (hnew g')
    · rw [if_neg hgroup] at hg
      by_cases hgroup' : group = g'
      · rw [if_pos hgroup', Option.some.injEq] at hg'
        rw [← hg'] at hg
        exact absurd hg (hnew g)
      · rw [if_neg hgroup'] at hg'
        exact h.injective g g' ref hg hg'
  callers_eq ref href := by
    have hlt : ref < m.objects.length := Nat.lt_of_lt_of_le href h.length_le
    rw [← h.callers_eq ref href]
    exact List.getElem?_append_left hlt

theorem object_install_of_lt {ref : ℕ} (hlt : ref < m.objects.length) (group : GoString) (sk : σ) :
    (m.install group sk).object alg ref = m.object alg ref := by
  simp only [Memory.object, Memory.install, List.getD_eq_getElem?_getD,
    List.getElem?_append_left hlt]

theorem object_install_self (group : GoString) (sk : σ) :
    (m.install group sk).object alg m.objects.length = sk :=
  object_of_getElem? List.getElem?_concat_length

/-- `e.groups[group] = sk`. -/
theorem WellFormed.engine_install (h : WellFormed callers m) (group : GoString) (sk : σ) :
    (m.install group sk).engine alg = ⟨(m.engine alg).groups.insert group sk⟩ := by
  refine Engine.ext (Std.ExtTreeMap.ext_getElem? fun g => ?_)
  rw [getElem?_engine, getElem?_insert_ite, getElem?_engine]
  simp only [Memory.install, getElem?_insert_ite]
  by_cases hg : group = g
  · rw [if_pos hg, if_pos hg]
    exact congrArg some (object_install_self group sk)
  · rw [if_neg hg, if_neg hg]
    cases href : m.groups[g]? with
    | none => rfl
    | some ref => exact congrArg some (object_install_of_lt (h.bounds g ref href).2 group sk)

theorem object_update {ref : ℕ} (hlt : ref < m.objects.length) (f : σ → σ) (ref' : ℕ) :
    (m.update ref f).object alg ref'
      = if ref = ref' then f (m.object alg ref) else m.object alg ref' := by
  simp only [Memory.object, Memory.update, List.getD_eq_getElem?_getD, List.getElem?_modify]
  by_cases href : ref = ref'
  · subst href
    simp [List.getElem?_eq_getElem hlt]
  · simp [href]

theorem WellFormed.update (h : WellFormed callers m) {group : GoString} {ref : ℕ}
    (hg : m.groups[group]? = some ref) (f : σ → σ) : WellFormed callers (m.update ref f) where
  bounds g ref' hg' := by
    simp only [Memory.update, List.length_modify]
    exact h.bounds g ref' hg'
  injective := h.injective
  callers_eq ref' href' := by
    have hne : ref ≠ ref' := Nat.ne_of_gt (Nat.lt_of_lt_of_le href' (h.bounds group ref hg).1)
    rw [← h.callers_eq ref' href']
    simp [Memory.update, hne]

/-- A sketch changed in place: no other group has a reference to it. -/
theorem WellFormed.engine_update (h : WellFormed callers m) {group : GoString} {ref : ℕ}
    (hg : m.groups[group]? = some ref) (f : σ → σ) :
    (m.update ref f).engine alg
      = ⟨(m.engine alg).groups.insert group (f (m.object alg ref))⟩ := by
  refine Engine.ext (Std.ExtTreeMap.ext_getElem? fun g => ?_)
  rw [getElem?_engine, getElem?_insert_ite, getElem?_engine]
  show m.groups[g]?.map _ = _
  by_cases hgroup : group = g
  · rw [if_pos hgroup, ← hgroup, hg, Option.map_some, object_update (h.bounds group ref hg).2,
      if_pos rfl]
  · rw [if_neg hgroup]
    cases href : m.groups[g]? with
    | none => rfl
    | some ref' =>
      have hne : ref ≠ ref' := fun heq => hgroup (h.injective group g ref hg (heq ▸ href))
      rw [Option.map_some, Option.map_some, object_update (h.bounds group ref hg).2, if_neg hne]

theorem WellFormed.foldl_install (alg : Algorithm σ) (h : WellFormed callers m)
    (l : List (GoString × σ)) :
    WellFormed callers (l.foldl (fun m p => m.install p.1 p.2) m) ∧
      (l.foldl (fun m p => m.install p.1 p.2) m).engine alg = ⟨fill (m.engine alg).groups l⟩ ∧
      (l.foldl (fun m p => m.install p.1 p.2) m).world = m.world := by
  induction l generalizing m with
  | nil => exact ⟨h, rfl, rfl⟩
  | cons p l ih =>
    obtain ⟨hwf, hengine, hworld⟩ := ih (h.install p.1 p.2)
    refine ⟨hwf, ?_, hworld⟩
    rw [List.foldl_cons, hengine, h.engine_install, fill_cons]

/-- The bindings of a map fill an empty one with that map. -/
theorem fill_toList (groups : StringMap σ) : fill ∅ groups.toList = groups := by
  refine Std.ExtTreeMap.ext_getElem? fun g => ?_
  have hfill := Engine.getElem?_fill_range ⟨Std.ExtTreeMap.toList, fun _ => .refl _⟩ groups
    (fun p => p.2) g
  simpa using hfill

/-- `e.groups = groups`. -/
theorem WellFormed.replace (alg : Algorithm σ) (h : WellFormed callers m) (groups : StringMap σ) :
    WellFormed callers (m.replace groups) ∧ (m.replace groups).engine alg = ⟨groups⟩ ∧
      (m.replace groups).world = m.world := by
  have hempty : WellFormed callers { m with groups := ∅ } :=
    ⟨fun g ref hg => absurd hg (by simp), fun g g' ref hg => absurd hg (by simp), h.callers_eq⟩
  obtain ⟨hwf, hengine, hworld⟩ := hempty.foldl_install alg groups.toList
  refine ⟨hwf, ?_, hworld⟩
  have hnone : (Memory.engine alg { m with groups := ∅ }).groups = ∅ := by
    refine Std.ExtTreeMap.ext_getElem? fun g => ?_
    rw [getElem?_engine]
    simp
  rw [Memory.replace, hengine, hnone, fill_toList]

end Memory

/-! ## A call alone is one step -/

section Refinement

variable {alg : Algorithm σ} {callers : List σ} {m : Memory σ W}
  {s : (Engine alg × W) × Result}

/-- Executed alone, the section keeps the memory well formed at each of its statements, and ends
with this engine, this world and this result. -/
def BodyDoes (callers : List σ) (m : Memory σ W) (body : Body (Memory σ W) Result)
    (s : (Engine alg × W) × Result) : Prop :=
  body.Along (WellFormed callers) (fun _ _ => True) m ∧
    (((body.exec m).1.engine alg, (body.exec m).1.world), (body.exec m).2) = s

/-- The same for a call, with or without a section. -/
def CodeDoes (callers : List σ) (m : Memory σ W) (s : (Engine alg × W) × Result) :
    Code (Memory σ W) Result → Prop
  | .done r => ((m.engine alg, m.world), r) = s
  | .take _ body => BodyDoes callers m body s

theorem does_ret (alg : Algorithm σ) (h : WellFormed callers m) (r : Result) :
    BodyDoes callers m (.ret r) ((m.engine alg, m.world), r) := ⟨h, rfl⟩

theorem does_stmt (h : WellFormed callers m) {write : Memory σ W → Memory σ W}
    {rest : Memory σ W → Body (Memory σ W) Result}
    (hrest : BodyDoes callers (write m) (rest m) s) : BodyDoes callers m (.stmt write rest) s :=
  ⟨⟨h, trivial, hrest.1⟩, hrest.2⟩

theorem does_get (h : WellFormed callers m) {α : Type} {f : Memory σ W → α}
    {rest : α → Body (Memory σ W) Result} (hrest : BodyDoes callers m (rest (f m)) s) :
    BodyDoes callers m (get f rest) s := does_stmt h hrest

theorem does_set (h : WellFormed callers m) {f : Memory σ W → Memory σ W}
    {rest : Body (Memory σ W) Result} (hrest : BodyDoes callers (f m) rest s) :
    BodyDoes callers m (set f rest) s := does_stmt h hrest

/-- After the first lines of `Add` and `AddAndPersist` the group has a reference to its sketch, or
to an empty one; what they then put there is all that has changed. -/
theorem does_sketchOrNew (h : WellFormed callers m) {group : GoString}
    {rest : ℕ → Body (Memory σ W) Result}
    (hrest : ∀ m' : Memory σ W, ∀ ref, WellFormed callers m' → m'.world = m.world →
      m'.groups[group]? = some ref →
      m'.object alg ref = (m.engine alg).sketchOrNew group →
      (∀ sk, (m'.engine alg).groups.insert group sk = (m.engine alg).groups.insert group sk) →
      BodyDoes callers m' (rest ref) s) :
    BodyDoes callers m (sketchOrNew alg group rest) s := by
  refine does_get h ?_
  have hsketch : (m.engine alg).sketchOrNew group
      = (m.groups[group]?.map (m.object alg)).getD alg.new := by
    rw [Engine.sketchOrNew, getElem?_engine]
  cases hg : m.groups[group]? with
  | some ref =>
    rw [hg] at hsketch
    exact hrest m ref h rfl hg hsketch.symm fun _ => rfl
  | none =>
    rw [hg] at hsketch
    refine does_stmt h (hrest _ _ (h.install group alg.new) rfl ?_ ?_ fun sk => ?_)
    · exact Std.ExtTreeMap.getElem?_insert_self
    · rw [object_install_self, hsketch]
      rfl
    · rw [h.engine_install, insert_insert_self]

/-- The end of `AddAndPersist` and `Persist`. -/
theorem does_saveBytes (alg : Algorithm σ) (h : WellFormed callers m) {group : GoString}
    {ref : ℕ} (hg : m.groups[group]? = some ref) (save : Bytes → W → W × Option GoString) :
    BodyDoes callers m (saveBytes alg ref save)
      ((m.engine alg, ((m.engine alg).persist group save m.world).1),
        .err ((m.engine alg).persist group save m.world).2) := by
  have hsketch : (m.engine alg).groups[group]? = some (m.object alg ref) := by
    rw [getElem?_engine, hg, Option.map_some]
  rw [Engine.persist_of_some hsketch]
  exact does_get h (does_stmt h (does_ret alg (h.world _) _))

/-- The loops of `CardinalityAll` and `Marshal`. -/
theorem does_collect (h : WellFormed callers m) {ν : Type} (f : σ → ν)
    {rest : StringMap ν → Body (Memory σ W) Result} (refs : List (GoString × ℕ))
    (out : StringMap ν)
    (hrest : BodyDoes callers m
      (rest (refs.foldl (fun out p => out.insert p.1 (f (m.object alg p.2))) out)) s) :
    BodyDoes callers m (collect alg f rest refs out) s := by
  induction refs generalizing out with
  | nil => exact hrest
  | cons p refs ih => exact does_get h (ih _ hrest)

/-- Ranging over a map to fill another gives the same map in every order. -/
theorem foldl_range_eq_map {ν ν' : Type} (order : RangeOrder) (groups : StringMap ν) (f : ν → ν') :
    (order.range groups).foldl (fun (out : StringMap ν') p => out.insert p.1 (f p.2)) ∅
      = groups.map fun _ v => f v := by
  refine Std.ExtTreeMap.ext_getElem? fun g => ?_
  have hfill := Engine.getElem?_fill_range order groups (fun p => f p.2) g
  unfold fill at hfill
  rw [List.foldl_map] at hfill
  rw [Std.ExtTreeMap.getElem?_map]
  exact hfill

/-- What the loops collect, over the references or over the sketches. -/
theorem collected_eq (order order' : RangeOrder) {ν : Type} (f : σ → ν) (m : Memory σ W) :
    (order.range m.groups).foldl
        (fun (out : StringMap ν) p => out.insert p.1 (f (m.object alg p.2))) ∅
      = (order'.range (m.engine alg).groups).foldl (fun out p => out.insert p.1 (f p.2)) ∅ := by
  rw [foldl_range_eq_map order m.groups fun ref => f (m.object alg ref), foldl_range_eq_map]
  refine Std.ExtTreeMap.ext_getElem? fun g => ?_
  rw [Std.ExtTreeMap.getElem?_map, Std.ExtTreeMap.getElem?_map, getElem?_engine, Option.map_map]
  rfl

/-- The section of `Merge`, for a remote sketch that no statement of it changes. -/
theorem does_mergeBody (h : WellFormed callers m) (group : GoString) {remote : Memory σ W → σ}
    {sk : σ} (hremote : remote m = sk) (hname : alg.algoName sk = alg.name) :
    BodyDoes callers m (mergeBody alg group remote)
      ((((m.engine alg).merge group (.own sk)).1, m.world),
        .err ((m.engine alg).merge group (.own sk)).2) := by
  refine does_get h ?_
  unfold Engine.merge
  simp only [hname, ne_eq, not_true_eq_false, if_false, getElem?_engine]
  cases hg : m.groups[group]? with
  | none =>
    refine does_get h (does_set h ?_)
    simp only [Option.map_none, hremote]
    have hend := does_ret alg (h.install group (alg.clone sk)) (.err none)
    rwa [h.engine_install] at hend
  | some ref =>
    refine does_set h ?_
    simp only [Option.map_some, hremote]
    have hend := does_ret alg (h.update hg (alg.merge · sk)) (.err none)
    rwa [h.engine_update hg] at hend

/-- **Refinement.** In well-formed memory a call executed alone is one step of the engine, and the
memory stays well formed at each statement on the way. -/
theorem refines (hname : ∀ sk, alg.algoName sk = alg.name) (h : WellFormed callers m)
    (op : Op alg W callers.length) :
    CodeDoes callers m (op.apply callers (m.engine alg, m.world)) (code alg op) := by
  cases op with
  | add group id =>
    refine does_sketchOrNew h fun m' ref h' hworld hg hobject hinsert => does_set h' ?_
    have hend := does_ret alg (h'.update hg (alg.add · id)) (.err none)
    rw [h'.engine_update hg, hobject, hinsert] at hend
    rw [← hworld]
    exact hend
  | cardinality group =>
    refine does_get h ?_
    unfold Op.apply Engine.cardinality
    dsimp only
    rw [getElem?_engine]
    cases m.groups[group]? with
    | none => exact does_ret alg h _
    | some ref => exact does_get h (does_ret alg h _)
  | cardinalityAll order =>
    refine does_get h (does_collect h alg.cardinality _ ∅ ?_)
    unfold Op.apply Engine.cardinalityAll
    dsimp only
    rw [← collected_eq order order alg.cardinality m]
    exact does_ret alg h _
  | addAndPersist group id save =>
    refine does_sketchOrNew h fun m' ref h' hworld hg hobject hinsert => does_set h' ?_
    have hend := does_saveBytes alg (h'.update hg (alg.add · id)) hg save
    rw [h'.engine_update hg, hobject, hinsert] at hend
    unfold Op.apply
    dsimp only
    rw [Engine.addAndPersist_eq, ← hworld]
    exact hend
  | persist group save =>
    refine does_get h ?_
    unfold Op.apply
    dsimp only
    cases hg : m.groups[group]? with
    | none =>
      have hnone : (m.engine alg).groups[group]? = none := by
        rw [getElem?_engine, hg, Option.map_none]
      rw [Engine.persist_of_none hnone]
      exact does_ret alg h _
    | some ref => exact does_saveBytes alg h hg save
  | restore group b =>
    unfold code Op.apply Engine.restore
    dsimp only
    cases alg.parse b with
    | error err => exact rfl
    | ok sk =>
      refine does_set h ?_
      have hend := does_ret alg (h.install group sk) (.err none)
      rwa [h.engine_install] at hend
  | merge group remote =>
    cases remote with
    | nil => exact rfl
    | foreign algoName hne => exact rfl
    | own ref => exact does_mergeBody h group (h.object_caller ref) (hname _)
  | mergeBytes group algoName b =>
    unfold code Op.apply Engine.mergeBytes
    dsimp only
    by_cases hn : algoName ≠ alg.name
    · rw [if_pos hn, if_pos hn]
      exact rfl
    · rw [if_neg hn, if_neg hn]
      cases alg.parse b with
      | error err => exact rfl
      | ok remote =>
        dsimp only
        rw [if_neg (not_not_intro (hname remote))]
        exact does_mergeBody h group rfl (hname remote)
  | marshal gob order =>
    refine does_get h (does_collect h alg.bytes _ ∅ ?_)
    unfold Op.apply Engine.marshal
    dsimp only
    rw [← collected_eq order order alg.bytes m]
    exact does_ret alg h _
  | unmarshal gob order data =>
    unfold code Op.apply Engine.unmarshal
    dsimp only
    cases gob.decode data with
    | error err => exact rfl
    | ok wire =>
      dsimp only
      cases Engine.unmarshalLoop alg (order.range wire) ∅ with
      | error err => exact rfl
      | ok groups =>
        obtain ⟨hwf, hengine, hworld⟩ := h.replace alg groups
        refine does_set h ?_
        have hend := does_ret alg hwf (.err none)
        rwa [hengine, hworld] at hend

end Refinement

/-! ## The methods under the read lock -/

section ReadOnly

theorem readOnly_get {α : Type} {f : Memory σ W → α} {rest : α → Body (Memory σ W) Result}
    (h : ∀ a, (rest a).ReadOnly) : (get f rest).ReadOnly := .stmt (fun _ => rfl) fun m => h (f m)

theorem readOnly_collect (alg : Algorithm σ) {ν : Type} (f : σ → ν)
    {rest : StringMap ν → Body (Memory σ W) Result} (h : ∀ out, (rest out).ReadOnly)
    (refs : List (GoString × ℕ)) (out : StringMap ν) : (collect alg f rest refs out).ReadOnly := by
  induction refs generalizing out with
  | nil => exact h out
  | cons p refs ih => exact readOnly_get fun v => ih (out.insert p.1 v)

/-- The three methods that take the lock for reading do not write. -/
theorem readOnly_code (alg : Algorithm σ) {n : ℕ} :
    ReadOnly (code alg : Op alg W n → Code (Memory σ W) Result) := by
  intro op body hcode
  cases op with
  | cardinality group =>
    cases hcode
    refine readOnly_get fun ref => ?_
    cases ref with
    | none => exact .ret _
    | some ref => exact readOnly_get fun c => .ret _
  | cardinalityAll order =>
    cases hcode
    exact readOnly_get fun refs => readOnly_collect alg _ (fun out => .ret _) refs ∅
  | marshal gob order =>
    cases hcode
    exact readOnly_get fun refs => readOnly_collect alg _ (fun out => .ret _) refs ∅
  | add | addAndPersist | persist => cases hcode
  | restore group b =>
    simp only [code] at hcode
    split at hcode <;> cases hcode
  | merge group remote => cases remote <;> cases hcode
  | mergeBytes group algoName b =>
    simp only [code] at hcode
    repeat' split at hcode
    all_goals cases hcode
  | unmarshal gob order data =>
    simp only [code] at hcode
    repeat' split at hcode
    all_goals cases hcode

end ReadOnly

/-! ## Interleavings -/

section Interleavings

variable {alg : Algorithm σ} {callers : List σ} {m m' : Memory σ W}

theorem wellFormed_initial (callers : List σ) (world : W) :
    WellFormed callers (Memory.initial callers world) :=
  ⟨fun g ref hg => absurd hg (by simp [Memory.initial]),
    fun g g' ref hg => absurd hg (by simp [Memory.initial]), fun _ _ => rfl⟩

theorem engine_initial (callers : List σ) (world : W) :
    (Memory.initial callers world).engine alg = Engine.new alg := by
  refine Engine.ext (Std.ExtTreeMap.ext_getElem? fun g => ?_)
  rw [getElem?_engine]
  simp [Memory.initial, Engine.new]

theorem keeps_wellFormed (hname : ∀ sk, alg.algoName sk = alg.name) :
    Keeps (code alg : Op alg W callers.length → Code (Memory σ W) Result) (WellFormed callers)
      fun _ _ => True := by
  intro op mode body hcode m h
  have hdoes := refines hname h op
  rw [hcode] at hdoes
  exact hdoes.1

theorem apply_of_alone (hname : ∀ sk, alg.algoName sk = alg.name) (h : WellFormed callers m)
    {op : Op alg W callers.length} {r : Result} (halone : (code alg op).alone m = (m', r)) :
    op.apply callers (m.engine alg, m.world) = ((m'.engine alg, m'.world), r) := by
  have hdoes := refines hname h op
  cases hcode : code alg op with
  | done r' =>
    rw [hcode] at hdoes halone
    cases halone
    exact hdoes.symm
  | take mode body =>
    rw [hcode] at hdoes halone
    rw [← hdoes.2, show body.exec m = (m', r) from halone]

/-- **The engine is safe for concurrent use.** Every interleaving of calls of its ten methods is
atomic: the calls that have left look as if each had been one step of `Engine.lean`, in the order
in which they left. That order keeps a call that had left before another one was made in front of
it, and no call is ever stuck. -/
theorem engine_atomic (hname : ∀ sk, alg.algoName sk = alg.name) (callers : List σ) (world : W)
    {labels : List (Label (Op alg W callers.length))}
    {st : State (Op alg W callers.length) (Memory σ W) Result}
    (h : run (step (code alg)) (State.initial (Memory.initial callers world)) labels = some st) :
    (∃ log, Atomic (Op.apply callers) (fun m => (m.engine alg, m.world)) (Engine.new alg, world)
      st log) ∧
    (∀ before after mid, labels = before ++ after →
      run (step (code alg)) (State.initial (Memory.initial callers world)) before = some mid →
      mid.left <+: st.left) ∧
    ∃ labels' st', run (step (code alg)) st labels' = some st' ∧
      st'.calls.map Call.op = st.calls.map Call.op ∧ ∀ c ∈ st'.calls, c.place.pending = false := by
  refine ⟨?_, fun before after mid hlabels hmid => ?_, completes (code alg) st⟩
  · have hatomic : ∃ log, Atomic (Op.apply callers) (fun m => (m.engine alg, m.world))
        ((Memory.initial callers world).engine alg, world) st log :=
      atomic_of_sections (readOnly_code alg) (keeps_wellFormed hname)
        (fun _ _ _ _ hwf => apply_of_alone hname hwf) (wellFormed_initial callers world) h
    rwa [engine_initial] at hatomic
  · rw [hlabels, run_append_eq_some] at h
    obtain ⟨mid', hmid', hrest⟩ := h
    rw [hmid, Option.some.injEq] at hmid'
    exact left_of_run (hmid' ▸ hrest)

/-- An add, and a query that is made while it is inside and waits for the lock. -/
theorem engine_atomic_overlap :
    ∃ st, run (step (code (Hll.algorithm Murmur3.sum64))) (State.initial (Memory.initial [] ()))
        [.invoke (.add (str "g") 7), .lock 0, .exec 0, .invoke (.cardinality (str "g")), .exec 0,
          .exec 0, .unlock 0, .lock 1, .exec 1, .ret 0] = some st ∧
      ∃ log, Atomic (Op.apply []) (fun m => (m.engine (Hll.algorithm Murmur3.sum64), m.world))
        (Engine.new _, ()) st log := by
  refine (exists_congr fun st => and_iff_left_of_imp fun h => ?_).mpr ⟨_, rfl⟩
  exact (engine_atomic (fun _ => rfl) [] () h).1

/-- **No sketch is shared.** In every state of every interleaving, also between the statements of a
call: two groups never refer to one sketch, no group refers to a sketch of a caller, and the
callers' sketches are untouched. What the callers do to their own sketches, such as one that was
merged into the engine, can therefore not change the engine. -/
theorem engine_isolated (hname : ∀ sk, alg.algoName sk = alg.name) (callers : List σ) (world : W)
    {labels : List (Label (Op alg W callers.length))}
    {st : State (Op alg W callers.length) (Memory σ W) Result}
    (h : run (step (code alg)) (State.initial (Memory.initial callers world)) labels = some st) :
    (∀ (g g' : GoString) ref, st.shared.groups[g]? = some ref →
      st.shared.groups[g']? = some ref → g = g') ∧
    (∀ (g : GoString) ref, st.shared.groups[g]? = some ref →
      callers.length ≤ ref ∧ ref < st.shared.objects.length) ∧
    (∀ ref : ℕ, ref < callers.length → st.shared.objects[ref]? = callers[ref]?) ∧
    ∀ objects : List σ, (∀ ref : ℕ, callers.length ≤ ref →
        objects[ref]? = st.shared.objects[ref]?) →
      Memory.engine alg { st.shared with objects } = st.shared.engine alg := by
  have hwf : WellFormed callers st.shared :=
    invariant_of_sections (readOnly_code alg) (keeps_wellFormed hname) (fun _ => trivial)
      (wellFormed_initial callers world) h
  refine ⟨hwf.injective, hwf.bounds, hwf.callers_eq, fun objects hobjects => ?_⟩
  refine Engine.ext (Std.ExtTreeMap.ext_getElem? fun g => ?_)
  rw [getElem?_engine, getElem?_engine]
  cases hg : st.shared.groups[g]? with
  | none => rw [Option.map_none, Option.map_none]
  | some ref =>
    have hsame := hobjects ref (hwf.bounds g ref hg).1
    simp only [Option.map_some, Memory.object, List.getD_eq_getElem?_getD, hsame]

/-- A caller's sketch is merged into two groups, and the second merge is still inside. -/
theorem engine_isolated_merge :
    ∃ st, run (step (code (Hll.algorithm Murmur3.sum64)))
        (State.initial (Memory.initial [(Hll.algorithm Murmur3.sum64).new] ()))
        [.invoke (.merge (str "a") (.own ⟨0, Nat.one_pos⟩)),
          .invoke (.merge (str "b") (.own ⟨0, Nat.one_pos⟩)), .lock 0, .exec 0, .exec 0, .exec 0,
          .unlock 0, .lock 1, .exec 1, .exec 1, .exec 1] = some st ∧
      ∀ (g g' : GoString) ref, st.shared.groups[g]? = some ref →
        st.shared.groups[g']? = some ref → g = g' := by
  refine (exists_congr fun st => and_iff_left_of_imp fun h => ?_).mpr ⟨_, rfl⟩
  exact (engine_isolated (fun _ => rfl) [(Hll.algorithm Murmur3.sum64).new] () h).1

end Interleavings

end Concurrent
end CardinalityTracker
