import CardinalityTracker.Go
import CardinalityTracker.Lib.JoinFold

/-!
# The sketch contract (`internal/cardinality/sketch.go`)

The Go interfaces `Sketch` and `Algorithm` become one record of operations over the type
`σ` of sketches: a sketch that mutates in place becomes a function that returns the new
sketch. `Algorithm.IsJoin` is the abstract layer above it, what a cardinality sketch is
for: sketches are a join-semilattice whose bottom is the empty sketch, adding an id joins
its one-id sketch, merging is the join, and the serialised bytes parse back.
-/

namespace CardinalityTracker

/-- The method tables of the interfaces `Algorithm` (`Name`, `New`, `Parse`) and `Sketch`
(the rest). The error of `Parse` is its text. -/
structure Algorithm (σ : Type) where
  name : GoString
  new : σ
  parse : Bytes → Except GoString σ
  algoName : σ → GoString
  add : σ → UInt64 → σ
  cardinality : σ → UInt64
  merge : σ → σ → σ
  bytes : σ → Bytes
  clone : σ → σ

namespace Algorithm

variable {σ : Type} (alg : Algorithm σ)

/-- The sketch that holds one id. -/
def single (id : UInt64) : σ := alg.add alg.new id

/-- The sketch of a list of ids: each of them added in turn to an empty sketch. -/
def sketchOf (ids : List UInt64) : σ := ids.foldl alg.add alg.new

theorem sketchOf_concat (ids : List UInt64) (id : UInt64) :
    alg.sketchOf (ids ++ [id]) = alg.add (alg.sketchOf ids) id := by
  unfold sketchOf
  rw [List.foldl_append, List.foldl_cons, List.foldl_nil]

variable [SemilatticeSup σ] [OrderBot σ]

/-- Sketches that behave as a join-semilattice of id sets. -/
structure IsJoin : Prop where
  new_eq : alg.new = ⊥
  add_eq : ∀ s id, alg.add s id = s ⊔ alg.single id
  merge_eq : ∀ s t, alg.merge s t = s ⊔ t
  clone_eq : ∀ s, alg.clone s = s
  algoName_eq : ∀ s, alg.algoName s = alg.name
  parse_bytes : ∀ s, alg.parse (alg.bytes s) = .ok s

variable {alg}

theorem IsJoin.sketchOf_concat (h : alg.IsJoin) (ids : List UInt64) (id : UInt64) :
    alg.sketchOf (ids ++ [id]) = alg.sketchOf ids ⊔ alg.single id := by
  rw [Algorithm.sketchOf_concat, h.add_eq]

/-- The sketch of some ids is the least one above the sketch of each of them. -/
theorem IsJoin.sketchOf_le_iff (h : alg.IsJoin) (ids : List UInt64) (s : σ) :
    alg.sketchOf ids ≤ s ↔ ∀ id ∈ ids, alg.single id ≤ s := by
  induction ids using List.reverseRecOn with
  | nil =>
    have hbot : alg.sketchOf [] = ⊥ := h.new_eq
    simp [hbot]
  | append_singleton ids id ih =>
    rw [h.sketchOf_concat, sup_le_iff, ih]
    simp [or_imp, forall_and]

/-- The sketch of two lists of ids together is the join of their sketches. -/
theorem IsJoin.sketchOf_append (h : alg.IsJoin) (xs ys : List UInt64) :
    alg.sketchOf (xs ++ ys) = alg.sketchOf xs ⊔ alg.sketchOf ys := by
  apply eq_of_forall_ge_iff
  intro s
  rw [sup_le_iff, h.sketchOf_le_iff, h.sketchOf_le_iff, h.sketchOf_le_iff, List.forall_mem_append]

/-- Neither the order of the ids nor a repetition matters. -/
theorem IsJoin.sketchOf_congr (h : alg.IsJoin) {xs ys : List UInt64}
    (hsame : ∀ id, id ∈ xs ↔ id ∈ ys) : alg.sketchOf xs = alg.sketchOf ys := by
  apply eq_of_forall_ge_iff
  intro s
  rw [h.sketchOf_le_iff, h.sketchOf_le_iff]
  simp only [hsame]

/-- Serialised sketches determine the sketch. -/
theorem IsJoin.bytes_injective (h : alg.IsJoin) : Function.Injective alg.bytes := by
  intro s t hst
  have hs := h.parse_bytes s
  rw [hst, h.parse_bytes t] at hs
  exact (Except.ok.inj hs).symm

end Algorithm

end CardinalityTracker
