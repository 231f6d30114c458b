import CardinalityTracker.Raft.ApplyTheorems
import CardinalityTracker.Reference.Storage

/-!
# Concrete log entries

Entries of the Raft log as the concrete codec writes them, for inputs on which the theorems
are evaluated: commands for the group `g`, and windows of them long enough to make a
snapshot due.
-/

namespace CardinalityTracker
namespace EtcdStorage

open Lib

/-- An entry for the group `g`, of a command whose type and payload lengths fit one byte. -/
def entryFor (type : GoString) (payload : Bytes) (term index : ℕ) : Entry :=
  ⟨.normal, term, index, [0x0a, UInt8.ofNat type.length] ++ type ++ [0x12, 1] ++ str "g"
    ++ [0x1a, UInt8.ofNat payload.length] ++ payload⟩

/-- The entry that adds id 5. -/
def addFive (term index : ℕ) : Entry := entryFor typeAdd [5] term index

/-- A `BATCH_ADD` that announces two ids and holds one. -/
def truncatedBatch (term index : ℕ) : Entry := entryFor typeBatchAdd [2, 1] term index

/-- The start of every log: the configuration entry of the bootstrap, in term 1, and the
empty entry of the first leader, in term 2. -/
def bootLog : List Entry := [⟨.confChange, 1, 1, [8, 0, 16, 0, 24, 1]⟩, ⟨.normal, 2, 2, []⟩]

/-- Adds at the indices from `first` on. -/
def adds (term first count : ℕ) : List Entry :=
  (List.range count).map fun i => addFive term (first + i)

/-! ## What they carry -/

theorem command_addFive (term index : ℕ) :
    (addFive term index).command Protobuf.codec = some ⟨typeAdd, str "g", [5]⟩ := by
  show (addFive 0 0).command Protobuf.codec = _
  decide +kernel

theorem command_truncatedBatch (term index : ℕ) :
    (truncatedBatch term index).command Protobuf.codec
      = some ⟨typeBatchAdd, str "g", [2, 1]⟩ := by
  show (truncatedBatch 0 0).command Protobuf.codec = _
  decide +kernel

variable (sum64 : Bytes → UInt64)

theorem update_addFive (term index : ℕ) :
    (addFive term index).update Protobuf.codec (Hll.algorithm sum64)
      = ⟨str "g", some ((Hll.algorithm sum64).single 5), true⟩ := by
  unfold Entry.update
  rw [command_addFive]
  rfl

theorem accepted_addFive (term index : ℕ) :
    (addFive term index).accepted Protobuf.codec (Hll.algorithm sum64) = true := by
  unfold Entry.accepted
  rw [update_addFive]

/-- The batch joins the id it holds and is refused. -/
theorem update_truncatedBatch (term index : ℕ) :
    (truncatedBatch term index).update Protobuf.codec (Hll.algorithm sum64)
      = ⟨str "g", some ((Hll.algorithm sum64).sketchOf [1]), false⟩ := by
  unfold Entry.update
  rw [command_truncatedBatch]
  rfl

theorem accepted_truncatedBatch (term index : ℕ) :
    (truncatedBatch term index).accepted Protobuf.codec (Hll.algorithm sum64) = false := by
  unfold Entry.accepted
  rw [update_truncatedBatch]

/-! ## Windows of adds -/

theorem countP_adds (term first count : ℕ) :
    (adds term first count).countP (Entry.accepted Protobuf.codec (Hll.algorithm sum64))
      = count := by
  unfold adds
  rw [List.countP_map, List.countP_eq_length.mpr, List.length_range]
  intro i _
  exact accepted_addFive sum64 term (first + i)

/-- A window is cut in two at any place. -/
theorem adds_add (term first count count' : ℕ) :
    adds term first (count + count')
      = adds term first count ++ adds term (first + count) count' := by
  unfold adds
  rw [List.range_add, List.map_append, List.map_map]
  refine congrArg _ (List.map_congr_left fun i _ => ?_)
  rw [Function.comp_apply, Nat.add_assoc]

theorem adds_succ (term first count : ℕ) :
    adds term first (count + 1) = adds term first count ++ [addFive term (first + count)] :=
  adds_add term first count 1

theorem adds_cons (term first count : ℕ) :
    adds term first (count + 1) = addFive term first :: adds term (first + 1) count := by
  rw [Nat.add_comm, adds_add]
  rfl

@[simp] theorem length_adds (term first count : ℕ) : (adds term first count).length = count := by
  unfold adds
  rw [List.length_map, List.length_range]

theorem lastAccepted_adds (idx term first count : ℕ) :
    Node.lastAccepted Protobuf.codec (Hll.algorithm sum64) idx (adds term first (count + 1))
      = first + count := by
  rw [adds_succ, Node.lastAccepted_concat, accepted_addFive, if_pos rfl]
  rfl

/-- The indices of the window follow each other. -/
theorem contiguous_adds (term first count : ℕ) : Contiguous first (adds term first count) := by
  intro i e h
  unfold adds at h
  rw [List.getElem?_map, Option.map_eq_some_iff] at h
  obtain ⟨j, hj, rfl⟩ := h
  obtain ⟨_, hget⟩ := List.getElem?_eq_some_iff.mp hj
  rw [List.getElem_range] at hget
  rw [hget]
  rfl

/-- However many adds of one id are applied, the group holds that one id. -/
theorem joins_adds (m : StringMap Hll.Sketch) (term first count : ℕ) :
    ((adds term first (count + 1)).map fun e =>
        (e.update Protobuf.codec (Hll.algorithm sum64)).joins).foldl joinOpt m
      = joinAt m (str "g") ((Hll.algorithm sum64).single 5) := by
  have hjoins : (adds term first (count + 1)).map
      (fun e => (e.update Protobuf.codec (Hll.algorithm sum64)).joins)
      = List.replicate (count + 1) (some (str "g", (Hll.algorithm sum64).single 5)) := by
    unfold adds
    rw [List.map_map, List.eq_replicate_iff]
    refine ⟨by simp, ?_⟩
    intro x hx
    obtain ⟨i, -, rfl⟩ := List.mem_map.mp hx
    rw [Function.comp_apply, update_addFive]
    rfl
  have hset : ∀ x, x ∈ List.replicate (count + 1) (some (str "g", (Hll.algorithm sum64).single 5))
      ↔ x ∈ [some (str "g", (Hll.algorithm sum64).single 5)] := by
    simp
  rw [hjoins, absorbing_joinOpt.foldl_congr hset]
  rfl

/-- An engine with the one group `g` is marshalled. -/
theorem marshal_singleton {e : Engine (Hll.algorithm sum64)} {sk : Hll.Sketch}
    (h : e.groups = joinAt ∅ (str "g") sk) :
    ∃ data, e.marshal GobCodec.codec GobCodec.keyOrder = .ok data := by
  have hsize : (str "g").length + (sk : Hll.Sketch).bytes.length < 2 ^ 20 := by
    rw [Hll.length_bytes, Hll.numRegs_eq]
    decide
  obtain ⟨data, hdata⟩ := GobCodec.encode_singleton hsize
  refine ⟨data, ?_⟩
  have hwire : (GobCodec.keyOrder.range e.groups).foldl
      (fun w p => w.insert p.1 ((Hll.algorithm sum64).bytes p.2)) (∅ : StringMap Bytes)
      = (∅ : StringMap Bytes).insert (str "g") sk.bytes := by
    have hval : value (∅ : StringMap Hll.Sketch) (str "g") ⊔ sk = sk := by
      rw [value_empty, bot_sup_eq]
    rw [h]
    unfold joinAt
    rw [hval]
    rfl
  have henc : GobCodec.codec.encode ((∅ : StringMap Bytes).insert (str "g") sk.bytes) = .ok data :=
    hdata
  unfold Engine.marshal
  rw [hwire]
  dsimp only
  rw [henc]

end EtcdStorage
end CardinalityTracker
