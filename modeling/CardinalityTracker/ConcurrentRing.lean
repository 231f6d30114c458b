import CardinalityTracker.Lib.RwMutex
import CardinalityTracker.Reference.Murmur3
import CardinalityTracker.Router

/-!
# The ring under concurrent calls

`Router.lean` takes a method of the ring as one step. Here `AddNode`, `RemoveNode` and `Resolve`
run concurrently, one statement at a time, under the ring's `sync.RWMutex`. Between the statements
of `AddNode` the slice is not sorted, and the points of the node are only partly there; between
those of `RemoveNode` the slice has points that the map has lost. `ring_atomic` says that no
`Resolve` ever sees such a ring: its answer is that of a ring on which whole calls have been made.

The comparisons and swaps of `sort.Slice`, and the probes of `sort.Search`, are not taken apart.
-/

namespace CardinalityTracker
namespace Ring

open Lib Lib.RwMutex

/-- A call of a method of the ring. -/
inductive Op
  | addNode (addr : GoString)
  | removeNode (addr : GoString)
  | resolve (group : GoString)
deriving DecidableEq, Repr

section Code

variable (sum32 : Bytes → UInt32)

/-- The loop of `AddNode`, then `rest`: an append to the slice and a write to the map each time. -/
def addStmts (addr : GoString) (rest : Body Ring (Option GoString)) :
    List ℕ → Body Ring (Option GoString)
  | [] => rest
  | i :: is =>
    let h := sum32 (label addr i)
    .stmt (fun r => { r with ring := r.ring ++ [h] }) fun _ =>
      .stmt (fun r => { r with nodeMap := r.nodeMap.insert h addr }) fun _ => addStmts addr rest is

/-- The loop of `RemoveNode`, over the slice as it was when the loop began, and the assignment of
`keep` after it. -/
def removeStmts (addr : GoString) : List UInt32 → List UInt32 → Body Ring (Option GoString)
  | [], keep => .stmt (fun r => { r with ring := keep }) fun _ => .ret none
  | h :: hs, keep =>
    .stmt id fun r =>
      if ownerOf r.nodeMap h ≠ addr then removeStmts addr hs (keep ++ [h])
      else .stmt (fun r => { r with nodeMap := r.nodeMap.erase h }) fun _ =>
        removeStmts addr hs keep

/-- The methods. -/
def code : Op → Code Ring (Option GoString)
  | .addNode addr =>
    .take .write <| addStmts sum32 addr
      (.stmt (fun r => { r with ring := r.ring.insertionSort (· ≤ ·) }) fun _ => .ret none)
      (List.range vnodesPerNode)
  | .removeNode addr => .take .write <| .stmt id fun r => removeStmts addr r.ring []
  | .resolve group =>
    .take .read <| .stmt id fun r =>
      if r.ring.length = 0 then .ret (some [])
      else
        .stmt id fun r =>
          let h := sum32 group
          let idx := search r.ring.length fun i => decide (h ≤ r.ring.getD i 0)
          .stmt id fun r =>
            let idx := if idx = r.ring.length then 0 else idx
            .stmt id fun r => .ret (some (ownerOf r.nodeMap (r.ring.getD idx 0)))

/-- A call as one step, by the methods of `Router.lean`. -/
def Op.apply (op : Op) (r : Ring) : Ring × Option GoString :=
  match op with
  | .addNode addr => (r.addNode sum32 addr, none)
  | .removeNode addr => (r.removeNode addr, none)
  | .resolve group => (r, some (r.resolve sum32 group))

end Code

variable {sum32 : Bytes → UInt32}

theorem exec_addStmts (addr : GoString) (rest : Body Ring (Option GoString)) (is : List ℕ)
    (r : Ring) :
    (addStmts sum32 addr rest is).exec r = rest.exec (is.foldl (addPoint sum32 addr) r) := by
  induction is generalizing r with
  | nil => rfl
  | cons i is ih => exact ih _

theorem exec_removeStmts (addr : GoString) (hs keep : List UInt32) (r : Ring) :
    (removeStmts addr hs keep).exec r
      = (⟨(removeLoop addr hs keep r.nodeMap).1, (removeLoop addr hs keep r.nodeMap).2⟩, none) := by
  induction hs generalizing keep r with
  | nil => rfl
  | cons h hs ih =>
    simp only [removeStmts, removeLoop, Body.exec, id_eq]
    by_cases howner : ownerOf r.nodeMap h ≠ addr
    · rw [if_pos howner, if_pos howner]
      exact ih (keep ++ [h]) r
    · rw [if_neg howner, if_neg howner]
      exact ih keep { r with nodeMap := r.nodeMap.erase h }

/-- A call executed alone is one step. -/
theorem alone_code (op : Op) (r : Ring) : (code sum32 op).alone r = op.apply sum32 r := by
  cases op with
  | addNode addr => exact exec_addStmts addr _ _ r
  | removeNode addr => exact exec_removeStmts addr r.ring [] r
  | resolve group =>
    unfold code Op.apply resolve
    simp only [Code.alone, Body.exec, id_eq]
    split <;> rfl

theorem readOnly_code (sum32 : Bytes → UInt32) : ReadOnly (code sum32) := by
  intro op body hcode
  cases op with
  | addNode | removeNode => cases hcode
  | resolve group =>
    cases hcode
    refine .stmt (fun _ => rfl) fun r => ?_
    by_cases hempty : r.ring.length = 0
    · rw [if_pos hempty]
      exact .ret _
    · rw [if_neg hempty]
      refine .stmt (fun _ => rfl) fun _ => .stmt (fun _ => rfl) fun _ => ?_
      exact .stmt (fun _ => rfl) fun _ => .ret _

/-- **The ring is safe for concurrent use.** Every interleaving of calls of its three methods is
atomic. In particular the answer of a `Resolve` is that of the ring on which exactly the calls that
left before it have been made, each of them as a whole. -/
theorem ring_atomic (sum32 : Bytes → UInt32) {labels : List (Label Op)}
    {st : State Op Ring (Option GoString)}
    (h : run (step (code sum32)) (State.initial new) labels = some st) :
    ∃ log, Atomic (Op.apply sum32) id new st log ∧
      ∀ k group answer, st.outcome k = some (.resolve group, answer) →
        ∃ before after, log = before ++ (.resolve group, answer) :: after ∧
          answer = some ((applyAll (Op.apply sum32) (before.map Prod.fst) new).1.resolve sum32
            group) := by
  have hatomic : ∃ log, Atomic (Op.apply sum32) id (id new) st log := by
    refine atomic_of_sections (readOnly_code sum32) (keeps_true _)
      (fun op r r' answer _ halone => ?_) trivial h
    rw [← alone_code]
    exact halone
  obtain ⟨log, hlog⟩ := hatomic
  exact ⟨log, hlog, fun k group answer hk => hlog.result hk⟩

/-- A `Resolve` that is answered while an `AddNode` waits, and one that waits for it. -/
theorem ring_atomic_waits :
    ∃ st, run (step (code Murmur3.sum32)) (State.initial new)
        [.invoke (.resolve (str "g")), .lock 0, .invoke (.addNode (str "a:1")), .exec 0, .unlock 0,
          .lock 1, .exec 1, .invoke (.resolve (str "g")), .ret 0, .exec 1] = some st ∧
      ∃ log, Atomic (Op.apply Murmur3.sum32) id new st log := by
  refine (exists_congr fun st => and_iff_left_of_imp fun h => ?_).mpr ⟨_, rfl⟩
  obtain ⟨log, hlog, -⟩ := ring_atomic Murmur3.sum32 h
  exact ⟨log, hlog⟩

end Ring
end CardinalityTracker
