import Fediux.Basic.Run

set_option autoImplicit false

/-! # Threads that share a mutex

Finitely many threads, each in a phase of its own. `Exclusive` says that the mutex is held by the
one thread whose phase holds it, `census` counts the threads by weight, and a system whose own
steps make a measure smaller runs until it is `Settled`.
-/

namespace Threads

open Transition (run run_cons_eq_some run_append)

variable {θ P : Type}

/-! ## The mutex -/

/-- The mutex is held by exactly the thread in a phase that holds it. -/
def Exclusive (holds : P → Bool) (mutex : Option θ) (phase : θ → P) : Prop :=
  ∀ t, mutex = some t ↔ holds (phase t) = true

section Exclusive

variable [DecidableEq θ] {holds : P → Bool} {mutex : Option θ} {phase : θ → P} {t u : θ} {p : P}

/-- A thread that moves between two phases that hold the lock, or between two that do not. -/
theorem Exclusive.keep (h : Exclusive holds mutex phase) (hp : holds p = holds (phase t)) :
    Exclusive holds mutex (Function.update phase t p) := by
  intro u
  by_cases hu : u = t
  · subst hu
    rw [Function.update_self, hp]
    exact h u
  · rw [Function.update_of_ne hu]
    exact h u

/-- A thread that takes the free lock. -/
theorem Exclusive.acquire (h : Exclusive holds none phase) (hp : holds p = true) :
    Exclusive holds (some t) (Function.update phase t p) := by
  intro u
  by_cases hu : u = t
  · subst hu
    rw [Function.update_self, hp]
    simp
  · rw [Function.update_of_ne hu, ← h u]
    simp [Ne.symm hu]

/-- A thread that gives its lock back. -/
theorem Exclusive.release (h : Exclusive holds mutex phase) (ht : holds (phase t) = true)
    (hp : holds p = false) : Exclusive holds none (Function.update phase t p) := by
  intro u
  by_cases hu : u = t
  · subst hu
    rw [Function.update_self, hp]
    simp
  · rw [Function.update_of_ne hu, ← h u, (h t).mpr ht]
    simp [Ne.symm hu]

omit [DecidableEq θ] in
/-- No two threads hold the lock. -/
theorem Exclusive.unique (h : Exclusive holds mutex phase) (ht : holds (phase t) = true)
    (hu : holds (phase u) = true) : t = u :=
  Option.some.inj (((h t).mpr ht).symm.trans ((h u).mpr hu))

omit [DecidableEq θ] in
/-- While the lock is free, no thread is in a phase that holds it. -/
theorem Exclusive.free (h : Exclusive holds (none : Option θ) phase) : holds (phase t) = false := by
  by_contra ht
  rw [Bool.not_eq_false, ← h t] at ht
  cases ht

end Exclusive

/-! ## Counting threads -/

section Census

variable [Fintype θ]

/-- The weights of the phases of all threads together. -/
def census (weight : P → ℕ) (phase : θ → P) : ℕ := ∑ t, weight (phase t)

variable {weight : P → ℕ} {phase : θ → P}

/-- When one thread moves, its new weight comes in place of the old one. -/
theorem census_update [DecidableEq θ] (weight : P → ℕ) (phase : θ → P) (t : θ) (p : P) :
    census weight (Function.update phase t p) + weight (phase t)
      = census weight phase + weight p := by
  have hcomp : (fun u => weight (Function.update phase t p u))
      = Function.update (fun u => weight (phase u)) t (weight p) := by
    funext u
    exact Function.apply_update (fun _ => weight) phase t p u
  have hrest := Finset.sum_erase_add Finset.univ (fun u => weight (phase u)) (Finset.mem_univ t)
  unfold census
  rw [hcomp, Finset.sum_update_of_mem (Finset.mem_univ t), Finset.sdiff_singleton_eq_erase]
  omega

theorem census_le_census {weight' : P → ℕ} (h : ∀ p, weight p ≤ weight' p) :
    census weight phase ≤ census weight' phase :=
  Finset.sum_le_sum fun t _ => h (phase t)

theorem le_census (weight : P → ℕ) (phase : θ → P) (t : θ) : weight (phase t) ≤ census weight phase :=
  Finset.single_le_sum (f := fun u => weight (phase u)) (fun _ _ => Nat.zero_le _)
    (Finset.mem_univ t)

theorem census_eq_zero : census weight phase = 0 ↔ ∀ t, weight (phase t) = 0 := by
  simp [census]

theorem exists_of_census_ne_zero (h : census weight phase ≠ 0) : ∃ t, weight (phase t) ≠ 0 := by
  by_contra hnone
  push Not at hnone
  exact h (census_eq_zero.mpr hnone)

/-- Where at most one thread counts, the weights are those of one thread. -/
theorem census_le_one (hle : ∀ p, weight p ≤ 1)
    (h : ∀ t u, weight (phase t) ≠ 0 → weight (phase u) ≠ 0 → t = u) :
    census weight phase ≤ 1 := by
  by_cases hzero : census weight phase = 0
  · omega
  · obtain ⟨t, ht⟩ := exists_of_census_ne_zero hzero
    have hothers : ∀ u ∈ Finset.univ, u ≠ t → weight (phase u) = 0 := by
      intro u _ hu
      by_contra hne
      exact hu (h u t hne ht)
    calc census weight phase = weight (phase t) :=
          Finset.sum_eq_single t hothers fun hmem => absurd (Finset.mem_univ t) hmem
      _ ≤ 1 := hle _

end Census

/-! ## Running until nothing is left to do -/

section Settling

variable {σ α : Type} {step : σ → α → Option σ} {internal : α → Prop} {μ : σ → ℕ} {s s' : σ}

/-- No step of the system's own is possible. -/
def Settled (step : σ → α → Option σ) (internal : α → Prop) (s : σ) : Prop :=
  ∀ a, internal a → step s a = none

/-- Each own step makes the measure smaller. -/
def Decreasing (step : σ → α → Option σ) (internal : α → Prop) (μ : σ → ℕ) : Prop :=
  ∀ s a s', internal a → step s a = some s' → μ s' < μ s

/-- A run of own steps is no longer than the measure is large. -/
theorem Decreasing.length_le (hμ : Decreasing step internal μ) {as : List α}
    (has : ∀ a ∈ as, internal a) (h : run step s as = some s') : as.length + μ s' ≤ μ s := by
  induction as generalizing s with
  | nil =>
      cases h
      simp
  | cons a as ih =>
      obtain ⟨s₁, h₁, h⟩ := run_cons_eq_some.mp h
      have hlt := hμ s a s₁ (has a List.mem_cons_self) h₁
      have hle := ih (fun b hb => has b (List.mem_cons_of_mem _ hb)) h
      rw [List.length_cons]
      omega

/-- **Own steps come to an end.** -/
theorem Decreasing.exists_settled (hμ : Decreasing step internal μ) (s : σ) :
    ∃ as s', (∀ a ∈ as, internal a) ∧ run step s as = some s' ∧ Settled step internal s' := by
  induction hn : μ s using Nat.strong_induction_on generalizing s with
  | _ n ih =>
      by_cases hs : Settled step internal s
      · exact ⟨[], s, by simp, rfl, hs⟩
      · unfold Settled at hs
        push Not at hs
        obtain ⟨a, ha, hne⟩ := hs
        obtain ⟨s₁, h₁⟩ := Option.ne_none_iff_exists'.mp hne
        obtain ⟨as, s', has, h, hs'⟩ := ih (μ s₁) (hn ▸ hμ s a s₁ ha h₁) s₁ rfl
        refine ⟨a :: as, s', ?_, run_cons_eq_some.mpr ⟨s₁, h₁, h⟩, hs'⟩
        intro b hb
        rcases List.mem_cons.mp hb with rfl | hb
        · exact ha
        · exact has b hb

end Settling

end Threads
