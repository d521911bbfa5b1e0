import Mathlib

set_option autoImplicit false

/-! # Runs of a transition system

A system is a partial step function: an action is taken in a state, or is not possible there.
`run` takes a list of actions, `trace` lists the steps taken, and `run_invariant` carries what
every step preserves from the first state of a run to its last. Many systems are lists of
components that are changed one at a time by `List.modify`.
-/

namespace Transition

variable {σ α : Type}

/-- A step that was taken. -/
structure Taken (σ α : Type) where
  before : σ
  act : α
  after : σ
  deriving DecidableEq, Repr

/-- Take the actions one after the other. -/
def run (step : σ → α → Option σ) : σ → List α → Option σ
  | s, [] => some s
  | s, a :: as =>
      match step s a with
      | none => none
      | some s' => run step s' as

/-- The steps taken by a list of actions, up to the first one that is not possible. -/
def trace (step : σ → α → Option σ) : σ → List α → List (Taken σ α)
  | _, [] => []
  | s, a :: as =>
      match step s a with
      | none => []
      | some s' => ⟨s, a, s'⟩ :: trace step s' as

variable {step : σ → α → Option σ}

theorem run_cons_eq_some {s s' : σ} {a : α} {as : List α} :
    run step s (a :: as) = some s' ↔ ∃ s₁, step s a = some s₁ ∧ run step s₁ as = some s' := by
  rw [run]
  cases step s a with
  | none => simp
  | some s₁ => simp

theorem run_append {s s₁ s' : σ} {as as' : List α} (h : run step s as = some s₁)
    (h' : run step s₁ as' = some s') : run step s (as ++ as') = some s' := by
  induction as generalizing s with
  | nil =>
      cases h
      exact h'
  | cons a as ih =>
      obtain ⟨s₂, hs, h⟩ := run_cons_eq_some.mp h
      exact run_cons_eq_some.mpr ⟨s₂, hs, ih h⟩

/-- The steps of a trace are steps of the system. -/
theorem step_of_mem_trace {s : σ} {as : List α} {e : Taken σ α} (h : e ∈ trace step s as) :
    step e.before e.act = some e.after := by
  induction as generalizing s with
  | nil => cases h
  | cons a as ih =>
      rw [trace] at h
      cases hs : step s a with
      | none =>
          rw [hs] at h
          cases h
      | some s₁ =>
          rw [hs] at h
          rcases List.mem_cons.mp h with rfl | h
          · exact hs
          · exact ih h

theorem act_mem_of_mem_trace {s : σ} {as : List α} {e : Taken σ α} (h : e ∈ trace step s as) :
    e.act ∈ as := by
  induction as generalizing s with
  | nil => cases h
  | cons a as ih =>
      rw [trace] at h
      cases hs : step s a with
      | none =>
          rw [hs] at h
          cases h
      | some s₁ =>
          rw [hs] at h
          rcases List.mem_cons.mp h with rfl | h
          · exact List.mem_cons_self
          · exact List.mem_cons_of_mem _ (ih h)

/-- **What the steps of a run preserve holds at its end.** -/
theorem run_invariant (P : σ → Prop) {s s' : σ} {as : List α}
    (hstep : ∀ e ∈ trace step s as, P e.before → P e.after) (hs : P s)
    (h : run step s as = some s') : P s' := by
  induction as generalizing s with
  | nil =>
      cases h
      exact hs
  | cons a as ih =>
      obtain ⟨s₁, h₁, h⟩ := run_cons_eq_some.mp h
      rw [trace, h₁] at hstep
      have hs₁ : P s₁ := hstep ⟨s, a, s₁⟩ List.mem_cons_self hs
      exact ih (fun e he => hstep e (List.mem_cons_of_mem _ he)) hs₁ h

/-! ## One component changes -/

variable {ω : Type} {ops : List ω} {f : ω → ω}

/-- A component after the change of the component `i`. -/
theorem getElem?_modify_eq_some {i j : Nat} {a : ω} (h : (ops.modify i f)[j]? = some a) :
    ∃ old, ops[j]? = some old ∧ a = if i = j then f old else old := by
  rw [List.getElem?_modify] at h
  obtain ⟨old, hold, rfl⟩ := Option.map_eq_some_iff.mp h
  exact ⟨old, hold, rfl⟩

theorem getElem?_modify_of_some {i j : Nat} {old : ω} (h : ops[j]? = some old) :
    (ops.modify i f)[j]? = some (if i = j then f old else old) := by
  rw [List.getElem?_modify, h]
  rfl

/-- A component after a new one has come. -/
theorem getElem?_concat_eq_some {i : Nat} {a new : ω} (h : (ops ++ [new])[i]? = some a) :
    ops[i]? = some a ∨ (i = ops.length ∧ a = new) := by
  by_cases hlt : i < ops.length
  · rw [List.getElem?_append_left hlt] at h
    exact Or.inl h
  · obtain ⟨hle, _⟩ := List.getElem?_eq_some_iff.mp h
    rw [List.length_append, List.length_singleton] at hle
    have hi : i = ops.length := by omega
    subst hi
    rw [List.getElem?_concat_length] at h
    exact Or.inr ⟨rfl, (Option.some.inj h).symm⟩

theorem getElem?_concat_of_some {i : Nat} {a new : ω} (h : ops[i]? = some a) :
    (ops ++ [new])[i]? = some a := by
  obtain ⟨hlt, _⟩ := List.getElem?_eq_some_iff.mp h
  rw [List.getElem?_append_left hlt, h]

end Transition
