import Mathlib

set_option autoImplicit false

/-! # A computation with a hidden state and the outcomes it may have

What a computation gives may depend on a state that its description leaves out, such as random
numbers. It implements a set of outcomes when from every good state it ends in a good state, with
a result that stands for one of the outcomes. The same generic program, run once with operations
on the state and once with their sets of outcomes, is related step by step (`Implements.bind`,
`Implements.foldlM`).
-/

namespace Outcomes

variable {σ α β γ δ κ : Type}

/-- The outcomes that a program may have. -/
abbrev Outcome (α : Type) := SetM α

/-- Every result of `x` stands for an outcome in `y`, from good states to good states. -/
def Implements (Good : σ → Prop) (R : α → β → Prop) (x : StateM σ α) (y : Outcome β) : Prop :=
  ∀ s, Good s → Good (x.run s).2 ∧ ∃ b ∈ y.run, R (x.run s).1 b

theorem mem_pure_iff {a b : α} : b ∈ (pure a : Outcome α).run ↔ b = a := Iff.rfl

theorem mem_bind_iff {y : Outcome β} {k : β → Outcome δ} {d : δ} :
    d ∈ (y >>= k).run ↔ ∃ b ∈ y.run, d ∈ (k b).run := by
  show d ∈ ⋃ b ∈ y.run, (k b).run ↔ _
  simp only [Set.mem_iUnion, exists_prop]

namespace Implements

variable {Good : σ → Prop} {R : α → β → Prop} {S : γ → δ → Prop}

theorem pure {a : α} {b : β} (h : R a b) :
    Implements Good R (Pure.pure a : StateM σ α) (Pure.pure b) :=
  fun _ hs => ⟨hs, b, mem_pure_iff.mpr rfl, h⟩

theorem bind {x : StateM σ α} {y : Outcome β} {k : α → StateM σ γ} {k' : β → Outcome δ}
    (h : Implements Good R x y) (hk : ∀ a b, R a b → Implements Good S (k a) (k' b)) :
    Implements Good S (x >>= k) (y >>= k') := by
  intro s hs
  obtain ⟨hs₁, b, hb, hab⟩ := h s hs
  obtain ⟨hs₂, d, hd, hcd⟩ := hk _ b hab _ hs₁
  exact ⟨hs₂, d, mem_bind_iff.mpr ⟨b, hb, hd⟩, hcd⟩

theorem map {x : StateM σ α} {y : Outcome β} {f : α → γ} {g : β → δ} (h : Implements Good R x y)
    (hfg : ∀ a b, R a b → S (f a) (g b)) : Implements Good S (f <$> x) (g <$> y) := by
  intro s hs
  obtain ⟨hs₁, b, hb, hab⟩ := h s hs
  exact ⟨hs₁, g b, ⟨b, hb, rfl⟩, hfg _ b hab⟩

/-- A loop over a list both programs go through. -/
theorem foldlM {f : γ → κ → StateM σ γ} {g : δ → κ → Outcome δ}
    (hf : ∀ c d a, S c d → Implements Good S (f c a) (g d a)) (as : List κ) {c : γ} {d : δ}
    (h : S c d) : Implements Good S (as.foldlM f c) (as.foldlM g d) := by
  induction as generalizing c d with
  | nil => exact .pure h
  | cons a as ih =>
      rw [List.foldlM_cons, List.foldlM_cons]
      exact (hf c d a h).bind fun c d h => ih h

/-- What every outcome has, every result stands for. -/
theorem exists_outcome {x : StateM σ α} {y : Outcome β} (h : Implements Good R x y) {s : σ}
    (hs : Good s) : ∃ b ∈ y.run, R (x.run s).1 b :=
  (h s hs).2

end Implements

end Outcomes
