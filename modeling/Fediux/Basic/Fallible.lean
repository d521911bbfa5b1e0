import Mathlib

set_option autoImplicit false

/-! # Folds of fallible steps

Rules for `List.foldlM` in `Except`: an invariant of the steps that succeed, the success of a
fold whose steps succeed under an invariant, and the simulation of one fold by another.
-/

namespace Fallible

variable {ε ε' σ τ α β : Type}

theorem bind_eq_ok {x : Except ε α} {f : α → Except ε β} {b : β} :
    x >>= f = .ok b ↔ ∃ a, x = .ok a ∧ f a = .ok b := by
  cases x with
  | error e =>
      constructor
      · intro h
        cases h
      · rintro ⟨a, h, _⟩
        cases h
  | ok a =>
      constructor
      · intro h
        exact ⟨a, rfl, h⟩
      · rintro ⟨a', h, hb⟩
        cases h
        exact hb

theorem map_eq_ok {x : Except ε α} {f : α → β} {b : β} :
    x.map f = .ok b ↔ ∃ a, x = .ok a ∧ f a = b := by
  cases x with
  | error e =>
      constructor
      · intro h
        cases h
      · rintro ⟨a, h, _⟩
        cases h
  | ok a =>
      constructor
      · intro h
        exact ⟨a, rfl, Except.ok.inj h⟩
      · rintro ⟨a', h, rfl⟩
        cases h
        rfl

theorem toOption_eq_some_iff {x : Except ε α} {a : α} : x.toOption = some a ↔ x = .ok a := by
  cases x with
  | error e => exact ⟨fun h => (by cases h), fun h => (by cases h)⟩
  | ok b => exact ⟨fun h => congrArg Except.ok (Option.some.inj h), fun h => by rw [h]; rfl⟩

theorem toOption_eq_none_iff {x : Except ε α} : x.toOption = none ↔ ∃ e, x = .error e := by
  cases x with
  | error e => exact iff_of_true rfl ⟨e, rfl⟩
  | ok a =>
      refine iff_of_false (fun h => (by cases h)) ?_
      rintro ⟨e, h⟩
      cases h

theorem map_injective {f : α → β} (hf : Function.Injective f) :
    Function.Injective (Except.map f : Except ε α → Except ε β) := by
  intro x y h
  cases x with
  | error e =>
      cases y with
      | error e' => exact congrArg Except.error (Except.error.inj h)
      | ok b => cases h
  | ok a =>
      cases y with
      | error e' => cases h
      | ok b => exact congrArg Except.ok (hf (Except.ok.inj h))

theorem foldlM_cons_eq_ok {f : σ → α → Except ε σ} {s s' : σ} {a : α} {l : List α} :
    (a :: l).foldlM f s = .ok s' ↔ ∃ s₁, f s a = .ok s₁ ∧ l.foldlM f s₁ = .ok s' := by
  rw [List.foldlM_cons, bind_eq_ok]

theorem foldlM_cons_of_ok {f : σ → α → Except ε σ} {s s₁ : σ} {a : α} {l : List α}
    (h : f s a = .ok s₁) : (a :: l).foldlM f s = l.foldlM f s₁ := by
  rw [List.foldlM_cons, h]
  rfl

theorem foldlM_cons_of_error {f : σ → α → Except ε σ} {s : σ} {a : α} {e : ε} {l : List α}
    (h : f s a = .error e) : (a :: l).foldlM f s = .error e := by
  rw [List.foldlM_cons, h]
  rfl

/-- A fold over parts is a fold of the folds over them. -/
theorem foldlM_flatMap {f : σ → β → Except ε σ} (g : α → List β) (l : List α) (s : σ) :
    (l.flatMap g).foldlM f s = l.foldlM (fun s a => (g a).foldlM f s) s := by
  induction l generalizing s with
  | nil => rfl
  | cons a l ih =>
      rw [List.flatMap_cons, List.foldlM_append, List.foldlM_cons]
      exact bind_congr ih

/-- What every successful step preserves holds after a successful fold. -/
theorem foldlM_invariant {f : σ → α → Except ε σ} (P : σ → Prop) {l : List α} {s s' : σ}
    (hstep : ∀ a ∈ l, ∀ s s', P s → f s a = .ok s' → P s') (hs : P s)
    (h : l.foldlM f s = .ok s') : P s' := by
  induction l generalizing s with
  | nil =>
      cases h
      exact hs
  | cons a l ih =>
      obtain ⟨s₁, h₁, h⟩ := foldlM_cons_eq_ok.mp h
      exact ih (fun b hb => hstep b (List.mem_cons_of_mem a hb))
        (hstep a List.mem_cons_self s s₁ hs h₁) h

/-- Every step of a successful fold has succeeded. -/
theorem ok_of_foldlM {f : σ → α → Except ε σ} {l : List α} {s s' : σ}
    (h : l.foldlM f s = .ok s') {a : α} (ha : a ∈ l) : ∃ s₁ s₂, f s₁ a = .ok s₂ := by
  induction l generalizing s with
  | nil => cases ha
  | cons b l ih =>
      obtain ⟨s₁, h₁, h⟩ := foldlM_cons_eq_ok.mp h
      rcases List.mem_cons.mp ha with rfl | ha
      · exact ⟨s, s₁, h₁⟩
      · exact ih h ha

/-- A fold succeeds where every step succeeds under an invariant. -/
theorem foldlM_succeeds {f : σ → α → Except ε σ} (P : σ → Prop) {l : List α} {s : σ}
    (hstep : ∀ a ∈ l, ∀ s, P s → ∃ s', f s a = .ok s' ∧ P s') (hs : P s) :
    ∃ s', l.foldlM f s = .ok s' ∧ P s' := by
  induction l generalizing s with
  | nil => exact ⟨s, rfl, hs⟩
  | cons a l ih =>
      obtain ⟨s₁, h₁, hs₁⟩ := hstep a List.mem_cons_self s hs
      obtain ⟨s', h', hs'⟩ := ih (fun b hb => hstep b (List.mem_cons_of_mem a hb)) hs₁
      exact ⟨s', foldlM_cons_eq_ok.mpr ⟨s₁, h₁, h'⟩, hs'⟩

/-- A fold simulates another where its steps do. -/
theorem foldlM_simulates {f : σ → α → Except ε σ} {g : τ → α → Except ε' τ}
    (R : σ → τ → Prop) {l : List α} {s s' : σ} {t : τ}
    (hstep : ∀ a ∈ l, ∀ s s' t, R s t → f s a = .ok s' → ∃ t', g t a = .ok t' ∧ R s' t')
    (hst : R s t) (h : l.foldlM f s = .ok s') : ∃ t', l.foldlM g t = .ok t' ∧ R s' t' := by
  induction l generalizing s t with
  | nil =>
      cases h
      exact ⟨t, rfl, hst⟩
  | cons a l ih =>
      obtain ⟨s₁, h₁, h⟩ := foldlM_cons_eq_ok.mp h
      obtain ⟨t₁, ht₁, hst₁⟩ := hstep a List.mem_cons_self s s₁ t hst h₁
      obtain ⟨t', ht', hst'⟩ := ih (fun b hb => hstep b (List.mem_cons_of_mem a hb)) hst₁ h
      exact ⟨t', foldlM_cons_eq_ok.mpr ⟨t₁, ht₁, ht'⟩, hst'⟩

/-- A function that is defined everywhere on a list is mapped over it. -/
theorem mapM_succeeds {f : α → Except ε β} {l : List α} (h : ∀ a ∈ l, ∃ b, f a = .ok b) :
    ∃ bs, l.mapM f = .ok bs := by
  induction l with
  | nil => exact ⟨[], rfl⟩
  | cons a l ih =>
      obtain ⟨b, hb⟩ := h a List.mem_cons_self
      obtain ⟨bs, hbs⟩ := ih fun a' ha' => h a' (List.mem_cons_of_mem a ha')
      refine ⟨b :: bs, ?_⟩
      rw [List.mapM_cons, hb]
      simp [hbs, bind, Except.bind, pure, Except.pure]

theorem mapM_of_ok {f : α → Except ε β} {g : α → β} {l : List α} (h : ∀ a ∈ l, f a = .ok (g a)) :
    l.mapM f = .ok (l.map g) := by
  induction l with
  | nil => rfl
  | cons a l ih =>
      have hrest := ih fun a' ha' => h a' (List.mem_cons_of_mem a ha')
      rw [List.mapM_cons, h a List.mem_cons_self, hrest]
      rfl

theorem ok_of_mapM {f : α → Except ε β} {l : List α} {bs : List β} (h : l.mapM f = .ok bs)
    {a : α} (ha : a ∈ l) : ∃ b, f a = .ok b := by
  induction l generalizing bs with
  | nil => cases ha
  | cons a' l ih =>
      rw [List.mapM_cons] at h
      obtain ⟨b, hb, h⟩ := bind_eq_ok.mp h
      obtain ⟨bs', hbs', _⟩ := bind_eq_ok.mp h
      rcases List.mem_cons.mp ha with rfl | ha
      · exact ⟨b, hb⟩
      · exact ih hbs' ha

theorem mapM_eq_ok_map_iff {f : α → Except ε β} {g : α → β} {l : List α} :
    l.mapM f = .ok (l.map g) ↔ ∀ a ∈ l, f a = .ok (g a) := by
  refine ⟨fun h => ?_, mapM_of_ok⟩
  induction l with
  | nil => exact fun a ha => absurd ha List.not_mem_nil
  | cons a l ih =>
      rw [List.mapM_cons] at h
      obtain ⟨b, hb, h⟩ := bind_eq_ok.mp h
      obtain ⟨bs, hbs, hcons⟩ := bind_eq_ok.mp h
      obtain ⟨rfl, rfl⟩ := List.cons.inj (Except.ok.inj hcons)
      exact List.forall_mem_cons.mpr ⟨hb, ih hbs⟩

theorem toOption_mapM (f : α → Except ε β) (l : List α) :
    (l.mapM f).toOption = l.mapM fun a => (f a).toOption := by
  induction l with
  | nil => rfl
  | cons a l ih =>
      rw [List.mapM_cons, List.mapM_cons, ← ih]
      cases f a with
      | error e => rfl
      | ok b => cases l.mapM f <;> rfl

/-- The first error ends a map. -/
theorem mapM_cons_of_error {f : α → Except ε β} {a : α} {e : ε} {l : List α}
    (h : f a = .error e) : (a :: l).mapM f = .error e := by
  rw [List.mapM_cons, h]
  rfl

end Fallible
