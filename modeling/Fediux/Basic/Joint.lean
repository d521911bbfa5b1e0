import Mathlib

set_option autoImplicit false

/-! # Parties that compute together what one computation says

Every party runs its own fallible computation. Jointly they refine an abstract one when they
all end the way it ends: with the same error, or with results that stand in a given relation
to its result.
-/

namespace Joint

variable {ι ε α β γ δ κ : Type}

/-- The computations `xs` of the parties refine the computation `y`, through `R`. -/
inductive Refines (R : (ι → α) → β → Prop) (xs : ι → Except ε α) : Except ε β → Prop where
  | ok {a : ι → α} {b : β} (hxs : ∀ p, xs p = .ok (a p)) (h : R a b) : Refines R xs (.ok b)
  | error {e : ε} (hxs : ∀ p, xs p = .error e) : Refines R xs (.error e)

/-- The parties' lists have equal lengths, and the members at each place stand in `R`. -/
def Rows (R : (ι → α) → β → Prop) (as : ι → List α) (bs : List β) : Prop :=
  ∃ rows : List (ι → α), (∀ p, as p = rows.map fun a => a p) ∧ List.Forall₂ R rows bs

/-! ## Rules for a bind, a list of computations and a loop -/

namespace Refines

variable {R : (ι → α) → β → Prop} {S : (ι → γ) → δ → Prop}

theorem bind {xs : ι → Except ε α} {y : Except ε β} {k : ι → α → Except ε γ}
    {k' : β → Except ε δ} (h : Refines R xs y)
    (hk : ∀ a b, R a b → Refines S (fun p => k p (a p)) (k' b)) :
    Refines S (fun p => xs p >>= k p) (y >>= k') := by
  cases h with
  | @ok a b hxs hab =>
      have heq : (fun p => xs p >>= k p) = fun p => k p (a p) := by
        funext p
        rw [hxs p]
        rfl
      rw [heq]
      exact hk a b hab
  | error hxs => exact .error fun p => by rw [hxs p]; rfl

theorem mono {R' : (ι → α) → β → Prop} {xs : ι → Except ε α} {y : Except ε β}
    (h : Refines R xs y) (hR : ∀ a b, R a b → R' a b) : Refines R' xs y := by
  cases h with
  | ok hxs hab => exact .ok hxs (hR _ _ hab)
  | error hxs => exact .error hxs

/-- A loop of the parties refines a loop when every round of it does. -/
theorem foldlM {I : (ι → γ) → δ → Prop} {f : ι → γ → α → Except ε γ}
    {g : δ → β → Except ε δ}
    (hf : ∀ s t a b, I s t → R a b → Refines I (fun p => f p (s p) (a p)) (g t b))
    {as : ι → List α} {bs : List β} (has : Rows R as bs) {s : ι → γ} {t : δ} (hs : I s t) :
    Refines I (fun p => (as p).foldlM (f p) (s p)) (bs.foldlM g t) := by
  obtain ⟨rows, hrows, h⟩ := has
  simp only [hrows]
  clear hrows
  induction h generalizing s t with
  | nil => exact .ok (fun _ => rfl) hs
  | @cons a b _ _ hab _ ih =>
      simp only [List.map_cons, List.foldlM_cons]
      exact (hf s t a b hs hab).bind fun s t hs => ih hs

/-- The parties run through the same list. -/
theorem foldlM_same {I : (ι → γ) → δ → Prop} {f : ι → γ → κ → Except ε γ}
    {g : δ → κ → Except ε δ}
    (hf : ∀ s t c, I s t → Refines I (fun p => f p (s p) c) (g t c))
    (cs : List κ) {s : ι → γ} {t : δ} (hs : I s t) :
    Refines I (fun p => cs.foldlM (f p) (s p)) (cs.foldlM g t) := by
  have hcs : Rows (fun (a : ι → κ) c => a = fun _ => c) (fun _ => cs) cs :=
    ⟨cs.map fun c _ => c, fun p => by rw [List.map_map]; exact (List.map_id cs).symm,
      List.forall₂_map_left_iff.mpr (List.forall₂_same.mpr fun _ _ => rfl)⟩
  refine foldlM (fun s t a c hst ha => ?_) hcs hs
  rw [ha]
  exact hf s t c hst

theorem mapM_same {f : ι → κ → Except ε α} {g : κ → Except ε β}
    (hf : ∀ c, Refines R (fun p => f p c) (g c)) (cs : List κ) :
    Refines (Rows R) (fun p => cs.mapM (f p)) (cs.mapM g) := by
  induction cs with
  | nil => exact .ok (fun _ => rfl) ⟨[], fun _ => rfl, .nil⟩
  | cons c cs ih =>
      simp only [List.mapM_cons]
      refine (hf c).bind fun a b hab => ih.bind fun as bs has => ?_
      obtain ⟨rows, hrows, h⟩ := has
      exact .ok (fun _ => rfl) ⟨a :: rows, fun p => congrArg (a p :: ·) (hrows p), .cons hab h⟩

end Refines

/-! ## Lists of jointly held values -/

namespace Rows

variable {R : (ι → α) → β → Prop} {as : ι → List α} {bs : List β}

theorem concat (h : Rows R as bs) {a : ι → α} {b : β} (hab : R a b) :
    Rows R (fun p => as p ++ [a p]) (bs ++ [b]) := by
  obtain ⟨rows, hrows, h⟩ := h
  refine ⟨rows ++ [a], fun p => ?_, List.rel_append h (.cons hab .nil)⟩
  show as p ++ [a p] = _
  rw [hrows p, List.map_append]
  rfl

/-- The members at one place, or its absence at every party. -/
theorem getElem? (h : Rows R as bs) (i : Nat) :
    (∃ a b, (∀ p, (as p)[i]? = some (a p)) ∧ bs[i]? = some b ∧ R a b) ∨
      ((∀ p, (as p)[i]? = none) ∧ bs[i]? = none) := by
  obtain ⟨rows, hrows, h⟩ := h
  have hlen := h.length_eq
  by_cases hi : i < rows.length
  · refine .inl ⟨rows[i], bs[i], fun p => ?_, List.getElem?_eq_getElem _, h.get _ _⟩
    rw [hrows p, List.getElem?_map, List.getElem?_eq_getElem hi]
    rfl
  · refine .inr ⟨fun p => ?_, List.getElem?_eq_none (by omega)⟩
    rw [hrows p, List.getElem?_map, List.getElem?_eq_none (by omega)]
    rfl

end Rows

end Joint
