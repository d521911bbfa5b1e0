import Mathlib

set_option autoImplicit false

/-! # Reducing a list by a binary operation

`reduce` combines the elements of a list from the left. A reduction that combines slices first
and then their results puts the brackets elsewhere: `Bracketed` says that a value is made of all
elements of a list, each used once and in order, with any brackets. With an associative operation
there is one such value, the left fold (`Bracketed.reduce_eq`).
-/

namespace Reduction

variable {α : Type} (op : α → α → α)

/-- The left fold that starts with the first element; an empty list has none. -/
def reduce : List α → Option α
  | [] => none
  | a :: items => some (items.foldl op a)

/-- The value is made of the elements of the list, each used once and in order. -/
inductive Bracketed : List α → α → Prop where
  | single (a : α) : Bracketed [a] a
  | combine {l l' : List α} {a a' : α} (h : Bracketed l a) (h' : Bracketed l' a') :
      Bracketed (l ++ l') (op a a')

variable {op} {items : List α} {v : α}

theorem Bracketed.ne_nil (h : Bracketed op items v) : items ≠ [] := by
  induction h with
  | single a => exact List.cons_ne_nil _ _
  | combine h h' ih ih' => exact List.append_ne_nil_of_left_ne_nil ih _

variable (op) in
theorem reduce_isSome_iff : (reduce op items).isSome = true ↔ items ≠ [] := by
  cases items with
  | nil => exact iff_of_false (by simp [reduce]) (fun h => h rfl)
  | cons a items => exact iff_of_true rfl (List.cons_ne_nil a items)

theorem bracketed_foldl {l : List α} {a : α} (h : Bracketed op l a) (items : List α) :
    Bracketed op (l ++ items) (items.foldl op a) := by
  induction items generalizing l a with
  | nil =>
      rw [List.append_nil]
      exact h
  | cons b items ih =>
      have hstep : Bracketed op (l ++ [b]) (op a b) := h.combine (.single b)
      have hrest := ih hstep
      rwa [List.append_assoc, List.singleton_append] at hrest

/-- The left fold is one bracketing. -/
theorem bracketed_reduce (h : reduce op items = some v) : Bracketed op items v := by
  cases items with
  | nil => cases h
  | cons a items =>
      obtain rfl : items.foldl op a = v := Option.some.inj h
      exact bracketed_foldl (.single a) items

/-- Bracketed slices, bracketed again, make up the whole list. -/
theorem Bracketed.flatten {slices : List (List α)} {values : List α}
    (h : Bracketed op values v) (hslices : List.Forall₂ (Bracketed op) slices values) :
    Bracketed op slices.flatten v := by
  induction h generalizing slices with
  | single a =>
      obtain ⟨l, rest, hl, hrest, rfl⟩ := List.forall₂_cons_right_iff.mp hslices
      rw [List.forall₂_nil_right_iff.mp hrest, List.flatten_singleton]
      exact hl
  | @combine values values' a a' h h' ih ih' =>
      have hleft := ih (List.forall₂_take_append slices values values' hslices)
      have hright := ih' (List.forall₂_drop_append slices values values' hslices)
      have hjoin := hleft.combine hright
      rwa [← List.flatten_append, List.take_append_drop] at hjoin

/-! ## Associative operations -/

section Assoc

variable [Std.Associative op]

theorem foldl_op (a b : α) (items : List α) :
    items.foldl op (op a b) = op a (items.foldl op b) := by
  induction items generalizing b with
  | nil => rfl
  | cons c items ih =>
      have hassoc : op (op a b) c = op a (op b c) := Std.Associative.assoc a b c
      calc (c :: items).foldl op (op a b) = items.foldl op (op a (op b c)) := by
            rw [List.foldl_cons, hassoc]
        _ = op a (items.foldl op (op b c)) := ih (op b c)
        _ = op a ((c :: items).foldl op b) := by rw [List.foldl_cons]

theorem reduce_append {l l' : List α} {a a' : α} (h : reduce op l = some a)
    (h' : reduce op l' = some a') : reduce op (l ++ l') = some (op a a') := by
  cases l with
  | nil => cases h
  | cons b l =>
      cases l' with
      | nil => cases h'
      | cons b' l' =>
          obtain rfl : l.foldl op b = a := Option.some.inj h
          obtain rfl : l'.foldl op b' = a' := Option.some.inj h'
          rw [List.cons_append, reduce, List.foldl_append, List.foldl_cons, foldl_op]

/-- **All bracketings have the value of the left fold.** -/
theorem Bracketed.reduce_eq (h : Bracketed op items v) : reduce op items = some v := by
  induction h with
  | single a => rfl
  | combine h h' ih ih' => exact reduce_append ih ih'

end Assoc

/-! ## Slices -/

variable (op)

theorem mapM_reduce {slices : List (List α)} (h : ∀ slice ∈ slices, slice ≠ []) :
    ∃ values, slices.mapM (reduce op) = some values ∧
      List.Forall₂ (Bracketed op) slices values := by
  induction slices with
  | nil => exact ⟨[], rfl, .nil⟩
  | cons slice slices ih =>
      obtain ⟨hslice, hslices⟩ := List.forall_mem_cons.mp h
      obtain ⟨values, hvalues, hall⟩ := ih hslices
      obtain ⟨v, hv⟩ := Option.isSome_iff_exists.mp ((reduce_isSome_iff op).mpr hslice)
      refine ⟨v :: values, ?_, .cons (bracketed_reduce hv) hall⟩
      rw [List.mapM_cons, hv, hvalues]
      rfl

/-- **A reduction of the reductions of slices** uses each element of the slices once, if no slice
is empty. -/
theorem bracketed_slices {slices : List (List α)} (hne : slices ≠ [])
    (h : ∀ slice ∈ slices, slice ≠ []) :
    ∃ v, (slices.mapM (reduce op)).bind (reduce op) = some v ∧ Bracketed op slices.flatten v := by
  obtain ⟨values, hvalues, hall⟩ := mapM_reduce op h
  have hvalues_ne : values ≠ [] := by
    intro hnil
    rw [hnil] at hall
    exact hne (List.forall₂_nil_right_iff.mp hall)
  obtain ⟨v, hv⟩ := Option.isSome_iff_exists.mp ((reduce_isSome_iff op).mpr hvalues_ne)
  refine ⟨v, ?_, (bracketed_reduce hv).flatten hall⟩
  rw [hvalues]
  exact hv

end Reduction
