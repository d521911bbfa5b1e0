import Mathlib

set_option autoImplicit false

/-! # Sums over the orders of a list

A sum over all orders of a list without repetition, of something that depends only on which
elements stand before a given one, is a sum over the sets of these elements: each set comes before
the element in as many orders as it and the rest can be ordered (`sum_orders_before`).
-/

namespace Orders

open Finset

variable {α : Type} [DecidableEq α]

/-- The orders of a list. -/
def orders (l : List α) : Finset (List α) := l.permutations.toFinset

/-- The elements before `i`. -/
def before (i : α) (order : List α) : Finset α := (order.takeWhile fun x => x ≠ i).toFinset

variable {l : List α} {i : α} {T : Finset α}

theorem mem_orders {order : List α} : order ∈ orders l ↔ order.Perm l := by
  rw [orders, List.mem_toFinset, List.mem_permutations]

theorem card_orders (hnodup : l.Nodup) : (orders l).card = l.length.factorial := by
  rw [orders, List.toFinset_card_of_nodup (List.nodup_permutations l hnodup),
    List.length_permutations]

theorem before_append {p q : List α} (hi : i ∉ p) : before i (p ++ i :: q) = p.toFinset := by
  have hp : ∀ x ∈ p, decide (x ≠ i) = true := by
    intro x hx
    rw [decide_eq_true_eq]
    rintro rfl
    exact hi hx
  rw [before, List.takeWhile_append_of_pos hp, List.takeWhile_cons_of_neg (by simp),
    List.append_nil]

/-- The elements of `l` in a set, in the order of `l`. -/
def within (T : Finset α) (l : List α) : List α := l.filter fun x => x ∈ T

/-- The elements of `l` that are neither in the set nor `i`. -/
def behind (i : α) (T : Finset α) (l : List α) : List α := l.filter fun x => x ∉ T ∧ x ≠ i

theorem mem_within {x : α} : x ∈ within T l ↔ x ∈ l ∧ x ∈ T := by
  simp [within]

theorem mem_behind {x : α} : x ∈ behind i T l ↔ x ∈ l ∧ x ∉ T ∧ x ≠ i := by
  simp [behind]

theorem nodup_within (hnodup : l.Nodup) : (within T l).Nodup := hnodup.filter _

theorem nodup_behind (hnodup : l.Nodup) : (behind i T l).Nodup := hnodup.filter _

/-- A set, the element behind it and the rest. -/
theorem within_append_perm (hnodup : l.Nodup) (hi : i ∈ l) (hT : i ∉ T) :
    (within T l ++ i :: behind i T l).Perm l := by
  refine (List.perm_ext_iff_of_nodup ?_ hnodup).mpr ?_
  · refine List.nodup_append.mpr
      ⟨nodup_within hnodup, List.nodup_cons.mpr ⟨?_, nodup_behind hnodup⟩, ?_⟩
    · intro h
      exact (mem_behind.mp h).2.2 rfl
    · intro x hx y hy hxy
      subst hxy
      have hxT : x ∈ T := (mem_within.mp hx).2
      rcases List.mem_cons.mp hy with rfl | hy
      · exact hT hxT
      · exact (mem_behind.mp hy).2.1 hxT
  · intro x
    rw [List.mem_append, List.mem_cons, mem_within, mem_behind]
    by_cases hxi : x = i
    · subst hxi
      simp [hi]
    · by_cases hxT : x ∈ T <;> simp [hxi, hxT]

theorem length_within (hnodup : l.Nodup) (hT : T ⊆ l.toFinset) : (within T l).length = T.card := by
  rw [← List.toFinset_card_of_nodup (nodup_within hnodup)]
  congr 1
  ext x
  rw [List.mem_toFinset, mem_within]
  exact and_iff_right_of_imp fun hx => List.mem_toFinset.mp (hT hx)

theorem length_behind (hnodup : l.Nodup) (hi : i ∈ l) (hT : T ⊆ l.toFinset.erase i) :
    (behind i T l).length = l.length - 1 - T.card := by
  have hiT : i ∉ T := fun h => absurd rfl (mem_erase.mp (hT h)).1
  have hperm := (within_append_perm hnodup hi hiT).length_eq
  rw [List.length_append, List.length_cons,
    length_within hnodup (hT.trans (erase_subset i _))] at hperm
  omega

/-- An order with the set before `i` is an order of the set, then `i`, then an order of the
rest. -/
theorem filter_before_eq (hnodup : l.Nodup) (hi : i ∈ l) (hT : T ⊆ l.toFinset.erase i) :
    ((orders l).filter fun order => before i order = T) =
      (orders (within T l) ×ˢ orders (behind i T l)).image fun pq => pq.1 ++ i :: pq.2 := by
  have hiT : i ∉ T := fun h => absurd rfl (mem_erase.mp (hT h)).1
  ext order
  rw [mem_filter, mem_orders, mem_image]
  constructor
  · rintro ⟨hperm, hbefore⟩
    have hio : i ∈ order := hperm.mem_iff.mpr hi
    obtain ⟨p, q, rfl, hip⟩ := List.eq_append_cons_of_mem hio
    rw [before_append hip] at hbefore
    subst hbefore
    have hnodup' : (p ++ i :: q).Nodup := hperm.nodup_iff.mpr hnodup
    obtain ⟨hp, hiq, hpq⟩ := List.nodup_append.mp hnodup'
    obtain ⟨hiq, hq⟩ := List.nodup_cons.mp hiq
    refine ⟨(p, q), mem_product.mpr ⟨mem_orders.mpr ?_, mem_orders.mpr ?_⟩, rfl⟩
    · refine (List.perm_ext_iff_of_nodup hp (nodup_within hnodup)).mpr fun x => ?_
      rw [mem_within, List.mem_toFinset]
      refine ⟨fun hx => ⟨hperm.mem_iff.mp (List.mem_append_left _ hx), hx⟩, And.right⟩
    · refine (List.perm_ext_iff_of_nodup hq (nodup_behind hnodup)).mpr fun x => ?_
      rw [mem_behind, List.mem_toFinset]
      constructor
      · intro hx
        have hmem : x ∈ p ++ i :: q :=
          List.mem_append_right _ (List.mem_cons_of_mem _ hx)
        refine ⟨hperm.mem_iff.mp hmem, ?_, ?_⟩
        · intro hxp
          exact hpq x hxp x (List.mem_cons_of_mem _ hx) rfl
        · rintro rfl
          exact hiq hx
      · rintro ⟨hx, hxp, hxi⟩
        rcases List.mem_append.mp (hperm.mem_iff.mpr hx) with h | h
        · exact absurd h hxp
        · exact (List.mem_cons.mp h).resolve_left hxi
  · rintro ⟨⟨p, q⟩, hpq, rfl⟩
    obtain ⟨hp, hq⟩ := mem_product.mp hpq
    have hp' : p.Perm (within T l) := mem_orders.mp hp
    have hq' : q.Perm (behind i T l) := mem_orders.mp hq
    have hset : p.toFinset = T := by
      ext x
      rw [List.mem_toFinset, hp'.mem_iff, mem_within]
      exact and_iff_right_of_imp fun hx => List.mem_toFinset.mp (mem_of_mem_erase (hT hx))
    have hip : i ∉ p := by
      intro h
      exact hiT (hset ▸ List.mem_toFinset.mpr h)
    refine ⟨?_, (before_append hip).trans hset⟩
    exact (hp'.append (hq'.cons i)).trans (within_append_perm hnodup hi hiT)

/-- A set stands before an element in as many orders as it and the rest have together. -/
theorem card_filter_before (hnodup : l.Nodup) (hi : i ∈ l) (hT : T ⊆ l.toFinset.erase i) :
    ((orders l).filter fun order => before i order = T).card =
      T.card.factorial * (l.length - 1 - T.card).factorial := by
  have hinj : Set.InjOn (fun pq : List α × List α => pq.1 ++ i :: pq.2)
      (orders (within T l) ×ˢ orders (behind i T l) : Finset _) := by
    rintro ⟨p, q⟩ hpq ⟨p', q'⟩ hpq' heq
    have hlength : p.length = p'.length := by
      have h := (mem_orders.mp (mem_product.mp hpq).1).length_eq
      have h' := (mem_orders.mp (mem_product.mp hpq').1).length_eq
      exact h.trans h'.symm
    have happend : p ++ i :: q = p' ++ i :: q' := heq
    obtain ⟨hp, htail⟩ := List.append_inj happend hlength
    rw [hp, (List.cons.inj htail).2]
  rw [filter_before_eq hnodup hi hT, card_image_of_injOn hinj, card_product,
    card_orders (nodup_within hnodup), card_orders (nodup_behind hnodup),
    length_within hnodup (hT.trans (erase_subset i _)), length_behind hnodup hi hT]

theorem before_subset {order : List α} (horder : order.Perm l) :
    before i order ⊆ l.toFinset.erase i := by
  intro x hx
  have hx' : x ∈ order.takeWhile fun x => x ≠ i := List.mem_toFinset.mp hx
  refine mem_erase.mpr ⟨?_, List.mem_toFinset.mpr (horder.mem_iff.mp ?_)⟩
  · simpa using List.mem_takeWhile_imp hx'
  · exact (List.takeWhile_prefix _).subset hx'

/-- **A sum over the orders is a weighted sum over the sets without the element.** -/
theorem sum_orders_before {R : Type} [CommSemiring R] (hnodup : l.Nodup) (hi : i ∈ l)
    (f : Finset α → R) :
    ∑ order ∈ orders l, f (before i order) =
      ∑ T ∈ (l.toFinset.erase i).powerset,
        ((T.card.factorial * (l.length - 1 - T.card).factorial : ℕ) : R) * f T := by
  have hmaps : ∀ order ∈ orders l, before i order ∈ (l.toFinset.erase i).powerset :=
    fun order horder => mem_powerset.mpr (before_subset (mem_orders.mp horder))
  rw [← sum_fiberwise_of_maps_to hmaps]
  refine sum_congr rfl fun T hT => ?_
  calc ∑ order ∈ orders l with before i order = T, f (before i order)
      = ∑ order ∈ orders l with before i order = T, f T :=
        sum_congr rfl fun order horder => by rw [(mem_filter.mp horder).2]
    _ = (T.card.factorial * (l.length - 1 - T.card).factorial : ℕ) * f T := by
        rw [sum_const, card_filter_before hnodup hi (mem_powerset.mp hT), nsmul_eq_mul]

end Orders
