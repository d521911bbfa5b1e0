import Mathlib

set_option autoImplicit false

/-! # The order of a stable sort

What stands before what in a list that was sorted with a stable sort, and when two lists with the
same keys, each sorted by an order of its own, have their keys in the same order.
-/

namespace StableSort

variable {α β κ : Type}

/-- Two elements of a list without repetition stand in one order only. -/
theorem not_pair_swap {l : List α} (hnodup : l.Nodup) {a b : α} (hab : [a, b].Sublist l) :
    ¬ [b, a].Sublist l := by
  induction l with
  | nil => cases hab
  | cons c l ih =>
      obtain ⟨hc, hl⟩ := List.nodup_cons.mp hnodup
      intro hba
      rcases List.cons_sublist_cons'.mp hab with htail | ⟨rfl, htail⟩
      · rcases List.cons_sublist_cons'.mp hba with htail' | ⟨rfl, htail'⟩
        · exact ih hl htail htail'
        · exact hc (htail.subset (List.mem_cons_of_mem a (List.mem_singleton_self b)))
      · rcases List.cons_sublist_cons'.mp hba with htail' | ⟨rfl, htail'⟩
        · exact hc (htail'.subset (List.mem_cons_of_mem b (List.mem_singleton_self a)))
        · exact hc (htail.subset (List.mem_singleton_self b))

theorem pair_or_swap {l : List α} {a b : α} (ha : a ∈ l) (hb : b ∈ l) (hne : a ≠ b) :
    [a, b].Sublist l ∨ [b, a].Sublist l := by
  induction l with
  | nil => cases ha
  | cons c l ih =>
      rcases List.mem_cons.mp ha with rfl | ha'
      · rcases List.mem_cons.mp hb with rfl | hb
        · exact absurd rfl hne
        · exact Or.inl ((List.singleton_sublist.mpr hb).cons_cons a)
      · rcases List.mem_cons.mp hb with rfl | hb
        · exact Or.inr ((List.singleton_sublist.mpr ha').cons_cons b)
        · exact (ih ha' hb).imp (fun h => h.cons c) fun h => h.cons c

theorem ne_of_pair {l : List α} (hnodup : l.Nodup) {a b : α} (hab : [a, b].Sublist l) : a ≠ b :=
  fun h => not_pair_swap hnodup hab (h ▸ h ▸ hab)

/-- Lists of the same elements are equal if the elements stand in the same order. -/
theorem eq_iff_pairs {l l' : List κ} (hperm : l.Perm l') (hnodup : l.Nodup) :
    l = l' ↔ ∀ x y, [x, y].Sublist l → [x, y].Sublist l' := by
  constructor
  · rintro rfl x y h
    exact h
  · intro h
    have hl : l.Pairwise fun x y => [x, y].Sublist l' :=
      List.pairwise_iff_forall_sublist.mpr fun hxy => h _ _ hxy
    have hl' : l'.Pairwise fun x y => [x, y].Sublist l' :=
      List.pairwise_iff_forall_sublist.mpr fun hxy => hxy
    refine hperm.eq_of_pairwise (fun x y _ _ hxy hyx => ?_) hl hl'
    exact absurd hyx (not_pair_swap (hperm.nodup_iff.mp hnodup) hxy)

/-- In the sorted list `a` stands before `b`: it is smaller, or no greater and in front of `b`
before. -/
def Precedes (le : α → α → Bool) (l : List α) (a b : α) : Prop :=
  le b a = false ∨ le a b = true ∧ [a, b].Sublist l

/-- A total preorder. -/
structure Order (le : α → α → Bool) : Prop where
  trans : ∀ a b c, le a b = true → le b c = true → le a c = true
  total : ∀ a b, (le a b || le b a) = true

theorem pair_mergeSort_iff {le : α → α → Bool} (hle : Order le) {l : List α} (hnodup : l.Nodup)
    {a b : α} (ha : a ∈ l) (hb : b ∈ l) (hne : a ≠ b) :
    [a, b].Sublist (l.mergeSort le) ↔ Precedes le l a b := by
  have hsorted : ∀ {x y : α}, [x, y].Sublist (l.mergeSort le) → le x y = true :=
    List.pairwise_iff_forall_sublist.mp (List.pairwise_mergeSort hle.trans hle.total l)
  have hnodup' : (l.mergeSort le).Nodup := (List.mergeSort_perm l le).nodup_iff.mpr hnodup
  constructor
  · intro hab
    cases hba : le b a with
    | false => exact Or.inl hba
    | true =>
        refine Or.inr ⟨hsorted hab, (pair_or_swap ha hb hne).resolve_right fun hswap => ?_⟩
        exact not_pair_swap hnodup' hab
          (List.pair_sublist_mergeSort hle.trans hle.total hba hswap)
  · rintro (hba | ⟨hab, hpair⟩)
    · have hswap : ¬ [b, a].Sublist (l.mergeSort le) := by
        intro h
        have hle' := hsorted h
        rw [hba] at hle'
        cases hle'
      exact (pair_or_swap (List.mem_mergeSort.mpr ha) (List.mem_mergeSort.mpr hb) hne).resolve_right
        hswap
    · exact List.pair_sublist_mergeSort hle.trans hle.total hab hpair

theorem pair_map_iff {f : α → κ} {l : List α} {x y : κ} :
    [x, y].Sublist (l.map f) ↔ ∃ a b, [a, b].Sublist l ∧ f a = x ∧ f b = y := by
  rw [List.sublist_map_iff]
  constructor
  · rintro ⟨pair, hpair, h⟩
    match pair, h with
    | [a, b], h =>
        cases h
        exact ⟨a, b, hpair, rfl, rfl⟩
  · rintro ⟨a, b, hpair, rfl, rfl⟩
    exact ⟨[a, b], hpair, rfl⟩

/-- **Two sorted lists with the same keys** have them in the same order just when each pair of
elements stands in the same order in both. -/
theorem map_mergeSort_eq_iff {le : α → α → Bool} {le' : β → β → Bool} (hle : Order le)
    (hle' : Order le') {f : α → κ} {g : β → κ} {l : List α} {l' : List β}
    (hperm : (l.map f).Perm (l'.map g)) (hnodup : (l.map f).Nodup) :
    (l.mergeSort le).map f = (l'.mergeSort le').map g ↔
      ∀ a ∈ l, ∀ b ∈ l, ∀ a' ∈ l', ∀ b' ∈ l', f a = g a' → f b = g b' → a ≠ b →
        Precedes le l a b → Precedes le' l' a' b' := by
  have hnodup' : (l'.map g).Nodup := hperm.nodup_iff.mp hnodup
  have hsort : ((l.mergeSort le).map f).Perm (l.map f) := (List.mergeSort_perm l le).map f
  have hsort' : ((l'.mergeSort le').map g).Perm (l'.map g) := (List.mergeSort_perm l' le').map g
  rw [eq_iff_pairs (hsort.trans (hperm.trans hsort'.symm)) (hsort.nodup_iff.mpr hnodup)]
  constructor
  · intro h a ha b hb a' ha' b' hb' hfa hfb hne hab
    have hne' : a' ≠ b' := by
      rintro rfl
      exact hne (List.inj_on_of_nodup_map hnodup ha hb (hfa.trans hfb.symm))
    have hpair := (pair_mergeSort_iff hle (hnodup.of_map f) ha hb hne).mpr hab
    obtain ⟨c, d, hcd, hgc, hgd⟩ :=
      pair_map_iff.mp (h _ _ (pair_map_iff.mpr ⟨a, b, hpair, hfa, hfb⟩))
    have hc : c ∈ l' := List.mem_mergeSort.mp (hcd.subset (by simp))
    have hd : d ∈ l' := List.mem_mergeSort.mp (hcd.subset (by simp))
    have hca := List.inj_on_of_nodup_map hnodup' hc ha' hgc
    have hdb := List.inj_on_of_nodup_map hnodup' hd hb' hgd
    rw [hca, hdb] at hcd
    exact (pair_mergeSort_iff hle' (hnodup'.of_map g) ha' hb' hne').mp hcd
  · intro h x y hxy
    obtain ⟨a, b, hab, rfl, rfl⟩ := pair_map_iff.mp hxy
    have hne := ne_of_pair ((List.mergeSort_perm l le).nodup_iff.mpr (hnodup.of_map f)) hab
    have ha : a ∈ l := List.mem_mergeSort.mp (hab.subset (by simp))
    have hb : b ∈ l := List.mem_mergeSort.mp (hab.subset (by simp))
    obtain ⟨a', ha', hga⟩ := List.mem_map.mp (hperm.subset (List.mem_map_of_mem (f := f) ha))
    obtain ⟨b', hb', hgb⟩ := List.mem_map.mp (hperm.subset (List.mem_map_of_mem (f := f) hb))
    have hne' : a' ≠ b' := by
      rintro rfl
      exact hne (List.inj_on_of_nodup_map hnodup ha hb (hga.symm.trans hgb))
    have hprecedes := h a ha b hb a' ha' b' hb' hga.symm hgb.symm hne
      ((pair_mergeSort_iff hle (hnodup.of_map f) ha hb hne).mp hab)
    exact pair_map_iff.mpr
      ⟨a', b', (pair_mergeSort_iff hle' (hnodup'.of_map g) ha' hb' hne').mpr hprecedes, hga, hgb⟩

end StableSort
