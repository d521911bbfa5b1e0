import Mathlib.Data.List.Sort
import Mathlib.Data.List.Nodup

set_option autoImplicit false

/-! # The common members of two lists

Two lists without repetitions are filtered to their common members, each in its own order.
The results are permutations of each other (`common_perm`); they are the same list exactly when
the common members stand in the same order in both (`common_eq_iff`).
-/

namespace CommonOrder

variable {α : Type} [DecidableEq α]

/-- The members of a list that are members of another one too. -/
def common (xs ys : List α) : List α := xs.filter fun a => decide (a ∈ ys)

/-- Common members stand in the same order in both lists. -/
def SameOrder (xs ys : List α) : Prop :=
  ∀ a b, a ∈ xs → a ∈ ys → b ∈ xs → b ∈ ys → (xs.idxOf a < xs.idxOf b ↔ ys.idxOf a < ys.idxOf b)

@[simp] theorem mem_common {xs ys : List α} {a : α} : a ∈ common xs ys ↔ a ∈ xs ∧ a ∈ ys := by
  simp [common]

theorem common_perm {xs ys : List α} (hx : xs.Nodup) (hy : ys.Nodup) :
    (common xs ys).Perm (common ys xs) := by
  refine (List.perm_ext_iff_of_nodup (hx.filter _) (hy.filter _)).mpr ?_
  intro a
  show a ∈ common xs ys ↔ a ∈ common ys xs
  rw [mem_common, mem_common, and_comm]

/-- A list without repetitions is ordered by the places of its members. -/
theorem pairwise_idxOf {xs : List α} (hx : xs.Nodup) :
    xs.Pairwise fun a b => xs.idxOf a < xs.idxOf b := by
  rw [List.pairwise_iff_getElem]
  intro i j hi hj hij
  rw [hx.idxOf_getElem, hx.idxOf_getElem]
  exact hij

theorem pairwise_common {xs : List α} (hx : xs.Nodup) (ys : List α) :
    (common xs ys).Pairwise fun a b => xs.idxOf a < xs.idxOf b :=
  (pairwise_idxOf hx).sublist List.filter_sublist

/-- Filtering keeps the order. -/
theorem idxOf_common_lt_iff {xs ys : List α} {a b : α} (hx : xs.Nodup) (ha : a ∈ common xs ys)
    (hb : b ∈ common xs ys) :
    (common xs ys).idxOf a < (common xs ys).idxOf b ↔ xs.idxOf a < xs.idxOf b := by
  have hmono : ∀ c d, c ∈ common xs ys → d ∈ common xs ys →
      (common xs ys).idxOf c < (common xs ys).idxOf d → xs.idxOf c < xs.idxOf d := by
    intro c d hc hd hlt
    have hpair := List.pairwise_iff_getElem.mp (pairwise_common hx ys) _ _
      (List.idxOf_lt_length_of_mem hc) (List.idxOf_lt_length_of_mem hd) hlt
    simpa using hpair
  constructor
  · exact hmono a b ha hb
  · intro hlt
    by_contra hnot
    rcases Nat.lt_or_eq_of_le (Nat.le_of_not_lt hnot) with hba | heq
    · have := hmono b a hb ha hba
      omega
    · rw [(List.idxOf_inj hb).mp heq] at hlt
      omega

/-- **Both lists are filtered to the same list exactly when they have the same order.** -/
theorem common_eq_iff {xs ys : List α} (hx : xs.Nodup) (hy : ys.Nodup) :
    common xs ys = common ys xs ↔ SameOrder xs ys := by
  constructor
  · intro heq a b hax hay hbx hby
    have ha : a ∈ common xs ys := mem_common.mpr ⟨hax, hay⟩
    have hb : b ∈ common xs ys := mem_common.mpr ⟨hbx, hby⟩
    rw [← idxOf_common_lt_iff hx ha hb, heq, idxOf_common_lt_iff hy (heq ▸ ha) (heq ▸ hb)]
  · intro horder
    refine List.Perm.eq_of_pairwise ?_ (pairwise_common hx ys) ?_ (common_perm hx hy)
    · intro a b _ _ hab hba
      omega
    · refine (pairwise_common hy xs).imp_of_mem fun ha hb hlt => ?_
      rw [mem_common] at ha hb
      exact (horder _ _ ha.2 ha.1 hb.2 hb.1).mpr hlt

end CommonOrder
