import Mathlib

set_option autoImplicit false

/-! # Exact counters

A counter is the list of its weighted updates, and merging two of them appends the lists. A
`Ranking` gives the items above a threshold by descending counts, with ties in any order; what is
left of it after its heavy items is found by their counts alone (`mem_dropWhile`).
-/

namespace Counter

variable {α β : Type} [DecidableEq β]

/-- The updates of a counter. -/
abbrev Log (β : Type) := List (β × ℕ)

/-- The weight that an item has in all. -/
def count (s : Log β) (x : β) : ℕ := ((s.filter fun u => u.1 = x).map Prod.snd).sum

theorem count_append (s t : Log β) (x : β) : count (s ++ t) x = count s x + count t x := by
  simp [count]

/-- The counts of merged counters add up. -/
theorem count_flatMap (l : List α) (f : α → Log β) (x : β) :
    count (l.flatMap f) x = (l.map fun a => count (f a) x).sum := by
  induction l with
  | nil => rfl
  | cons a l ih => rw [List.flatMap_cons, count_append, ih, List.map_cons, List.sum_cons]

theorem count_of_forall_ne {s : Log β} {x : β} (h : ∀ u ∈ s, u.1 ≠ x) : count s x = 0 := by
  have hnil : s.filter (fun u => u.1 = x) = [] := by
    rw [List.filter_eq_nil_iff]
    intro u hu
    simp [h u hu]
  simp [count, hnil]

/-- The count of an item that is updated once. -/
theorem count_of_mem {s : Log β} {x : β} {w : ℕ} (hs : (s.map Prod.fst).Nodup)
    (h : (x, w) ∈ s) : count s x = w := by
  induction s with
  | nil => cases h
  | cons u s ih =>
      rw [List.map_cons, List.nodup_cons] at hs
      rw [← List.singleton_append, count_append]
      rcases List.mem_cons.mp h with hu | hmem
      · subst hu
        have hrest : count s x = 0 := by
          refine count_of_forall_ne fun v hv hvx => hs.1 ?_
          exact List.mem_map.mpr ⟨v, hv, hvx⟩
        rw [hrest, Nat.add_zero]
        simp [count]
      · have hne : u.1 ≠ x := by
          intro hux
          exact hs.1 (List.mem_map.mpr ⟨(x, w), hmem, hux.symm⟩)
        have hhead : count [u] x = 0 := count_of_forall_ne (by simpa using hne)
        rw [ih hs.2 hmem, hhead, Nat.zero_add]

/-- The items of a counter whose counts are above a threshold, by descending counts. -/
structure Ranking (β : Type) [DecidableEq β] where
  rank : Log β → ℕ → Log β
  mem_rank : ∀ s θ x c, (x, c) ∈ rank s θ ↔ c = count s x ∧ θ < c
  descending : ∀ s θ, (rank s θ).Pairwise fun a b => b.2 ≤ a.2

/-- The ranking in which ties stand in the order of their first updates. -/
def byInsertion : Ranking β where
  rank s θ :=
    (((s.map Prod.fst).dedup.map fun x => (x, count s x)).filter fun u => θ < u.2).insertionSort
      fun a b => b.2 ≤ a.2
  mem_rank s θ x c := by
    simp only [List.mem_insertionSort, List.mem_filter, List.mem_map, List.mem_dedup,
      Prod.mk.injEq, decide_eq_true_eq]
    constructor
    · rintro ⟨⟨_, _, rfl, rfl⟩, hc⟩
      exact ⟨rfl, hc⟩
    · rintro ⟨rfl, hc⟩
      refine ⟨⟨x, ?_, rfl, rfl⟩, hc⟩
      by_contra hx
      have hzero : count s x = 0 :=
        count_of_forall_ne fun u hu hux => hx ⟨u, hu, hux⟩
      omega
  descending s θ := by
    have : Std.Total fun a b : β × ℕ => b.2 ≤ a.2 := ⟨fun a b => le_total b.2 a.2⟩
    have : IsTrans (β × ℕ) fun a b => b.2 ≤ a.2 := ⟨fun a b c hab hbc => hbc.trans hab⟩
    exact List.pairwise_insertionSort _ _

omit [DecidableEq β] in
/-- The rest of a descending list, from the first small count on, is that of the small counts. -/
theorem mem_dropWhile {K : Type} [Preorder K] [DecidableLE K] {w : ℕ → K} (hw : Monotone w)
    {l : Log β} (hl : l.Pairwise fun a b => b.2 ≤ a.2) {t : K} {u : β × ℕ} :
    u ∈ l.dropWhile (fun c => t ≤ w c.2) ↔ u ∈ l ∧ ¬ t ≤ w u.2 := by
  induction l with
  | nil => simp
  | cons c l ih =>
      rw [List.pairwise_cons] at hl
      by_cases hc : t ≤ w c.2
      · rw [List.dropWhile_cons_of_pos (by simpa using hc), ih hl.2, List.mem_cons]
        constructor
        · rintro ⟨hu, hsmall⟩
          exact ⟨Or.inr hu, hsmall⟩
        · rintro ⟨rfl | hu, hsmall⟩
          · exact absurd hc hsmall
          · exact ⟨hu, hsmall⟩
      · rw [List.dropWhile_cons_of_neg (by simpa using hc)]
        constructor
        · intro hu
          refine ⟨hu, ?_⟩
          rcases List.mem_cons.mp hu with rfl | hmem
          · exact hc
          · exact fun hsmall => hc (hsmall.trans (hw (hl.1 u hmem)))
        · exact fun hu => hu.1

end Counter
