import Mathlib

set_option autoImplicit false

/-! # Mean and population variance of a list

Both follow from the number of the values, their sum and the sum of their squares, which add up
over the parts of a list. For two quantities of the rows of a list the products of their distances
from the means add up as well, with what the means of the parts are apart from the mean of all
(`comoment_flatMap`).
-/

namespace Moments

variable {K : Type} [Field K]

def mean (l : List K) : K := l.sum / l.length

/-- The mean square distance from the mean. -/
def variance (l : List K) : K := (l.map fun x => (x - mean l) ^ 2).sum / l.length

def sumSquares (l : List K) : K := (l.map fun x => x ^ 2).sum

/-- The squares of the distances from any point. -/
theorem sum_map_sub_sq (l : List K) (m : K) :
    (l.map fun x => (x - m) ^ 2).sum = sumSquares l - 2 * m * l.sum + l.length * m ^ 2 := by
  unfold sumSquares
  induction l with
  | nil => simp
  | cons x l ih =>
      rw [List.map_cons, List.map_cons, List.sum_cons, List.sum_cons, List.sum_cons, ih,
        List.length_cons]
      push_cast
      ring

theorem variance_eq [CharZero K] {l : List K} (h : l ≠ []) :
    variance l = sumSquares l / l.length - (l.sum / l.length) ^ 2 := by
  have hlen : (l.length : K) ≠ 0 :=
    Nat.cast_ne_zero.mpr fun hzero => h (List.length_eq_zero_iff.mp hzero)
  rw [variance, sum_map_sub_sq, mean]
  field_simp
  ring

/-- The squares of the distances from any point, by the variance. -/
theorem sum_map_sub_sq_eq [CharZero K] {l : List K} (h : l ≠ []) (m : K) :
    (l.map fun x => (x - m) ^ 2).sum = l.length * (variance l + (mean l - m) ^ 2) := by
  have hlen : (l.length : K) ≠ 0 :=
    Nat.cast_ne_zero.mpr fun hzero => h (List.length_eq_zero_iff.mp hzero)
  rw [sum_map_sub_sq, variance_eq h, mean]
  field_simp
  ring

theorem mean_eq_of_forall [CharZero K] {l : List K} {x : K} (h : l ≠ [])
    (hall : ∀ y ∈ l, y = x) : mean l = x := by
  have hlen : (l.length : K) ≠ 0 :=
    Nat.cast_ne_zero.mpr fun hzero => h (List.length_eq_zero_iff.mp hzero)
  have hreplicate : l = List.replicate l.length x := List.eq_replicate_iff.mpr ⟨rfl, hall⟩
  rw [mean]
  nth_rewrite 1 [hreplicate]
  rw [List.sum_replicate, nsmul_eq_mul, mul_div_cancel_left₀ _ hlen]

theorem mean_map_div (l : List K) (m : K) : mean (l.map fun x => x / m) = mean l / m := by
  simp only [mean, List.length_map, div_eq_mul_inv, List.sum_map_mul_right, List.map_id']
  ring

/-- The values in proportion to their mean. -/
theorem variance_map_div_mean {l : List K} (h : mean l ≠ 0) :
    variance (l.map fun x => x / mean l) =
      (l.map fun x => (x / mean l - 1) ^ 2).sum / l.length := by
  rw [variance, mean_map_div, div_self h, List.map_map, List.length_map]
  rfl

theorem sum_flatMap {β : Type} (bs : List β) (f : β → List K) :
    (bs.flatMap f).sum = (bs.map fun b => (f b).sum).sum := by
  rw [List.flatMap_def, List.sum_flatten, List.map_map]
  rfl

theorem sumSquares_flatMap {β : Type} (bs : List β) (f : β → List K) :
    sumSquares (bs.flatMap f) = (bs.map fun b => sumSquares (f b)).sum := by
  rw [sumSquares, List.map_flatMap, sum_flatMap]
  rfl

/-! ## Two quantities of the rows of a list -/

section Rows

variable {ρ : Type}

def meanOf (f : ρ → K) (l : List ρ) : K := mean (l.map f)

/-- The products of the distances from the means. -/
def comoment (f g : ρ → K) (l : List ρ) : K :=
  (l.map fun r => (f r - meanOf f l) * (g r - meanOf g l)).sum

theorem sum_map_sub_mul_sub (f g : ρ → K) (l : List ρ) (m m' : K) :
    (l.map fun r => (f r - m) * (g r - m')).sum =
      (l.map fun r => f r * g r).sum - m' * (l.map f).sum - m * (l.map g).sum +
        l.length * (m * m') := by
  induction l with
  | nil => simp
  | cons r l ih =>
      simp only [List.map_cons, List.sum_cons, List.length_cons, ih]
      push_cast
      ring

/-- Products of distances from any two points. -/
theorem sum_sub_mul_sub [CharZero K] (f g : ρ → K) (l : List ρ) (m m' : K) :
    (l.map fun r => (f r - m) * (g r - m')).sum =
      comoment f g l + l.length * ((meanOf f l - m) * (meanOf g l - m')) := by
  rcases l.eq_nil_or_concat with rfl | ⟨l', r, rfl⟩
  · simp [comoment]
  · set l := l'.concat r with hl
    have hlen : (l.length : K) ≠ 0 := by
      rw [hl, List.length_concat]
      exact_mod_cast Nat.succ_ne_zero l'.length
    rw [comoment, sum_map_sub_mul_sub, sum_map_sub_mul_sub, meanOf, meanOf, mean, mean,
      List.length_map, List.length_map]
    field_simp
    ring

variable {β : Type}

theorem length_flatMap_cast (bs : List β) (rows : β → List ρ) :
    ((bs.flatMap rows).length : K) = (bs.map fun b => ((rows b).length : K)).sum := by
  induction bs with
  | nil => simp
  | cons b bs ih =>
      rw [List.flatMap_cons, List.length_append, Nat.cast_add, ih, List.map_cons, List.sum_cons]

/-- The mean of all rows, from the means of the parts. -/
theorem meanOf_flatMap [CharZero K] (f : ρ → K) (bs : List β) (rows : β → List ρ) :
    meanOf f (bs.flatMap rows) =
      (bs.map fun b => meanOf f (rows b) * (rows b).length).sum /
        (bs.map fun b => ((rows b).length : K)).sum := by
  have hpart : ∀ b, ((rows b).map f).sum = meanOf f (rows b) * (rows b).length := by
    intro b
    rw [meanOf, mean, List.length_map]
    rcases Nat.eq_zero_or_pos (rows b).length with hzero | hpos
    · rw [List.length_eq_zero_iff.mp hzero]
      simp
    · rw [div_mul_cancel₀]
      exact Nat.cast_ne_zero.mpr hpos.ne'
  rw [meanOf, mean, List.length_map, length_flatMap_cast, List.map_flatMap, sum_flatMap]
  simp only [hpart]

/-- **The parts of a list**: what the rows are apart within the parts, and the parts from all. -/
theorem comoment_flatMap [CharZero K] (f g : ρ → K) (bs : List β) (rows : β → List ρ) :
    comoment f g (bs.flatMap rows) =
      (bs.map fun b => comoment f g (rows b) + (rows b).length *
        ((meanOf f (rows b) - meanOf f (bs.flatMap rows)) *
          (meanOf g (rows b) - meanOf g (bs.flatMap rows)))).sum := by
  rw [comoment, List.map_flatMap, sum_flatMap]
  congr 1
  refine List.map_congr_left fun b _ => ?_
  exact sum_sub_mul_sub f g (rows b) _ _

end Rows

/-! ## Lists of one value -/

section Constant

variable [LinearOrder K] [IsStrictOrderedRing K]

theorem variance_nonneg (l : List K) : 0 ≤ variance l := by
  apply div_nonneg
  · apply List.sum_nonneg
    intro y hy
    obtain ⟨x, _, rfl⟩ := List.mem_map.mp hy
    exact sq_nonneg _
  · exact Nat.cast_nonneg _

theorem variance_eq_comoment {l : List K} :
    variance l * l.length = comoment (fun x => x) (fun x => x) l := by
  have hmean : meanOf (fun x => x) l = mean l := by rw [meanOf, List.map_id']
  rw [comoment, hmean, variance]
  simp only [← sq]
  rcases Nat.eq_zero_or_pos l.length with hzero | hpos
  · rw [List.length_eq_zero_iff.mp hzero]
    simp
  · rw [div_mul_cancel₀]
    exact Nat.cast_ne_zero.mpr hpos.ne'

/-- The variance is zero where all values are the same. -/
theorem variance_eq_zero_iff {l : List K} (h : l ≠ []) :
    variance l = 0 ↔ ∀ x ∈ l, ∀ y ∈ l, x = y := by
  have hlen : (l.length : K) ≠ 0 :=
    Nat.cast_ne_zero.mpr fun hzero => h (List.length_eq_zero_iff.mp hzero)
  constructor
  · intro hzero
    have hsum : (l.map fun x => (x - mean l) ^ 2).sum = 0 :=
      (div_eq_zero_iff.mp hzero).resolve_right hlen
    have hall : ∀ x ∈ l, x = mean l := by
      intro x hx
      have hle := List.single_le_sum (l := l.map fun x => (x - mean l) ^ 2) (by
        intro y hy
        obtain ⟨z, _, rfl⟩ := List.mem_map.mp hy
        exact sq_nonneg _) _ (List.mem_map_of_mem hx)
      rw [hsum] at hle
      exact sub_eq_zero.mp (pow_eq_zero_iff two_ne_zero |>.mp (le_antisymm hle (sq_nonneg _)))
    intro x hx y hy
    exact (hall x hx).trans (hall y hy).symm
  · intro hall
    obtain ⟨x, hx⟩ := List.exists_mem_of_ne_nil l h
    have hmean : mean l = x := mean_eq_of_forall h fun y hy => hall y hy x hx
    rw [variance, hmean, div_eq_zero_iff]
    left
    apply List.sum_eq_zero
    intro y hy
    obtain ⟨z, hz, rfl⟩ := List.mem_map.mp hy
    rw [hall z hz x hx, sub_self, sq, zero_mul]

end Constant

end Moments
