import Mathlib

set_option autoImplicit false

/-! # Powers from a table of powers

A power of a fixed element is a product of tabled powers, one for each digit of the exponent.
`sweep` computes the product of all `x ^ d`, for pairs of a digit `d` and an element `x`, with
one multiplication for each pair and two for each possible digit: it goes through the digits from
the highest down to one and keeps the product of the elements met so far.
-/

namespace FixedBase

variable {M : Type} [CommMonoid M]

/-- The product of the elements with the digit `j`. -/
def atDigit (ps : List (ℕ × M)) (j : ℕ) : M :=
  (ps.map fun p => if p.1 = j then p.2 else 1).prod

/-- The digits from `j` down to one. `temp` is the product of the elements with higher digits. -/
def sweep (ps : List (ℕ × M)) : ℕ → M → M → M
  | 0, _, result => result
  | j + 1, temp, result =>
      sweep ps j (temp * atDigit ps (j + 1)) (result * (temp * atDigit ps (j + 1)))

/-- The product of the powers with a digit up to `j`. -/
def powersUpTo (ps : List (ℕ × M)) (j : ℕ) : M :=
  (ps.map fun p => if p.1 ≤ j then p.2 ^ p.1 else 1).prod

theorem powersUpTo_zero (ps : List (ℕ × M)) : powersUpTo ps 0 = 1 := by
  induction ps with
  | nil => rfl
  | cons p ps ih =>
      rw [powersUpTo, List.map_cons, List.prod_cons]
      rw [powersUpTo] at ih
      rw [ih, mul_one]
      split_ifs with h
      · rw [Nat.le_zero.mp h, pow_zero]
      · rfl

theorem powersUpTo_succ (ps : List (ℕ × M)) (j : ℕ) :
    powersUpTo ps (j + 1) = atDigit ps (j + 1) ^ (j + 1) * powersUpTo ps j := by
  induction ps with
  | nil => simp [powersUpTo, atDigit]
  | cons p ps ih =>
      have hhead : (if p.1 ≤ j + 1 then p.2 ^ p.1 else 1) =
          (if p.1 = j + 1 then p.2 else 1) ^ (j + 1) * (if p.1 ≤ j then p.2 ^ p.1 else 1) := by
        by_cases h : p.1 = j + 1
        · rw [if_pos (by omega), if_pos h, if_neg (by omega), mul_one, h]
        · rw [if_neg h, one_pow, one_mul]
          by_cases hj : p.1 ≤ j
          · rw [if_pos hj, if_pos (by omega)]
          · rw [if_neg hj, if_neg (by omega)]
      unfold powersUpTo atDigit at ih ⊢
      rw [List.map_cons, List.prod_cons, List.map_cons, List.prod_cons, List.map_cons,
        List.prod_cons, ih, hhead, mul_pow]
      exact mul_mul_mul_comm _ _ _ _

/-- What the sweep adds to the result it starts with. -/
theorem sweep_eq (ps : List (ℕ × M)) (j : ℕ) (temp result : M) :
    sweep ps j temp result = result * (temp ^ j * powersUpTo ps j) := by
  induction j generalizing temp result with
  | zero => rw [sweep, powersUpTo_zero, pow_zero, mul_one, mul_one]
  | succ j ih =>
      set a := atDigit ps (j + 1) with ha
      calc sweep ps (j + 1) temp result
          = result * (temp * a) * ((temp * a) ^ j * powersUpTo ps j) := by rw [sweep, ih]
        _ = result * ((temp * a) ^ (j + 1) * powersUpTo ps j) := by
            rw [pow_succ', mul_assoc, mul_assoc (temp * a)]
        _ = result * (temp ^ (j + 1) * powersUpTo ps (j + 1)) := by
            rw [mul_pow, mul_assoc, powersUpTo_succ]

/-- **The sweep over all digits computes the product of the powers.** -/
theorem sweep_one {ps : List (ℕ × M)} {j : ℕ} (h : ∀ p ∈ ps, p.1 ≤ j) :
    sweep ps j 1 1 = (ps.map fun p => p.2 ^ p.1).prod := by
  rw [sweep_eq, one_pow, one_mul, one_mul, powersUpTo]
  congr 1
  apply List.map_congr_left
  intro p hp
  rw [if_pos (h p hp)]

/-- **The tabled powers `g ^ (b ^ i)` and the digits to the base `b` give the power.** -/
theorem prod_powers (g : M) (b : ℕ) (digits : List ℕ) (i : ℕ) :
    ((digits.zipIdx i).map fun p => (g ^ b ^ p.2) ^ p.1).prod =
      g ^ (b ^ i * Nat.ofDigits b digits) := by
  induction digits generalizing i with
  | nil => simp
  | cons d digits ih =>
      rw [List.zipIdx_cons, List.map_cons, List.prod_cons, ih, Nat.ofDigits_cons, ← pow_mul,
        ← pow_add]
      congr 1
      ring

end FixedBase
