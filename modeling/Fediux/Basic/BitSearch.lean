import Mathlib

set_option autoImplicit false

/-! # Search by bits

The greatest number with a property that goes over to smaller numbers is found bit by bit, from
the highest: a bit is set if the number has the property with it.
-/

namespace BitSearch

/-- The lowest `n` bits, added to a number. -/
def search (P : ℕ → Bool) : ℕ → ℕ → ℕ
  | 0, alpha => alpha
  | i + 1, alpha => search P i (if P (alpha + 2 ^ i) then alpha + 2 ^ i else alpha)

variable {P : ℕ → Bool}

/-- **The search finds the last number with the property.** -/
theorem search_spec (hP : ∀ j k, j ≤ k → P k = true → P j = true) (n alpha : ℕ) :
    alpha ≤ search P n alpha ∧ search P n alpha < alpha + 2 ^ n ∧
      ∀ k, alpha < k → k < alpha + 2 ^ n → (P k = true ↔ k ≤ search P n alpha) := by
  induction n generalizing alpha with
  | zero =>
      refine ⟨le_rfl, by simp [search], ?_⟩
      intro k hlow hhigh
      rw [pow_zero] at hhigh
      omega
  | succ i ih =>
      have hpow : 2 ^ (i + 1) = 2 ^ i + 2 ^ i := by ring
      rw [search]
      split_ifs with hbit
      · -- the bit is set, and smaller numbers have the property
        obtain ⟨hle, hlt, hspec⟩ := ih (alpha + 2 ^ i)
        refine ⟨by omega, by omega, ?_⟩
        intro k hlow hhigh
        by_cases hk : k ≤ alpha + 2 ^ i
        · exact iff_of_true (hP k _ hk hbit) (hk.trans hle)
        · exact hspec k (by omega) (by omega)
      · obtain ⟨hle, hlt, hspec⟩ := ih alpha
        refine ⟨hle, by omega, ?_⟩
        intro k hlow hhigh
        by_cases hk : alpha + 2 ^ i ≤ k
        · exact iff_of_false (fun htrue => hbit (hP _ k hk htrue)) (by omega)
        · exact hspec k hlow (by omega)

/-- From zero on: the greatest number below `2 ^ n` with the property, or zero. -/
theorem search_zero (hP : ∀ j k, j ≤ k → P k = true → P j = true) {n k : ℕ} (hpos : 0 < k)
    (hlt : k < 2 ^ n) : P k = true ↔ k ≤ search P n 0 :=
  (search_spec hP n 0).2.2 k hpos (by omega)

theorem search_lt (hP : ∀ j k, j ≤ k → P k = true → P j = true) (n : ℕ) :
    search P n 0 < 2 ^ n := by
  have hlt := (search_spec hP n 0).2.1
  omega

end BitSearch
