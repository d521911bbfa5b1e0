import Mathlib

set_option autoImplicit false

/-! # Running means of bounded numbers

The mean of the first `n` of infinitely many numbers between `0` and a bound settles: from some
`n` on it differs from the few means before it by as small a part of itself as one likes
(`mean_settles`). The mean itself need not converge: it may drift for ever, but ever more slowly.
-/

namespace RunningMean

open Finset

variable (x : ℕ → ℚ)

/-- The sum of the first `n` numbers. -/
def total (n : ℕ) : ℚ := ∑ i ∈ range n, x i

def mean (n : ℕ) : ℚ := total x n / n

variable {x} {M : ℚ}

theorem total_succ (n : ℕ) : total x (n + 1) = total x n + x n := sum_range_succ x n

/-- The sum, for numbers in a list. -/
theorem sum_map_range (n : ℕ) : ((List.range n).map x).sum = total x n := by
  induction n with
  | zero => rfl
  | succ n ih => simp [List.range_succ, ih, total_succ]

theorem mean_const (c : ℚ) {n : ℕ} (hn : 0 < n) : mean (fun _ => c) n = c := by
  have hn' : (n : ℚ) ≠ 0 := by exact_mod_cast hn.ne'
  simp [mean, total, mul_div_cancel_left₀ c hn']

theorem total_mono (h0 : ∀ n, 0 ≤ x n) : Monotone (total x) :=
  monotone_nat_of_le_succ fun n => by
    rw [total_succ]
    linarith [h0 n]

theorem total_nonneg (h0 : ∀ n, 0 ≤ x n) (n : ℕ) : 0 ≤ total x n :=
  sum_nonneg fun i _ => h0 i

theorem total_le_add (hM : ∀ n, x n ≤ M) (m i : ℕ) : total x (m + i) ≤ total x m + i * M := by
  induction i with
  | zero => simp
  | succ i ih =>
      calc total x (m + (i + 1)) = total x (m + i) + x (m + i) := total_succ (m + i)
        _ ≤ total x m + i * M + M := by linarith [hM (m + i)]
        _ = total x m + (i + 1 : ℕ) * M := by
            push_cast
            ring

/-- The last few numbers make up an ever smaller part of the sum: the sum stays bounded, and then
it hardly grows any more, or it outgrows what a few numbers can add. -/
theorem total_settles (h0 : ∀ n, 0 ≤ x n) (hM : ∀ n, x n ≤ M) {η : ℚ} (hη : 0 < η) (K : ℕ) :
    ∃ n₀, ∀ n ≥ n₀, ∀ i < K, total x n - total x (n - i) ≤ η * total x n := by
  have hM0 : 0 ≤ M := (h0 0).trans (hM 0)
  by_cases hbound : ∃ B, ∀ n, total x n ≤ B
  · obtain ⟨B, hB⟩ := hbound
    by_cases hzero : ∀ n, total x n = 0
    · exact ⟨0, fun n _ i _ => by simp [hzero]⟩
    · obtain ⟨m, hm⟩ := not_forall.mp hzero
      have hpos : 0 < total x m := lt_of_le_of_ne (total_nonneg h0 m) (Ne.symm hm)
      have hcauchy : IsCauSeq abs (total x) :=
        IsCauSeq.of_mono_bounded (total x)
          (fun n (_ : n ≥ 0) => by
            rw [abs_of_nonneg (total_nonneg h0 n)]
            exact hB n)
          fun n _ => total_mono h0 n.le_succ
      obtain ⟨n₁, hn₁⟩ := hcauchy (η * total x m) (mul_pos hη hpos)
      refine ⟨max (n₁ + K) m, fun n hn i hi => ?_⟩
      have hlast : |total x n - total x n₁| < η * total x m := hn₁ n (by omega)
      have hbefore : total x n₁ ≤ total x (n - i) := total_mono h0 (by omega)
      have hmn : total x m ≤ total x n := total_mono h0 (by omega)
      calc total x n - total x (n - i) ≤ total x n - total x n₁ := by linarith
        _ ≤ η * total x m := (le_abs_self _).trans hlast.le
        _ ≤ η * total x n := by gcongr
  · push Not at hbound
    obtain ⟨m, hm⟩ := hbound (K * M / η)
    refine ⟨max m K, fun n hn i hi => ?_⟩
    have hmn : total x m ≤ total x n := total_mono h0 (by omega)
    have hstep : total x (n - i + i) ≤ total x (n - i) + i * M := total_le_add hM (n - i) i
    rw [Nat.sub_add_cancel (by omega)] at hstep
    calc total x n - total x (n - i) ≤ i * M := by linarith
      _ ≤ K * M := by gcongr
      _ = η * (K * M / η) := by field_simp
      _ ≤ η * total x n := by gcongr; linarith

/-- **The running mean settles.** -/
theorem mean_settles (h0 : ∀ n, 0 ≤ x n) (hM : ∀ n, x n ≤ M) {ε : ℚ} (hε : 0 < ε) (K : ℕ) :
    ∃ n₀, ∀ n ≥ n₀, ∀ i < K, |mean x (n - i) - mean x n| ≤ ε * |mean x n| := by
  obtain ⟨n₁, hn₁⟩ := total_settles h0 hM hε K
  obtain ⟨c, hc⟩ := exists_nat_gt (K / ε)
  refine ⟨max n₁ (K + c + 1), fun n hn i hi => ?_⟩
  have hin : i < n := by omega
  have hcast : ((n - i : ℕ) : ℚ) = n - i := Nat.cast_sub hin.le
  have hpos : (0 : ℚ) < n := by exact_mod_cast (by omega : 0 < n)
  have hpos' : (0 : ℚ) < n - i := by
    have : (i : ℚ) < n := by exact_mod_cast hin
    linarith
  have hdrop := hn₁ n (by omega) i hi
  have hless : total x (n - i) ≤ total x n := total_mono h0 (Nat.sub_le n i)
  have htotal := total_nonneg h0 n
  have hmean : 0 ≤ mean x n := div_nonneg htotal hpos.le
  -- the mean before is larger by the smaller divisor at most
  have hi' : (i : ℚ) ≤ ε * (n - i) := by
    have hc' : (K : ℚ) / ε < n - i := by
      have : ((c + K : ℕ) : ℚ) ≤ n := by exact_mod_cast (by omega : c + K ≤ n)
      have : (i : ℚ) ≤ K := by exact_mod_cast hi.le
      push_cast at *
      linarith
    have := (div_lt_iff₀ hε).mp hc'
    have : (i : ℚ) ≤ K := by exact_mod_cast hi.le
    linarith
  rw [abs_of_nonneg hmean, abs_le]
  simp only [mean, hcast]
  constructor
  · -- and smaller by what the last numbers add
    have hle : (total x n - ε * total x n) / n ≤ total x (n - i) / (n - i) := by
      have hge : 0 ≤ total x (n - i) := total_nonneg h0 (n - i)
      calc (total x n - ε * total x n) / n ≤ total x (n - i) / n := by gcongr; linarith
        _ ≤ total x (n - i) / (n - i) := by
            gcongr
            have : (0 : ℚ) ≤ i := by positivity
            linarith
    have hsplit : (total x n - ε * total x n) / n = total x n / n - ε * (total x n / n) := by
      ring
    linarith
  · have hle : total x (n - i) / (n - i) ≤ (1 + ε) * (total x n / n) := by
      rw [div_le_iff₀ hpos', mul_assoc, mul_comm, mul_assoc, div_mul_eq_mul_div, le_div_iff₀ hpos]
      nlinarith
    linarith

end RunningMean
