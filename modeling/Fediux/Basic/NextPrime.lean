import Mathlib

set_option autoImplicit false

/-! # Successive primes

`nextPrime n` is the least prime above `n`. Bertrand's postulate bounds one step; Chebyshev's
bounds say that many steps from below `2 ^ k` stay below `2 ^ (k + 2)`, when `k` is not small.
-/

namespace NextPrime

theorem exists_prime_gt (n : ℕ) : ∃ p, n < p ∧ p.Prime := by
  obtain ⟨p, hle, hp⟩ := Nat.exists_infinite_primes (n + 1)
  exact ⟨p, hle, hp⟩

/-- The least prime above `n`. -/
def nextPrime (n : ℕ) : ℕ := Nat.find (exists_prime_gt n)

theorem lt_nextPrime (n : ℕ) : n < nextPrime n := (Nat.find_spec (exists_prime_gt n)).1

theorem prime_nextPrime (n : ℕ) : (nextPrime n).Prime := (Nat.find_spec (exists_prime_gt n)).2

theorem nextPrime_le {n p : ℕ} (h : n < p) (hp : p.Prime) : nextPrime n ≤ p :=
  Nat.find_min' (exists_prime_gt n) ⟨h, hp⟩

theorem nextPrime_lt_two_mul {n : ℕ} (hn : n ≠ 0) : nextPrime n ≤ 2 * n := by
  obtain ⟨p, hp, hlt, hle⟩ := Nat.exists_prime_lt_and_le_two_mul n hn
  exact le_trans (nextPrime_le hlt hp) hle

/-- The next `k` primes above `n`. -/
def nextPrimes : ℕ → ℕ → List ℕ
  | _, 0 => []
  | n, k + 1 => nextPrime n :: nextPrimes (nextPrime n) k

@[simp] theorem length_nextPrimes (n k : ℕ) : (nextPrimes n k).length = k := by
  induction k generalizing n with
  | zero => rfl
  | succ k ih => rw [nextPrimes, List.length_cons, ih]

theorem mem_nextPrimes {n k p : ℕ} (h : p ∈ nextPrimes n k) : n < p ∧ p.Prime := by
  induction k generalizing n with
  | zero => cases h
  | succ k ih =>
      rcases List.mem_cons.mp h with rfl | h
      · exact ⟨lt_nextPrime n, prime_nextPrime n⟩
      · exact ⟨lt_trans (lt_nextPrime n) (ih h).1, (ih h).2⟩

theorem sorted_nextPrimes (n k : ℕ) : (nextPrimes n k).Pairwise (· < ·) := by
  induction k generalizing n with
  | zero => exact List.Pairwise.nil
  | succ k ih => exact List.pairwise_cons.mpr ⟨fun p hp => (mem_nextPrimes hp).1, ih _⟩

/-! ## Bounds -/

/-- The primes above `m` up to `n`. -/
def primesBetween (m n : ℕ) : Finset ℕ := {p ∈ Finset.Ioc m n | p.Prime}

/-- Where there are `k` primes, the next `k` primes lie. -/
theorem nextPrimes_le {m n k : ℕ} (h : k ≤ (primesBetween m n).card) :
    ∀ p ∈ nextPrimes m k, p ≤ n := by
  induction k generalizing m with
  | zero =>
      intro p hp
      cases hp
  | succ k ih =>
      have hne : (primesBetween m n).Nonempty := Finset.card_pos.mp (by omega)
      obtain ⟨q, hq⟩ := hne
      obtain ⟨hioc, hqp⟩ := Finset.mem_filter.mp hq
      obtain ⟨hmq, hqn⟩ := Finset.mem_Ioc.mp hioc
      have hle : nextPrime m ≤ n := le_trans (nextPrime_le hmq hqp) hqn
      -- every other prime of the range is above the first one
      have hsub : (primesBetween m n).erase (nextPrime m) ⊆ primesBetween (nextPrime m) n := by
        intro p hp
        obtain ⟨hne, hp⟩ := Finset.mem_erase.mp hp
        obtain ⟨hioc, hpp⟩ := Finset.mem_filter.mp hp
        obtain ⟨hmp, hpn⟩ := Finset.mem_Ioc.mp hioc
        have hlt : nextPrime m < p := lt_of_le_of_ne (nextPrime_le hmp hpp) (Ne.symm hne)
        exact Finset.mem_filter.mpr ⟨Finset.mem_Ioc.mpr ⟨hlt, hpn⟩, hpp⟩
      have hmem : nextPrime m ∈ primesBetween m n :=
        Finset.mem_filter.mpr ⟨Finset.mem_Ioc.mpr ⟨lt_nextPrime m, hle⟩, prime_nextPrime m⟩
      have hcard := Finset.card_le_card hsub
      rw [Finset.card_erase_of_mem hmem] at hcard
      intro p hp
      rcases List.mem_cons.mp hp with rfl | hp
      · exact hle
      · exact ih (by omega) p hp

/-- The logarithms of the primes of a range are at most the logarithm of its end. -/
theorem theta_sub_le {m n : ℕ} (hmn : m ≤ n) :
    Chebyshev.theta n - Chebyshev.theta m ≤ (primesBetween m n).card * Real.log n := by
  have hsplit : Nat.primesLE n = Nat.primesLE m ∪ primesBetween m n := by
    ext p
    simp only [Nat.mem_primesLE, primesBetween, Finset.mem_union, Finset.mem_filter,
      Finset.mem_Ioc]
    constructor
    · rintro ⟨hle, hp⟩
      by_cases hpm : p ≤ m
      · exact Or.inl ⟨hpm, hp⟩
      · exact Or.inr ⟨⟨by omega, hle⟩, hp⟩
    · rintro (⟨hle, hp⟩ | ⟨⟨_, hle⟩, hp⟩)
      · exact ⟨by omega, hp⟩
      · exact ⟨hle, hp⟩
  have hdisj : Disjoint (Nat.primesLE m) (primesBetween m n) := by
    rw [Finset.disjoint_left]
    intro p hp hpb
    have h := Finset.mem_Ioc.mp (Finset.mem_filter.mp hpb).1
    have := (Nat.mem_primesLE.mp hp).1
    omega
  have hsum : ∑ p ∈ primesBetween m n, Real.log p ≤
      (primesBetween m n).card * Real.log n := by
    rw [← nsmul_eq_mul]
    apply Finset.sum_le_card_nsmul
    intro p hp
    obtain ⟨hioc, hpp⟩ := Finset.mem_filter.mp hp
    have hpos : (0 : ℝ) < p := by exact_mod_cast hpp.pos
    exact Real.log_le_log hpos (by exact_mod_cast (Finset.mem_Ioc.mp hioc).2)
  rw [Chebyshev.theta_eq_sum_primesLE_log, Chebyshev.theta_eq_sum_primesLE_log, hsplit,
    Finset.sum_union hdisj, add_sub_cancel_left]
  exact hsum

/-- The number of primes between `2 ^ k` and `2 ^ (k + 2)`. -/
theorem two_pow_le_primesBetween {k s : ℕ} (hs : 2 ^ (k + 2) ≤ s ^ 2) :
    2 ^ (k + 1) ≤
      (primesBetween (2 ^ k) (2 ^ (k + 2))).card * (k + 2) + (k + 3) + 2 * s * (k + 2) := by
  set c := (primesBetween (2 ^ k) (2 ^ (k + 2))).card with hc
  have hlog2 : 0 < Real.log 2 := Real.log_pos (by norm_num)
  have hlogn : Real.log ((2 ^ (k + 2) : ℕ) : ℝ) = (k + 2) * Real.log 2 := by
    push_cast
    rw [Real.log_pow]
    push_cast
    rfl
  have hupper : Chebyshev.theta ((2 ^ k : ℕ) : ℝ) ≤ 2 ^ (k + 1) * Real.log 2 := by
    have h := Chebyshev.theta_le_log4_mul_x (x := ((2 ^ k : ℕ) : ℝ)) (Nat.cast_nonneg _)
    have h4 : Real.log 4 = 2 * Real.log 2 := by
      rw [show (4 : ℝ) = 2 ^ 2 by norm_num, Real.log_pow]
      norm_num
    calc _ ≤ Real.log 4 * ((2 ^ k : ℕ) : ℝ) := h
      _ = 2 ^ (k + 1) * Real.log 2 := by
          rw [h4]
          push_cast
          ring
  have hsucc : Real.log (((2 ^ (k + 2) : ℕ) : ℝ) + 1) ≤ (k + 3) * Real.log 2 := by
    have hle : ((2 ^ (k + 2) : ℕ) : ℝ) + 1 ≤ 2 ^ (k + 3) := by
      have h : 1 ≤ 2 ^ (k + 2) := Nat.one_le_two_pow
      have : 2 ^ (k + 2) + 1 ≤ 2 ^ (k + 3) := by rw [pow_succ 2 (k + 2)]; omega
      exact_mod_cast this
    calc _ ≤ Real.log (2 ^ (k + 3)) := Real.log_le_log (by positivity) hle
      _ = (k + 3) * Real.log 2 := by
          rw [Real.log_pow]
          push_cast
          rfl
  have hsqrt : √((2 ^ (k + 2) : ℕ) : ℝ) ≤ s := by
    rw [Real.sqrt_le_left (Nat.cast_nonneg s)]
    exact_mod_cast hs
  have hlower := Chebyshev.theta_ge (2 ^ (k + 2))
  have hcount := theta_sub_le (m := 2 ^ k) (n := 2 ^ (k + 2))
    (Nat.pow_le_pow_right (by norm_num) (by omega))
  rw [hlogn] at hlower hcount
  -- all the terms are multiples of `log 2`
  have hroot : 2 * √((2 ^ (k + 2) : ℕ) : ℝ) * ((k + 2) * Real.log 2) ≤
      2 * s * (k + 2) * Real.log 2 := by
    have hk : 0 ≤ (k + 2) * Real.log 2 := by positivity
    calc _ ≤ 2 * (s : ℝ) * ((k + 2) * Real.log 2) :=
          mul_le_mul_of_nonneg_right (by linarith) hk
      _ = 2 * s * (k + 2) * Real.log 2 := by ring
  have hn : ((2 ^ (k + 2) : ℕ) : ℝ) * Real.log 2 = 2 * (2 ^ (k + 1) * Real.log 2) := by
    push_cast
    ring
  have hall : (2 : ℝ) ^ (k + 1) * Real.log 2 ≤
      (c * (k + 2) + (k + 3) + 2 * s * (k + 2)) * Real.log 2 := by
    rw [← hc] at hcount
    linarith only [hlower, hcount, hupper, hsucc, hroot, hn]
  exact_mod_cast le_of_mul_le_mul_right hall hlog2

end NextPrime
