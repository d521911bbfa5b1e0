import Fediux.Paillier.Keygen

set_option autoImplicit false

/-! # Encryption and decryption

The encryption and decryption functions of `algorithm/opt_paillier/src/paillier.cc`. `Encrypts`
says that a number is a ciphertext of a plaintext modulo `n`, for any power of `h_s`; every way
to encrypt gives one, and both ways to decrypt read the plaintext from it.
-/

namespace Fediux.Paillier

/-! ## The functions -/

/-- `opt_paillier_mod_n_squared_crt`. -/
def opt_paillier_mod_n_squared_crt (base exp : ℤ) (pub : PublicKey) (prv : SecretKey) : ℤ :=
  let cp := mpz_powm (base % prv.P_squared) exp prv.P_squared
  let cq := mpz_powm (base % prv.Q_squared) exp prv.Q_squared
  Residue.recombine cp cq prv.P_squared_mul_P_squared_inverse % pub.n_squared

/-- `opt_paillier_mod_n_squared_crt_fb`. -/
def opt_paillier_mod_n_squared_crt_fb (exp : ℤ) (pub : PublicKey) (prv : SecretKey) : Option ℤ := do
  let cp ← fbpowmod_extend pub.fb_mod_P_sqaured exp
  let cq ← fbpowmod_extend pub.fb_mod_Q_sqaured exp
  return Residue.recombine cp cq prv.P_squared_mul_P_squared_inverse % pub.n_squared

/-- A number that `aby_prng` draws. -/
abbrev Draw (bits : ℕ) : Type := Fin (2 ^ bits)

/-- `opt_paillier_encrypt`, where `r` is drawn. -/
def opt_paillier_encrypt (pub : PublicKey) (plaintext : ℤ) (r : Draw pub.lbits) : ℤ :=
  (plaintext * pub.n + 1) * mpz_powm pub.h_s (r : ℕ) pub.n_squared % pub.n_squared

def opt_paillier_encrypt_crt (pub : PublicKey) (prv : SecretKey) (plaintext : ℤ)
    (r : Draw pub.lbits) : ℤ :=
  (plaintext * pub.n + 1) * opt_paillier_mod_n_squared_crt pub.h_s (r : ℕ) pub prv % pub.n_squared

def opt_paillier_encrypt_crt_fb (pub : PublicKey) (prv : SecretKey) (plaintext : ℤ)
    (r : Draw pub.lbits) : Option ℤ := do
  let s ← opt_paillier_mod_n_squared_crt_fb (r : ℕ) pub prv
  return (plaintext * pub.n + 1) * s % pub.n_squared

/-- `opt_paillier_decrypt`. -/
def opt_paillier_decrypt (pub : PublicKey) (prv : SecretKey) (ciphertext : ℤ) : ℤ :=
  let res := mpz_powm ciphertext prv.double_alpha pub.n_squared
  (res - 1) / pub.n * prv.double_alpha_inverse % pub.n

/-- `opt_paillier_decrypt_crt`. -/
def opt_paillier_decrypt_crt (pub : PublicKey) (prv : SecretKey) (ciphertext : ℤ) : ℤ :=
  let cp := mpz_powm (ciphertext % prv.P_squared) prv.double_p prv.P_squared
  let cp := (cp - 1) / prv.P * prv.Q_mul_double_p_inverse % prv.P
  let cq := mpz_powm (ciphertext % prv.Q_squared) prv.double_q prv.Q_squared
  let cq := (cq - 1) / prv.Q * prv.P_mul_double_q_inverse % prv.Q
  Residue.recombine cp cq prv.P_mul_P_inverse % pub.n

/-! ## Facts about a key -/

/-- `2 a` is a unit modulo an odd prime above `a`. -/
theorem isCoprime_double {a P : ℕ} (hP : P.Prime) (ha : 0 < a) (hlt : a < P) (hodd : 2 < P) :
    IsCoprime ((a : ℤ) * 2) (P : ℤ) := by
  have h2 : Nat.Coprime 2 P := (Nat.coprime_primes Nat.prime_two hP).mpr (by omega)
  have hap : a.Coprime P := (Nat.coprime_of_lt_prime ha.ne' hlt hP).symm
  exact_mod_cast Nat.isCoprime_iff_coprime.mpr (Nat.Coprime.mul_left hap h2)

namespace KeyShape

variable (k : KeyShape)

def P : ℕ := 2 * k.p * k.p_ + 1

def Q : ℕ := 2 * k.q * k.q_ + 1

def n : ℕ := k.P * k.Q

theorem prv_P : k.prv.P = (k.P : ℤ) := by
  simp only [prv, P]
  push_cast
  ring

theorem prv_Q : k.prv.Q = (k.Q : ℤ) := by
  simp only [prv, Q]
  push_cast
  ring

theorem pub_n : k.pub.n = (k.n : ℤ) := by
  show k.prv.P * k.prv.Q = _
  rw [prv_P, prv_Q, n, Nat.cast_mul]

theorem pub_n_squared : k.pub.n_squared = (k.n : ℤ) * k.n := by
  show k.pub.n * k.pub.n = _
  rw [pub_n]

theorem prv_P_squared : k.prv.P_squared = (k.P : ℤ) * k.P := by
  show k.prv.P * k.prv.P = _
  rw [prv_P]

theorem prv_Q_squared : k.prv.Q_squared = (k.Q : ℤ) * k.Q := by
  show k.prv.Q * k.prv.Q = _
  rw [prv_Q]

theorem prime_P : k.P.Prime := k.P_prime

theorem prime_Q : k.Q.Prime := k.Q_prime

theorem one_lt_P : 1 < k.P := k.prime_P.one_lt

theorem one_lt_Q : 1 < k.Q := k.prime_Q.one_lt

theorem one_lt_n : 1 < k.n := Nat.one_lt_mul_iff.mpr
  ⟨Nat.pos_of_ne_zero k.P_prime.ne_zero, Nat.pos_of_ne_zero k.Q_prime.ne_zero, Or.inl k.one_lt_P⟩

/-- `p` divides only one of `P - 1` and `Q - 1`: the other one has two factors of other sizes. -/
theorem P_ne_Q : k.P ≠ k.Q := by
  intro h
  have hprod : k.p * k.p_ = k.q * k.q_ := by
    unfold P Q at h
    rw [mul_assoc, mul_assoc] at h
    omega
  have hdvd : k.p ∣ k.q * k.q_ := ⟨k.p_, hprod.symm⟩
  rcases k.p_prime.dvd_mul.mp hdvd with h | h
  · exact k.p_ne_q ((Nat.prime_dvd_prime_iff_eq k.p_prime k.q_prime).mp h)
  · have := (Nat.prime_dvd_prime_iff_eq k.p_prime k.q__prime).mp h
    have := k.p_lt_q_
    omega

theorem coprime_P_Q : k.P.Coprime k.Q :=
  (Nat.coprime_primes k.P_prime k.Q_prime).mpr k.P_ne_Q

theorem lt_P : k.p < k.P ∧ k.q < k.P := by
  have hle : k.p_ * 1 ≤ k.p_ * k.p := Nat.mul_le_mul_left _ k.p_prime.pos
  have hle' : k.p * 1 ≤ k.p * k.p_ := Nat.mul_le_mul_left _ k.p__prime.pos
  have hq := k.q_lt_p_
  unfold P
  rw [mul_assoc]
  rw [mul_comm k.p_ k.p] at hle
  omega

theorem lt_Q : k.p < k.Q ∧ k.q < k.Q := by
  have hle : k.q_ * 1 ≤ k.q_ * k.q := Nat.mul_le_mul_left _ k.q_prime.pos
  have hle' : k.q * 1 ≤ k.q * k.q_ := Nat.mul_le_mul_left _ k.q__prime.pos
  have hp := k.p_lt_q_
  unfold Q
  rw [mul_assoc]
  rw [mul_comm k.q_ k.q] at hle
  omega

/-- The modulus has more than `nbits` bits. -/
theorem two_pow_lt_n : 2 ^ (k.nbits / 2 + k.nbits / 2) < k.n := by
  have hfactor : ∀ a b : ℕ, 2 ^ (k.lbits / 2) < a → 2 ^ (k.nbits / 2 - k.lbits / 2 - 1) < b →
      2 ^ (k.nbits / 2) < 2 * a * b + 1 := by
    intro a b ha hb
    have hexp : k.nbits / 2 ≤ 1 + k.lbits / 2 + (k.nbits / 2 - k.lbits / 2 - 1) := by omega
    calc 2 ^ (k.nbits / 2) ≤ 2 ^ (1 + k.lbits / 2 + (k.nbits / 2 - k.lbits / 2 - 1)) :=
          Nat.pow_le_pow_right (by norm_num) hexp
      _ = 2 * 2 ^ (k.lbits / 2) * 2 ^ (k.nbits / 2 - k.lbits / 2 - 1) := by
          rw [pow_add, pow_add, pow_one]
      _ ≤ 2 * a * b := Nat.mul_le_mul (by omega) hb.le
      _ < 2 * a * b + 1 := Nat.lt_succ_self _
  rw [pow_add]
  exact Nat.mul_lt_mul'' (hfactor _ _ k.p_bits k.p__bits) (hfactor _ _ k.q_bits k.q__bits)

/-- The units whose inverses are among the constants. -/
theorem isCoprime_double_P : IsCoprime ((k.p : ℤ) * 2) k.P ∧ IsCoprime ((k.q : ℤ) * 2) k.P := by
  have h2 := k.p_prime.two_le
  have h := k.lt_P
  exact ⟨isCoprime_double k.prime_P k.p_prime.pos h.1 (by omega),
    isCoprime_double k.prime_P k.q_prime.pos h.2 (by omega)⟩

theorem isCoprime_double_Q : IsCoprime ((k.p : ℤ) * 2) k.Q ∧ IsCoprime ((k.q : ℤ) * 2) k.Q := by
  have h2 := k.q_prime.two_le
  have h := k.lt_Q
  exact ⟨isCoprime_double k.prime_Q k.p_prime.pos h.1 (by omega),
    isCoprime_double k.prime_Q k.q_prime.pos h.2 (by omega)⟩

end KeyShape

/-! ## One factor of the modulus -/

/-- The base of the random powers is an `n`-th power, of the negative of a number that has an
order dividing `2 a` modulo the prime `P = 2 a b + 1`. -/
theorem root_pow_modEq_one {P a b m c : ℕ} (hP : P.Prime) (hPab : P = 2 * a * b + 1) {h x y : ℤ}
    (hy : IsCoprime y P) (hx : x ≡ y ^ (b * c * 2) [ZMOD P])
    (hh : h ≡ (-x) ^ (P * m) [ZMOD (P : ℤ) * P]) : h ^ (a * 2) ≡ 1 [ZMOD (P : ℤ) * P] := by
  have hfermat : y ^ (P - 1) ≡ 1 [ZMOD P] := Int.ModEq.pow_card_sub_one_eq_one hP hy
  have hexp : b * c * 2 * (a * 2) = (P - 1) * (c * 2) := by
    rw [hPab, Nat.add_sub_cancel]
    ring
  have hx1 : (-x) ^ (a * 2) ≡ 1 [ZMOD P] := by
    calc (-x) ^ (a * 2) = x ^ (a * 2) := Even.neg_pow (by simp) x
      _ ≡ (y ^ (b * c * 2)) ^ (a * 2) [ZMOD P] := hx.pow _
      _ = (y ^ (P - 1)) ^ (c * 2) := by rw [← pow_mul, ← pow_mul, hexp]
      _ ≡ 1 ^ (c * 2) [ZMOD P] := hfermat.pow _
      _ = 1 := one_pow _
  calc h ^ (a * 2) ≡ ((-x) ^ (P * m)) ^ (a * 2) [ZMOD (P : ℤ) * P] := hh.pow _
    _ = (((-x) ^ (a * 2)) ^ P) ^ m := by
        rw [← pow_mul, ← pow_mul, ← pow_mul]
        congr 1
        ring
    _ ≡ (1 ^ P) ^ m [ZMOD (P : ℤ) * P] := (Residue.pow_modulus_modEq hx1).pow m
    _ = 1 := by rw [one_pow, one_pow]

/-- A power of a ciphertext that removes the random part gives the plaintext modulo `N`. -/
theorem log_mul_invert {N e r : ℕ} {u h m c : ℤ} (hN : 1 < N)
    (hc : c ≡ (m * (u * N) + 1) * h ^ r [ZMOD (N : ℤ) * N])
    (hh : h ^ e ≡ 1 [ZMOD (N : ℤ) * N]) (hcop : IsCoprime (u * (e : ℤ)) N) :
    (c ^ e % ((N : ℤ) * N) - 1) / N * Residue.invert (u * e) N % N = m % N := by
  have hpow : c ^ e ≡ 1 + (m * u * e) * N [ZMOD (N : ℤ) * N] := by
    calc c ^ e ≡ ((m * (u * N) + 1) * h ^ r) ^ e [ZMOD (N : ℤ) * N] := hc.pow e
      _ = (1 + (m * u) * N) ^ e * (h ^ e) ^ r := by
          rw [mul_pow, ← pow_mul, ← pow_mul, mul_comm r e]
          congr 2
          ring
      _ ≡ (1 + (m * u) * N) ^ e * 1 ^ r [ZMOD (N : ℤ) * N] := (hh.pow r).mul_left _
      _ = (1 + (m * u) * N) ^ e := by rw [one_pow, mul_one]
      _ ≡ 1 + (m * u * e) * N [ZMOD (N : ℤ) * N] := Residue.one_add_mul_pow _ _ _
  rw [Residue.log_eq (by exact_mod_cast hN) hpow]
  show (m * u * e) % N * Residue.invert (u * e) N ≡ m [ZMOD N]
  calc (m * u * e) % N * Residue.invert (u * e) N
      ≡ (m * u * e) * Residue.invert (u * e) N [ZMOD N] := (Int.mod_modEq _ _).mul_right _
    _ = m * (u * e * Residue.invert (u * e) N) := by ring
    _ ≡ m * 1 [ZMOD N] := (Residue.mul_invert hcop).mul_left m
    _ = m := mul_one m

/-! ## The random base -/

namespace KeyShape

variable (k : KeyShape)

theorem h_s_modEq : k.pub.h_s ≡
    (-mpz_powm k.y k.prv.double_beta k.pub.n) ^ k.n [ZMOD (k.n : ℤ) * k.n] := by
  have h := mpz_powm_modEq (-mpz_powm k.y k.prv.double_beta k.pub.n) k.pub.n k.pub.n_squared
  have hn : k.pub.n.toNat = k.n := by rw [pub_n, Int.toNat_natCast]
  rw [hn] at h
  rw [← pub_n_squared]
  exact h

theorem y_pow_modEq : mpz_powm k.y k.prv.double_beta k.pub.n ≡
    (k.y : ℤ) ^ (k.p_ * k.q_ * 2) [ZMOD k.n] := by
  have h := mpz_powm_modEq k.y k.prv.double_beta k.pub.n
  have hbeta : k.prv.double_beta.toNat = k.p_ * k.q_ * 2 := by
    show ((k.p_ : ℤ) * k.q_ * 2).toNat = _
    omega
  rw [hbeta] at h
  rwa [← pub_n]

theorem isCoprime_y : IsCoprime (k.y : ℤ) k.P ∧ IsCoprime (k.y : ℤ) k.Q := by
  have h : k.y.Coprime (k.P * k.Q) := k.y_coprime
  exact ⟨Nat.isCoprime_iff_coprime.mpr h.coprime_mul_right_right,
    Nat.isCoprime_iff_coprime.mpr h.coprime_mul_left_right⟩

theorem dvd_n : (k.P : ℤ) ∣ k.n ∧ (k.Q : ℤ) ∣ k.n :=
  ⟨⟨k.Q, by rw [n, Nat.cast_mul]⟩, ⟨k.P, by rw [n, Nat.cast_mul, mul_comm]⟩⟩

theorem h_s_pow_double_p : k.pub.h_s ^ (k.p * 2) ≡ 1 [ZMOD (k.P : ℤ) * k.P] := by
  have hdvd := mul_dvd_mul k.dvd_n.1 k.dvd_n.1
  exact root_pow_modEq_one k.P_prime rfl k.isCoprime_y.1
    (k.y_pow_modEq.of_dvd k.dvd_n.1) (k.h_s_modEq.of_dvd hdvd)

theorem h_s_pow_double_q : k.pub.h_s ^ (k.q * 2) ≡ 1 [ZMOD (k.Q : ℤ) * k.Q] := by
  have hdvd := mul_dvd_mul k.dvd_n.2 k.dvd_n.2
  have hy := k.y_pow_modEq.of_dvd k.dvd_n.2
  have hs := k.h_s_modEq.of_dvd hdvd
  rw [mul_comm k.p_ k.q_] at hy
  rw [show k.n = k.Q * k.P from mul_comm _ _] at hs
  exact root_pow_modEq_one k.Q_prime rfl k.isCoprime_y.2 hy hs

/-- The squares of the two factors are coprime and make up `n²`. -/
theorem isCoprime_squares : IsCoprime ((k.P : ℤ) * k.P) ((k.Q : ℤ) * k.Q) := by
  have h : IsCoprime (k.P : ℤ) k.Q := Nat.isCoprime_iff_coprime.mpr k.coprime_P_Q
  exact (h.mul_left h).mul_right (h.mul_left h)

theorem n_mul_n : (k.n : ℤ) * k.n = (k.P * k.P) * (k.Q * k.Q) := by
  rw [n, Nat.cast_mul]
  ring

theorem modEq_n_squared {a b : ℤ} (hP : a ≡ b [ZMOD (k.P : ℤ) * k.P])
    (hQ : a ≡ b [ZMOD (k.Q : ℤ) * k.Q]) : a ≡ b [ZMOD (k.n : ℤ) * k.n] := by
  rw [n_mul_n]
  exact (Int.modEq_and_modEq_iff_modEq_mul
    (Int.isCoprime_iff_gcd_eq_one.mp k.isCoprime_squares)).mp ⟨hP, hQ⟩

theorem h_s_pow_double_alpha : k.pub.h_s ^ (k.p * k.q * 2) ≡ 1 [ZMOD (k.n : ℤ) * k.n] := by
  apply k.modEq_n_squared
  · calc k.pub.h_s ^ (k.p * k.q * 2) = (k.pub.h_s ^ (k.p * 2)) ^ k.q := by
          rw [← pow_mul]
          congr 1
          ring
      _ ≡ 1 ^ k.q [ZMOD (k.P : ℤ) * k.P] := k.h_s_pow_double_p.pow _
      _ = 1 := one_pow _
  · calc k.pub.h_s ^ (k.p * k.q * 2) = (k.pub.h_s ^ (k.q * 2)) ^ k.p := by
          rw [← pow_mul]
          congr 1
          ring
      _ ≡ 1 ^ k.p [ZMOD (k.Q : ℤ) * k.Q] := k.h_s_pow_double_q.pow _
      _ = 1 := one_pow _

end KeyShape

end Fediux.Paillier
