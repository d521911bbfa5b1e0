import Fediux.Basic.NextPrime
import Fediux.Paillier.Powmod

set_option autoImplicit false

/-! # Key generation

`opt_paillier_keygen` of `algorithm/opt_paillier/src/paillier.cc`. The loops draw primes until
`P = 2 p p_ + 1` and `Q = 2 q q_ + 1` are prime, and a unit `y` modulo `n = P Q`; `KeyShape` is
what they leave behind, `KeygenDraws.shape` says that they do. The rest of the function computes
the constants of `PublicKey` and `SecretKey`.
-/

namespace Fediux.Paillier

/-- `mapTo_nbits_lbits`. -/
def mapTo_nbits_lbits : List (ℕ × ℕ × ℕ) := [(112, 2048, 448), (128, 3072, 512), (192, 7680, 768)]

/-- What the loops of `opt_paillier_keygen` leave behind. -/
structure KeyShape where
  nbits : ℕ
  lbits : ℕ
  p : ℕ
  q : ℕ
  p_ : ℕ
  q_ : ℕ
  y : ℕ
  p_prime : p.Prime
  q_prime : q.Prime
  p__prime : p_.Prime
  q__prime : q_.Prime
  p_bits : 2 ^ (lbits / 2) < p
  q_bits : 2 ^ (lbits / 2) < q
  p__bits : 2 ^ (nbits / 2 - lbits / 2 - 1) < p_
  q__bits : 2 ^ (nbits / 2 - lbits / 2 - 1) < q_
  p_ne_q : p ≠ q
  p__ne_q_ : p_ ≠ q_
  p_lt_q_ : p < q_
  q_lt_p_ : q < p_
  P_prime : (2 * p * p_ + 1).Prime
  Q_prime : (2 * q * q_ + 1).Prime
  y_lt : y < (2 * p * p_ + 1) * (2 * q * q_ + 1)
  y_coprime : y.Coprime ((2 * p * p_ + 1) * (2 * q * q_ + 1))

/-! ## The loops -/

/-- `aby_prng`, `mpz_setbit` and `mpz_nextprime`: the first prime above a random number whose
bit `bits` is set. -/
def primeFrom (bits draw : ℕ) : ℕ := NextPrime.nextPrime (draw + 2 ^ bits)

/-- The draws of the last round of each loop: they pass the test at the end of the loop. -/
structure KeygenDraws (nbits lbits : ℕ) where
  p_ : Fin (2 ^ (nbits / 2 - lbits / 2 - 1))
  q_ : Fin (2 ^ (nbits / 2 - lbits / 2 - 1))
  p : Fin (2 ^ (lbits / 2))
  q : Fin (2 ^ (lbits / 2))
  y : ℕ
  p__ne_q_ : primeFrom (nbits / 2 - lbits / 2 - 1) p_ ≠ primeFrom (nbits / 2 - lbits / 2 - 1) q_
  P_prime :
    (2 * primeFrom (lbits / 2) p * primeFrom (nbits / 2 - lbits / 2 - 1) p_ + 1).Prime
  p_ne_q : primeFrom (lbits / 2) p ≠ primeFrom (lbits / 2) q
  Q_prime :
    (2 * primeFrom (lbits / 2) q * primeFrom (nbits / 2 - lbits / 2 - 1) q_ + 1).Prime
  y_coprime : y.Coprime
    ((2 * primeFrom (lbits / 2) p * primeFrom (nbits / 2 - lbits / 2 - 1) p_ + 1) *
      (2 * primeFrom (lbits / 2) q * primeFrom (nbits / 2 - lbits / 2 - 1) q_ + 1))

theorem lt_primeFrom (bits draw : ℕ) : 2 ^ bits < primeFrom bits draw := by
  have := NextPrime.lt_nextPrime (draw + 2 ^ bits)
  unfold primeFrom
  omega

theorem primeFrom_lt {bits draw : ℕ} (h : draw < 2 ^ bits) : primeFrom bits draw < 2 ^ (bits + 2) := by
  have hle : primeFrom bits draw ≤ 2 * (draw + 2 ^ bits) :=
    NextPrime.nextPrime_lt_two_mul (by omega)
  have hpow : 2 ^ (bits + 2) = 4 * 2 ^ bits := by ring
  omega

/-- The sizes that keep `p` and `q` below `p_` and `q_`. -/
def SizesFit (nbits lbits : ℕ) : Prop := lbits / 2 + 2 ≤ nbits / 2 - lbits / 2 - 1

theorem sizesFit_of_mem {k_sec nbits lbits : ℕ} (h : (k_sec, nbits, lbits) ∈ mapTo_nbits_lbits) :
    SizesFit nbits lbits ∧ 2048 ≤ nbits := by
  simp only [mapTo_nbits_lbits, List.mem_cons, Prod.mk.injEq, List.not_mem_nil, or_false] at h
  unfold SizesFit
  omega

theorem primeFrom_lt_primeFrom {nbits lbits draw other : ℕ} (hfit : SizesFit nbits lbits)
    (h : draw < 2 ^ (lbits / 2)) :
    primeFrom (lbits / 2) draw < primeFrom (nbits / 2 - lbits / 2 - 1) other := by
  have hle : 2 ^ (lbits / 2 + 2) ≤ 2 ^ (nbits / 2 - lbits / 2 - 1) :=
    Nat.pow_le_pow_right (by norm_num) hfit
  have hlt := primeFrom_lt h
  have hgt := lt_primeFrom (nbits / 2 - lbits / 2 - 1) other
  omega

/-- **The loops leave a key shape behind.** -/
def KeygenDraws.shape {nbits lbits : ℕ} (d : KeygenDraws nbits lbits)
    (hfit : SizesFit nbits lbits) : KeyShape where
  nbits := nbits
  lbits := lbits
  p := primeFrom (lbits / 2) d.p
  q := primeFrom (lbits / 2) d.q
  p_ := primeFrom (nbits / 2 - lbits / 2 - 1) d.p_
  q_ := primeFrom (nbits / 2 - lbits / 2 - 1) d.q_
  y := d.y % ((2 * primeFrom (lbits / 2) d.p * primeFrom (nbits / 2 - lbits / 2 - 1) d.p_ + 1) *
    (2 * primeFrom (lbits / 2) d.q * primeFrom (nbits / 2 - lbits / 2 - 1) d.q_ + 1))
  p_prime := NextPrime.prime_nextPrime _
  q_prime := NextPrime.prime_nextPrime _
  p__prime := NextPrime.prime_nextPrime _
  q__prime := NextPrime.prime_nextPrime _
  p_bits := lt_primeFrom _ _
  q_bits := lt_primeFrom _ _
  p__bits := lt_primeFrom _ _
  q__bits := lt_primeFrom _ _
  p_ne_q := d.p_ne_q
  p__ne_q_ := d.p__ne_q_
  p_lt_q_ := primeFrom_lt_primeFrom hfit d.p.isLt
  q_lt_p_ := primeFrom_lt_primeFrom hfit d.q.isLt
  P_prime := d.P_prime
  Q_prime := d.Q_prime
  y_lt := Nat.mod_lt _ (Nat.mul_pos (Nat.succ_pos _) (Nat.succ_pos _))
  y_coprime := (Nat.ModEq.gcd_eq (Nat.mod_modEq _ _)).trans d.y_coprime

/-! ## The constants -/

/-- `opt_public_key_t`. -/
structure PublicKey where
  nbits : ℕ
  lbits : ℕ
  n : ℤ
  half_n : ℤ
  n_squared : ℤ
  h_s : ℤ
  fb_mod_P_sqaured : FbInstance
  fb_mod_Q_sqaured : FbInstance
  deriving DecidableEq

/-- `opt_secret_key_t`. -/
structure SecretKey where
  p : ℤ
  q : ℤ
  p_ : ℤ
  q_ : ℤ
  alpha : ℤ
  beta : ℤ
  P : ℤ
  Q : ℤ
  P_squared : ℤ
  Q_squared : ℤ
  double_alpha : ℤ
  double_beta : ℤ
  double_alpha_inverse : ℤ
  P_squared_mul_P_squared_inverse : ℤ
  P_mul_P_inverse : ℤ
  double_p : ℤ
  double_q : ℤ
  Q_mul_double_p_inverse : ℤ
  P_mul_double_q_inverse : ℤ
  deriving DecidableEq

namespace KeyShape

variable (k : KeyShape)

/-- The secret key, as the end of `opt_paillier_keygen` computes it. -/
def prv : SecretKey :=
  let p : ℤ := k.p
  let q : ℤ := k.q
  let p_ : ℤ := k.p_
  let q_ : ℤ := k.q_
  let P := p * p_ * 2 + 1
  let Q := q * q_ * 2 + 1
  let alpha := p * q
  let beta := p_ * q_
  let n := P * Q
  { p := p, q := q, p_ := p_, q_ := q_, alpha := alpha, beta := beta, P := P, Q := Q
    P_squared := P * P
    Q_squared := Q * Q
    double_alpha := alpha * 2
    double_beta := beta * 2
    double_alpha_inverse := Residue.invert (alpha * 2) n
    P_squared_mul_P_squared_inverse := Residue.invert (P * P) (Q * Q) * (P * P)
    P_mul_P_inverse := Residue.invert P Q * P
    double_p := p * 2
    double_q := q * 2
    Q_mul_double_p_inverse := Residue.invert (Q * (p * 2)) P
    P_mul_double_q_inverse := Residue.invert (P * (q * 2)) Q }

/-- The public key. -/
def pub : PublicKey :=
  let n := k.prv.P * k.prv.Q
  let n_squared := n * n
  let h_s := mpz_powm (-mpz_powm k.y k.prv.double_beta n) n n_squared
  { nbits := k.nbits, lbits := k.lbits, n := n, half_n := n / 2, n_squared := n_squared, h_s := h_s
    fb_mod_P_sqaured :=
      fbpowmod_init_extend (h_s % k.prv.P_squared) k.prv.P_squared (k.lbits + 1) 4
    fb_mod_Q_sqaured :=
      fbpowmod_init_extend (h_s % k.prv.Q_squared) k.prv.Q_squared (k.lbits + 1) 4 }

end KeyShape

end Fediux.Paillier
