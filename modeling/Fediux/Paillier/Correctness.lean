import Fediux.Paillier.Cipher

set_option autoImplicit false

/-! # Decryption undoes encryption

The three ways to encrypt give the same ciphertext, and both ways to decrypt give the plaintext
back, for every key, plaintext and random exponent.
-/

namespace Fediux.Paillier

/-- `c` is a ciphertext of `m`, up to the modulus of the ciphertexts. -/
def Encrypts (k : KeyShape) (m c : ℤ) : Prop :=
  ∃ r : ℕ, c ≡ (m * k.n + 1) * k.pub.h_s ^ r [ZMOD (k.n : ℤ) * k.n]

/-! ## The three ways to encrypt -/

namespace KeyShape

variable (k : KeyShape)

theorem P_squared_pos : 0 < k.prv.P_squared := by
  have := k.one_lt_P
  rw [prv_P_squared]
  positivity

theorem Q_squared_pos : 0 < k.prv.Q_squared := by
  have := k.one_lt_Q
  rw [prv_Q_squared]
  positivity

theorem n_pos : (0 : ℤ) < k.n := by
  have := k.one_lt_n
  omega

/-- A number with the residues of a power modulo both squares recombines to the power. -/
theorem recombine_squares {x cp cq : ℤ} (hp : cp ≡ x [ZMOD k.prv.P_squared])
    (hq : cq ≡ x [ZMOD k.prv.Q_squared]) :
    Residue.recombine cp cq k.prv.P_squared_mul_P_squared_inverse % k.pub.n_squared =
      x % k.pub.n_squared := by
  have hcop : IsCoprime k.prv.P_squared k.prv.Q_squared := by
    rw [prv_P_squared, prv_Q_squared]
    exact k.isCoprime_squares
  obtain ⟨h0, h1⟩ := Residue.mul_invert_modEq hcop
  have hinv : k.prv.P_squared_mul_P_squared_inverse =
      k.prv.P_squared * Residue.invert k.prv.P_squared k.prv.Q_squared := mul_comm _ _
  rw [← hinv] at h0 h1
  have hn : k.pub.n_squared = k.prv.P_squared * k.prv.Q_squared := by
    rw [pub_n_squared, n_mul_n, prv_P_squared, prv_Q_squared]
  rw [hn]
  exact Residue.recombine_modEq hcop h0 h1 hp hq

theorem mod_n_squared_crt_eq (base exp : ℤ) :
    opt_paillier_mod_n_squared_crt base exp k.pub k.prv =
      mpz_powm base exp k.pub.n_squared := by
  unfold opt_paillier_mod_n_squared_crt
  apply k.recombine_squares
  · exact (mpz_powm_modEq _ _ _).trans ((Int.mod_modEq _ _).pow _)
  · exact (mpz_powm_modEq _ _ _).trans ((Int.mod_modEq _ _).pow _)

/-- The tables of the key are long enough for the exponents that are drawn. -/
theorem mod_n_squared_crt_fb_eq (r : Draw k.pub.lbits) :
    opt_paillier_mod_n_squared_crt_fb (r : ℕ) k.pub k.prv =
      some (mpz_powm k.pub.h_s (r : ℕ) k.pub.n_squared) := by
  have hr : ((r : ℕ) : ℤ).toNat < 2 ^ (k.lbits + 1) := by
    have h1 : (r : ℕ) < 2 ^ k.lbits := r.isLt
    have h2 : 2 ^ (k.lbits + 1) = 2 * 2 ^ k.lbits := pow_succ' 2 k.lbits
    rw [Int.toNat_natCast]
    omega
  have hP : fbpowmod_extend k.pub.fb_mod_P_sqaured (r : ℕ) =
      some (mpz_powm (k.pub.h_s % k.prv.P_squared) (r : ℕ) k.prv.P_squared) :=
    fbpowmod_extend_init k.P_squared_pos (by norm_num) hr
  have hQ : fbpowmod_extend k.pub.fb_mod_Q_sqaured (r : ℕ) =
      some (mpz_powm (k.pub.h_s % k.prv.Q_squared) (r : ℕ) k.prv.Q_squared) :=
    fbpowmod_extend_init k.Q_squared_pos (by norm_num) hr
  have hcrt := k.mod_n_squared_crt_eq k.pub.h_s (r : ℕ)
  unfold opt_paillier_mod_n_squared_crt at hcrt
  unfold opt_paillier_mod_n_squared_crt_fb
  rw [hP, hQ, ← hcrt]
  rfl

theorem encrypt_crt_eq (plaintext : ℤ) (r : Draw k.pub.lbits) :
    opt_paillier_encrypt_crt k.pub k.prv plaintext r =
      opt_paillier_encrypt k.pub plaintext r := by
  unfold opt_paillier_encrypt_crt opt_paillier_encrypt
  rw [k.mod_n_squared_crt_eq]

theorem encrypt_crt_fb_eq (plaintext : ℤ) (r : Draw k.pub.lbits) :
    opt_paillier_encrypt_crt_fb k.pub k.prv plaintext r =
      some (opt_paillier_encrypt k.pub plaintext r) := by
  unfold opt_paillier_encrypt_crt_fb opt_paillier_encrypt
  rw [k.mod_n_squared_crt_fb_eq]
  rfl

end KeyShape

/-- **The three ways to encrypt give the same ciphertext.** -/
theorem encrypt_paths_agree (k : KeyShape) (plaintext : ℤ) (r : Draw k.pub.lbits) :
    opt_paillier_encrypt_crt k.pub k.prv plaintext r =
        opt_paillier_encrypt k.pub plaintext r ∧
      opt_paillier_encrypt_crt_fb k.pub k.prv plaintext r =
        some (opt_paillier_encrypt k.pub plaintext r) :=
  ⟨k.encrypt_crt_eq plaintext r, k.encrypt_crt_fb_eq plaintext r⟩

/-- The functions that encrypt. -/
inductive EncryptPath where
  | plain
  | crt
  | crt_fb
  deriving DecidableEq, Repr

def EncryptPath.encrypt (path : EncryptPath) (pub : PublicKey) (prv : SecretKey) (plaintext : ℤ)
    (r : Draw pub.lbits) : Option ℤ :=
  match path with
  | .plain => some (opt_paillier_encrypt pub plaintext r)
  | .crt => some (opt_paillier_encrypt_crt pub prv plaintext r)
  | .crt_fb => opt_paillier_encrypt_crt_fb pub prv plaintext r

theorem EncryptPath.encrypt_eq (path : EncryptPath) (k : KeyShape) (plaintext : ℤ)
    (r : Draw k.pub.lbits) :
    path.encrypt k.pub k.prv plaintext r = some (opt_paillier_encrypt k.pub plaintext r) := by
  cases path with
  | plain => rfl
  | crt => exact congrArg some (k.encrypt_crt_eq plaintext r)
  | crt_fb => exact k.encrypt_crt_fb_eq plaintext r

theorem encrypts_encrypt (k : KeyShape) (plaintext : ℤ) (r : Draw k.pub.lbits) :
    Encrypts k plaintext (opt_paillier_encrypt k.pub plaintext r) := by
  refine ⟨r, ?_⟩
  unfold opt_paillier_encrypt
  rw [← k.pub_n_squared, ← k.pub_n]
  have hpow := mpz_powm_modEq k.pub.h_s ((r : ℕ) : ℤ) k.pub.n_squared
  rw [Int.toNat_natCast] at hpow
  exact (Int.mod_modEq _ _).trans (hpow.mul_left _)

/-! ## Decryption -/

theorem decrypt_of_encrypts {k : KeyShape} {m c : ℤ} (h : Encrypts k m c) :
    opt_paillier_decrypt k.pub k.prv c = m % k.n := by
  obtain ⟨r, hc⟩ := h
  have halpha : k.prv.double_alpha = ((k.p * k.q * 2 : ℕ) : ℤ) := by
    show (k.p : ℤ) * k.q * 2 = _
    push_cast
    rfl
  have hinv : k.prv.double_alpha_inverse =
      Residue.invert (1 * ((k.p * k.q * 2 : ℕ) : ℤ)) k.n := by
    show Residue.invert k.prv.double_alpha k.pub.n = _
    rw [halpha, one_mul, k.pub_n]
  have hcop : IsCoprime (1 * ((k.p * k.q * 2 : ℕ) : ℤ)) (k.n : ℤ) := by
    have hp := k.isCoprime_double_P.1.mul_right k.isCoprime_double_Q.1
    have hq := k.isCoprime_double_P.2.mul_right k.isCoprime_double_Q.2
    rw [← Nat.cast_mul] at hp hq
    have hsplit : 1 * ((k.p * k.q * 2 : ℕ) : ℤ) = k.p * (k.q * 2) := by
      push_cast
      ring
    rw [hsplit]
    exact hp.of_mul_left_left.mul_left hq
  have hc' : c ≡ (m * (1 * k.n) + 1) * k.pub.h_s ^ r [ZMOD (k.n : ℤ) * k.n] := by
    rwa [one_mul]
  unfold opt_paillier_decrypt mpz_powm
  simp only
  rw [k.pub_n_squared, k.pub_n, hinv, halpha, Int.toNat_natCast]
  exact log_mul_invert k.one_lt_n hc' k.h_s_pow_double_alpha hcop

/-- One half of `opt_paillier_decrypt_crt`. -/
theorem half_decrypt {k : KeyShape} {m c : ℤ} {r N e u : ℕ} (hn : k.n = u * N) (hN : 1 < N)
    (hc : c ≡ (m * k.n + 1) * k.pub.h_s ^ r [ZMOD (k.n : ℤ) * k.n])
    (hh : k.pub.h_s ^ e ≡ 1 [ZMOD (N : ℤ) * N]) (hcop : IsCoprime ((u : ℤ) * (e : ℤ)) N) :
    (mpz_powm (c % ((N : ℤ) * N)) e ((N : ℤ) * N) - 1) / N *
      Residue.invert (u * e) N % N = m % N := by
  have hdvd : (N : ℤ) * N ∣ (k.n : ℤ) * k.n := by
    have h : (N : ℤ) ∣ k.n := ⟨u, by rw [hn, Nat.cast_mul, mul_comm]⟩
    exact mul_dvd_mul h h
  have hc' : c ≡ (m * (u * N) + 1) * k.pub.h_s ^ r [ZMOD (N : ℤ) * N] := by
    have h := hc.of_dvd hdvd
    rwa [hn, Nat.cast_mul] at h
  have hpow : mpz_powm (c % ((N : ℤ) * N)) e ((N : ℤ) * N) = c ^ e % ((N : ℤ) * N) := by
    unfold mpz_powm
    rw [Int.toNat_natCast]
    exact (Int.mod_modEq _ _).pow e
  rw [hpow]
  exact log_mul_invert hN hc' hh hcop

theorem decrypt_crt_of_encrypts {k : KeyShape} {m c : ℤ} (h : Encrypts k m c) :
    opt_paillier_decrypt_crt k.pub k.prv c = m % k.n := by
  obtain ⟨r, hc⟩ := h
  have hPQ : IsCoprime (k.P : ℤ) (k.Q : ℤ) := Nat.isCoprime_iff_coprime.mpr k.coprime_P_Q
  have hp : k.prv.double_p = ((k.p * 2 : ℕ) : ℤ) := by
    show (k.p : ℤ) * 2 = _
    push_cast
    rfl
  have hq : k.prv.double_q = ((k.q * 2 : ℕ) : ℤ) := by
    show (k.q : ℤ) * 2 = _
    push_cast
    rfl
  have hinvP : k.prv.Q_mul_double_p_inverse =
      Residue.invert ((k.Q : ℤ) * ((k.p * 2 : ℕ) : ℤ)) k.P := by
    show Residue.invert (k.prv.Q * k.prv.double_p) k.prv.P = _
    rw [hp, k.prv_P, k.prv_Q]
  have hinvQ : k.prv.P_mul_double_q_inverse =
      Residue.invert ((k.P : ℤ) * ((k.q * 2 : ℕ) : ℤ)) k.Q := by
    show Residue.invert (k.prv.P * k.prv.double_q) k.prv.Q = _
    rw [hq, k.prv_P, k.prv_Q]
  have hcopP : IsCoprime ((k.Q : ℤ) * ((k.p * 2 : ℕ) : ℤ)) (k.P : ℤ) := by
    have h := hPQ.symm.mul_left k.isCoprime_double_P.1
    exact_mod_cast h
  have hcopQ : IsCoprime ((k.P : ℤ) * ((k.q * 2 : ℕ) : ℤ)) (k.Q : ℤ) := by
    have h := hPQ.mul_left k.isCoprime_double_Q.2
    exact_mod_cast h
  have hn : k.n = k.Q * k.P := mul_comm _ _
  have hcp := half_decrypt hn k.one_lt_P hc
    k.h_s_pow_double_p hcopP
  have hcq := half_decrypt rfl k.one_lt_Q hc k.h_s_pow_double_q hcopQ
  obtain ⟨h0, h1⟩ := Residue.mul_invert_modEq hPQ
  have hinv : k.prv.P_mul_P_inverse = k.P * Residue.invert k.P k.Q := by
    show Residue.invert k.prv.P k.prv.Q * k.prv.P = _
    rw [k.prv_P, k.prv_Q, mul_comm]
  unfold opt_paillier_decrypt_crt
  simp only
  rw [k.prv_P_squared, k.prv_Q_squared, hp, hq, hinvP, hinvQ, k.prv_P, k.prv_Q, hcp, hcq, hinv,
    k.pub_n, KeyShape.n, Nat.cast_mul]
  exact Residue.recombine_modEq hPQ h0 h1 (Int.mod_modEq _ _) (Int.mod_modEq _ _)

/-- **Both ways to decrypt undo all three ways to encrypt.** -/
theorem decrypt_encrypt (k : KeyShape) (path : EncryptPath) (m : ℤ) (hm : 0 ≤ m ∧ m < k.pub.n)
    (r : Draw k.pub.lbits) :
    ∃ c, path.encrypt k.pub k.prv m r = some c ∧ opt_paillier_decrypt k.pub k.prv c = m ∧
      opt_paillier_decrypt_crt k.pub k.prv c = m := by
  have h := encrypts_encrypt k m r
  rw [k.pub_n] at hm
  have hmod : m % k.n = m := Int.emod_eq_of_lt hm.1 hm.2
  refine ⟨_, path.encrypt_eq k m r, ?_, ?_⟩
  · rw [decrypt_of_encrypts h, hmod]
  · rw [decrypt_crt_of_encrypts h, hmod]

/-- A key with small numbers: `n = 67 * 131`. -/
def smallKey : KeyShape where
  nbits := 10
  lbits := 2
  p := 3
  q := 5
  p_ := 11
  q_ := 13
  y := 2
  p_prime := by norm_num
  q_prime := by norm_num
  p__prime := by norm_num
  q__prime := by norm_num
  p_bits := by norm_num
  q_bits := by norm_num
  p__bits := by norm_num
  q__bits := by norm_num
  p_ne_q := by norm_num
  p__ne_q_ := by norm_num
  p_lt_q_ := by norm_num
  q_lt_p_ := by norm_num
  P_prime := by norm_num
  Q_prime := by norm_num
  y_lt := by norm_num
  y_coprime := by norm_num

theorem smallKey_n : smallKey.pub.n = 8777 := by decide

theorem decrypt_encrypt_smallKey :
    ∃ c, EncryptPath.crt_fb.encrypt smallKey.pub smallKey.prv 8776 (3 : Fin 4) = some c ∧
      opt_paillier_decrypt smallKey.pub smallKey.prv c = 8776 ∧
      opt_paillier_decrypt_crt smallKey.pub smallKey.prv c = 8776 :=
  decrypt_encrypt smallKey .crt_fb 8776 (by rw [smallKey_n]; norm_num) (3 : Fin 4)

end Fediux.Paillier
