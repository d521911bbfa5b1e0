import Fediux.Paillier.Correctness

set_option autoImplicit false

/-! # Signed plaintexts

`opt_paillier_set_plaintext` folds an integer into `[0, n)`, `opt_paillier_get_plaintext` unfolds
it at `half_n`; sums and multiples are computed on ciphertexts. The number `half_n` itself is
unfolded to the wrong side: `get_plaintext_homomorphic` says that no other number is.
-/

namespace Fediux.Paillier

/-! ## The functions -/

def opt_paillier_set_plaintext (plaintext : ℤ) (pub : PublicKey) : ℤ :=
  if plaintext < 0 then (plaintext + pub.n) % pub.n else plaintext

def opt_paillier_get_plaintext (mpz_plaintext : ℤ) (pub : PublicKey) : ℤ :=
  if mpz_plaintext ≥ pub.half_n then mpz_plaintext - pub.n else mpz_plaintext

def opt_paillier_add (op1 op2 : ℤ) (pub : PublicKey) : ℤ := op1 * op2 % pub.n_squared

def opt_paillier_constant_mul (op1 op2 : ℤ) (pub : PublicKey) : ℤ :=
  mpz_powm op1 op2 pub.n_squared

/-- The functions that decrypt. -/
inductive DecryptPath where
  | plain
  | crt
  deriving DecidableEq, Repr

def DecryptPath.decrypt (path : DecryptPath) (pub : PublicKey) (prv : SecretKey)
    (ciphertext : ℤ) : ℤ :=
  match path with
  | .plain => opt_paillier_decrypt pub prv ciphertext
  | .crt => opt_paillier_decrypt_crt pub prv ciphertext

theorem DecryptPath.decrypt_of_encrypts (path : DecryptPath) {k : KeyShape} {m c : ℤ}
    (h : Encrypts k m c) : path.decrypt k.pub k.prv c = m % k.n := by
  cases path with
  | plain => exact Paillier.decrypt_of_encrypts h
  | crt => exact decrypt_crt_of_encrypts h

/-! ## What the operations encrypt -/

section Operations

variable {k : KeyShape} {m m' c c' : ℤ}

theorem encrypts_add (h : Encrypts k m c) (h' : Encrypts k m' c') :
    Encrypts k (m + m') (opt_paillier_add c c' k.pub) := by
  obtain ⟨r, hr⟩ := h
  obtain ⟨r', hr'⟩ := h'
  refine ⟨r + r', ?_⟩
  unfold opt_paillier_add
  rw [k.pub_n_squared]
  have hcross : (m * k.n + 1) * (m' * k.n + 1) ≡ (m + m') * k.n + 1 [ZMOD (k.n : ℤ) * k.n] := by
    rw [Int.modEq_iff_dvd]
    exact ⟨-(m * m'), by ring⟩
  calc c * c' % ((k.n : ℤ) * k.n) ≡ c * c' [ZMOD (k.n : ℤ) * k.n] := Int.mod_modEq _ _
    _ ≡ (m * k.n + 1) * k.pub.h_s ^ r * ((m' * k.n + 1) * k.pub.h_s ^ r')
          [ZMOD (k.n : ℤ) * k.n] := hr.mul hr'
    _ = (m * k.n + 1) * (m' * k.n + 1) * k.pub.h_s ^ (r + r') := by
        rw [pow_add]
        ring
    _ ≡ ((m + m') * k.n + 1) * k.pub.h_s ^ (r + r') [ZMOD (k.n : ℤ) * k.n] := hcross.mul_right _

theorem encrypts_constant_mul (h : Encrypts k m c) {e : ℤ} (he : 0 ≤ e) :
    Encrypts k (m * e) (opt_paillier_constant_mul c e k.pub) := by
  obtain ⟨r, hr⟩ := h
  refine ⟨r * e.toNat, ?_⟩
  have hpow := Residue.one_add_mul_pow m k.n e.toNat
  rw [Int.toNat_of_nonneg he] at hpow
  have hc := mpz_powm_modEq c e k.pub.n_squared
  rw [k.pub_n_squared] at hc
  unfold opt_paillier_constant_mul
  rw [k.pub_n_squared]
  calc mpz_powm c e ((k.n : ℤ) * k.n) ≡ c ^ e.toNat [ZMOD (k.n : ℤ) * k.n] := hc
    _ ≡ ((m * k.n + 1) * k.pub.h_s ^ r) ^ e.toNat [ZMOD (k.n : ℤ) * k.n] := hr.pow _
    _ = (1 + m * k.n) ^ e.toNat * k.pub.h_s ^ (r * e.toNat) := by
        rw [mul_pow, ← pow_mul, add_comm]
    _ ≡ (1 + m * e * k.n) * k.pub.h_s ^ (r * e.toNat) [ZMOD (k.n : ℤ) * k.n] :=
        hpow.mul_right _
    _ = (m * e * k.n + 1) * k.pub.h_s ^ (r * e.toNat) := by rw [add_comm]

theorem set_plaintext_modEq (k : KeyShape) (x : ℤ) :
    opt_paillier_set_plaintext x k.pub ≡ x [ZMOD k.n] := by
  unfold opt_paillier_set_plaintext
  rw [k.pub_n]
  split_ifs
  · exact (Int.mod_modEq _ _).trans (Int.add_modEq_right)
  · rfl

theorem set_plaintext_nonneg (k : KeyShape) (x : ℤ) :
    0 ≤ opt_paillier_set_plaintext x k.pub := by
  unfold opt_paillier_set_plaintext
  rw [k.pub_n]
  split_ifs
  · exact Int.emod_nonneg _ k.n_pos.ne'
  · omega

/-- What is read from a ciphertext of a number congruent to `z`. -/
theorem get_plaintext_decrypt_iff (path : DecryptPath) {z : ℤ} (h : Encrypts k m c)
    (hm : m ≡ z [ZMOD k.n]) (hz : |z| ≤ k.pub.half_n) :
    opt_paillier_get_plaintext (path.decrypt k.pub k.prv c) k.pub = z ↔ z ≠ k.pub.half_n := by
  have hhalf : k.pub.half_n = (k.n : ℤ) / 2 := by
    show k.pub.n / 2 = _
    rw [k.pub_n]
  have hres : path.decrypt k.pub k.prv c = z % k.n := by
    rw [path.decrypt_of_encrypts h]
    exact hm
  have hn : (1 : ℤ) < k.n := by exact_mod_cast k.one_lt_n
  rw [hhalf] at hz
  unfold opt_paillier_get_plaintext
  rw [hres, hhalf, k.pub_n]
  exact Residue.signed_emod_eq_iff hn hz

end Operations

/-! ## Sums and multiples -/

section Homomorphic

variable (k : KeyShape) (path : DecryptPath) (x y c : ℤ) (r r' : Draw k.pub.lbits)

/-- A ciphertext of the sum, as computed from ciphertexts of the summands. -/
def encryptedSum : ℤ :=
  opt_paillier_add
    (opt_paillier_encrypt k.pub (opt_paillier_set_plaintext x k.pub) r)
    (opt_paillier_encrypt k.pub (opt_paillier_set_plaintext y k.pub) r') k.pub

/-- A ciphertext of the multiple. -/
def encryptedMultiple : ℤ :=
  opt_paillier_constant_mul
    (opt_paillier_encrypt k.pub (opt_paillier_set_plaintext x k.pub) r)
    (opt_paillier_set_plaintext c k.pub) k.pub

theorem get_sum_iff (h : |x + y| ≤ k.pub.half_n) :
    opt_paillier_get_plaintext (path.decrypt k.pub k.prv (encryptedSum k x y r r')) k.pub =
      x + y ↔ x + y ≠ k.pub.half_n :=
  get_plaintext_decrypt_iff path
    (encrypts_add (encrypts_encrypt k _ r) (encrypts_encrypt k _ r'))
    ((set_plaintext_modEq k x).add (set_plaintext_modEq k y)) h

theorem get_multiple_iff (h : |c * x| ≤ k.pub.half_n) :
    opt_paillier_get_plaintext (path.decrypt k.pub k.prv (encryptedMultiple k x c r)) k.pub =
      c * x ↔ c * x ≠ k.pub.half_n := by
  have hmod : opt_paillier_set_plaintext x k.pub * opt_paillier_set_plaintext c k.pub ≡ c * x
      [ZMOD k.n] := by
    rw [mul_comm c x]
    exact (set_plaintext_modEq k x).mul (set_plaintext_modEq k c)
  exact get_plaintext_decrypt_iff path
    (encrypts_constant_mul (encrypts_encrypt k _ r) (set_plaintext_nonneg k c)) hmod h

end Homomorphic

/-- **Sums and multiples are read from their ciphertexts, except for `half_n`.** -/
theorem get_plaintext_homomorphic (k : KeyShape) (enc enc' : EncryptPath) (dec : DecryptPath)
    (x y c : ℤ) (r r' : Draw k.pub.lbits) :
    ∃ cx cy,
      enc.encrypt k.pub k.prv (opt_paillier_set_plaintext x k.pub) r = some cx ∧
      enc'.encrypt k.pub k.prv (opt_paillier_set_plaintext y k.pub) r' = some cy ∧
      (|x + y| ≤ k.pub.half_n →
        (opt_paillier_get_plaintext
          (dec.decrypt k.pub k.prv (opt_paillier_add cx cy k.pub)) k.pub = x + y ↔
            x + y ≠ k.pub.half_n)) ∧
      (|c * x| ≤ k.pub.half_n →
        (opt_paillier_get_plaintext
          (dec.decrypt k.pub k.prv
            (opt_paillier_constant_mul cx (opt_paillier_set_plaintext c k.pub) k.pub)) k.pub =
              c * x ↔ c * x ≠ k.pub.half_n)) :=
  ⟨_, _, enc.encrypt_eq k _ r, enc'.encrypt_eq k _ r', get_sum_iff k dec x y r r',
    get_multiple_iff k dec x c r⟩

theorem smallKey_half_n : smallKey.pub.half_n = 4388 := by decide

theorem get_plaintext_homomorphic_smallKey :
    ∃ cx cy,
      EncryptPath.plain.encrypt smallKey.pub smallKey.prv
        (opt_paillier_set_plaintext (-5) smallKey.pub) (1 : Fin 4) = some cx ∧
      EncryptPath.crt_fb.encrypt smallKey.pub smallKey.prv
        (opt_paillier_set_plaintext 2 smallKey.pub) (2 : Fin 4) = some cy ∧
      opt_paillier_get_plaintext
        (opt_paillier_decrypt smallKey.pub smallKey.prv (opt_paillier_add cx cy smallKey.pub))
          smallKey.pub = -5 + 2 ∧
      opt_paillier_get_plaintext
        (opt_paillier_decrypt smallKey.pub smallKey.prv
          (opt_paillier_constant_mul cx (opt_paillier_set_plaintext (-7) smallKey.pub)
            smallKey.pub)) smallKey.pub = -7 * -5 := by
  obtain ⟨cx, cy, hx, hy, hsum, hmul⟩ := get_plaintext_homomorphic smallKey .plain .crt_fb .plain
    (-5) 2 (-7) (1 : Fin 4) (2 : Fin 4)
  rw [smallKey_half_n] at hsum hmul
  exact ⟨cx, cy, hx, hy, (hsum (by norm_num)).mpr (by norm_num),
    (hmul (by norm_num)).mpr (by norm_num)⟩

/-- The sum of `half_n` and zero is not read back. -/
theorem sum_half_n_misread :
    |(4388 : ℤ)| ≤ smallKey.pub.half_n ∧ |(0 : ℤ)| ≤ smallKey.pub.half_n ∧
      |(4388 : ℤ) + 0| ≤ smallKey.pub.half_n ∧
      opt_paillier_get_plaintext
        (opt_paillier_decrypt_crt smallKey.pub smallKey.prv
          (encryptedSum smallKey 4388 0 (1 : Fin 4) (2 : Fin 4))) smallKey.pub ≠ 4388 + 0 := by
  rw [smallKey_half_n]
  refine ⟨by norm_num, by norm_num, by norm_num, ?_⟩
  intro h
  have hiff := get_sum_iff smallKey .crt 4388 0 (1 : Fin 4) (2 : Fin 4)
    (by rw [smallKey_half_n]; norm_num)
  exact hiff.mp h (by rw [smallKey_half_n]; norm_num)

end Fediux.Paillier
