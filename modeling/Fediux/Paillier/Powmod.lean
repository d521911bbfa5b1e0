import Fediux.Basic.Residue
import Fediux.Basic.FixedBase

set_option autoImplicit false

/-! # Powers with a fixed base

The tables of `algorithm/opt_paillier/src/powmod.cc` and the powers computed from them. Numbers
of the type `mpz_t` are integers.
-/

namespace Fediux.Paillier

/-- `mpz_powm` with a non-negative exponent. -/
def mpz_powm (base exp mod : ℤ) : ℤ := base ^ exp.toNat % mod

/-- `fb_instance`. -/
structure FbInstance where
  m_mod : ℤ
  m_table_G : List ℤ
  m_h : ℕ
  m_t : ℕ
  m_w : ℕ
  deriving DecidableEq

def fbpowmod_init_extend (base mod : ℤ) (maxbits winsize : ℕ) : FbInstance :=
  let m_h := 2 ^ winsize
  let m_t := (maxbits - 1) / winsize + 1
  { m_mod := mod, m_h := m_h, m_t := m_t, m_w := winsize
    m_table_G := (List.range (m_t + 1)).map fun i => mpz_powm base ((m_h ^ i : ℕ) : ℤ) mod }

/-- The inner loop: multiply by the table entries whose window of the exponent is `j`. -/
def fbRow (mod : ℤ) (j : ℕ) (windows : List (ℕ × ℤ)) (temp : ℤ) : ℤ :=
  windows.foldl (fun temp p => if p.1 = j then temp * p.2 % mod else temp) temp

/-- The outer loop from `j` down to one. -/
def fbLoop (mod : ℤ) (windows : List (ℕ × ℤ)) : ℕ → ℤ → ℤ → ℤ
  | 0, _, result => result
  | j + 1, temp, result =>
      let temp := fbRow mod (j + 1) windows temp
      fbLoop mod windows j temp (result * temp % mod)

/-- `fbpowmod_extend`. The windows of the exponent are its digits to the base `m_h`; the array
`m_e` has room for `m_t + 1` of them, an exponent with more is written past its end (`none`). -/
def fbpowmod_extend (fb_ins : FbInstance) (exp : ℤ) : Option ℤ :=
  let m_e := Nat.digits fb_ins.m_h exp.toNat
  if m_e.length ≤ fb_ins.m_t + 1 then
    some (fbLoop fb_ins.m_mod (m_e.zip fb_ins.m_table_G) (fb_ins.m_h - 1) 1 1)
  else none

/-! ## The loops compute the power -/

theorem mpz_powm_modEq (base exp mod : ℤ) :
    mpz_powm base exp mod ≡ base ^ exp.toNat [ZMOD mod] := Int.mod_modEq _ _

theorem mpz_powm_range (base exp : ℤ) {mod : ℤ} (hmod : 0 < mod) :
    0 ≤ mpz_powm base exp mod ∧ mpz_powm base exp mod < mod :=
  ⟨Int.emod_nonneg _ hmod.ne', Int.emod_lt_of_pos _ hmod⟩

theorem fbRow_modEq (mod : ℤ) (j : ℕ) (windows : List (ℕ × ℤ)) (temp : ℤ) :
    fbRow mod j windows temp ≡ temp * FixedBase.atDigit windows j [ZMOD mod] := by
  induction windows generalizing temp with
  | nil =>
      show temp ≡ temp * 1 [ZMOD mod]
      rw [mul_one]
  | cons p windows ih =>
      unfold fbRow FixedBase.atDigit at ih ⊢
      rw [List.foldl_cons, List.map_cons, List.prod_cons]
      by_cases h : p.1 = j
      · rw [if_pos h, if_pos h, ← mul_assoc]
        exact (ih _).trans ((Int.mod_modEq _ _).mul_right _)
      · rw [if_neg h, if_neg h, one_mul]
        exact ih temp

theorem fbLoop_modEq (mod : ℤ) (windows : List (ℕ × ℤ)) (j : ℕ) {temp temp' result result' : ℤ}
    (ht : temp ≡ temp' [ZMOD mod]) (hr : result ≡ result' [ZMOD mod]) :
    fbLoop mod windows j temp result ≡ FixedBase.sweep windows j temp' result' [ZMOD mod] := by
  induction j generalizing temp temp' result result' with
  | zero => exact hr
  | succ j ih =>
      have hrow : fbRow mod (j + 1) windows temp ≡
          temp' * FixedBase.atDigit windows (j + 1) [ZMOD mod] :=
        (fbRow_modEq mod (j + 1) windows temp).trans (ht.mul_right _)
      unfold fbLoop FixedBase.sweep
      exact ih hrow ((Int.mod_modEq _ _).trans (hr.mul hrow))

theorem fbLoop_range {mod : ℤ} (hmod : 0 < mod) (windows : List (ℕ × ℤ)) (j : ℕ)
    (temp : ℤ) {result : ℤ} (hj : 0 < j ∨ (0 ≤ result ∧ result < mod)) :
    0 ≤ fbLoop mod windows j temp result ∧ fbLoop mod windows j temp result < mod := by
  induction j generalizing temp result with
  | zero =>
      rcases hj with hj | hj
      · omega
      · exact hj
  | succ j ih =>
      unfold fbLoop
      exact ih _ (Or.inr ⟨Int.emod_nonneg _ hmod.ne', Int.emod_lt_of_pos _ hmod⟩)

/-- The table holds the powers of the base, up to the modulus. -/
theorem prod_table_modEq (base mod : ℤ) (h : ℕ) (digits : List ℕ) (i k : ℕ)
    (hlen : i + digits.length ≤ k) :
    (((digits.zip (((List.range k).map fun i => mpz_powm base ((h ^ i : ℕ) : ℤ) mod).drop i)).map
      fun p => p.2 ^ p.1).prod) ≡
      (((digits.zipIdx i).map fun p => (base ^ h ^ p.2) ^ p.1).prod) [ZMOD mod] := by
  induction digits generalizing i with
  | nil => rfl
  | cons d digits ih =>
      rw [List.length_cons] at hlen
      have hlt : i < ((List.range k).map fun i => mpz_powm base ((h ^ i : ℕ) : ℤ) mod).length := by
        rw [List.length_map, List.length_range]
        omega
      rw [List.drop_eq_getElem_cons hlt, List.zip_cons_cons, List.map_cons, List.prod_cons,
        List.zipIdx_cons, List.map_cons, List.prod_cons, List.getElem_map, List.getElem_range]
      refine Int.ModEq.mul (Int.ModEq.pow d ?_) (ih (i + 1) (by omega))
      have hentry := mpz_powm_modEq base ((h ^ i : ℕ) : ℤ) mod
      rwa [Int.toNat_natCast] at hentry

/-- An exponent below `2 ^ maxbits` has no more windows than the table has entries. -/
theorem length_windows_le {exp maxbits winsize : ℕ} (hw : 0 < winsize)
    (hexp : exp < 2 ^ maxbits) :
    (Nat.digits (2 ^ winsize) exp).length ≤ (maxbits - 1) / winsize + 1 := by
  have hbase : 1 < 2 ^ winsize := Nat.one_lt_two_pow hw.ne'
  rw [Nat.digits_length_le_iff hbase, ← pow_mul]
  refine lt_of_lt_of_le hexp (Nat.pow_le_pow_right (by norm_num) ?_)
  have hdiv := Nat.div_add_mod (maxbits - 1) winsize
  have hlt := Nat.mod_lt (maxbits - 1) hw
  rw [Nat.mul_add]
  omega

/-- **Powers from the table are the powers.** -/
theorem fbpowmod_extend_init {base mod exp : ℤ} {maxbits winsize : ℕ} (hmod : 0 < mod)
    (hw : 0 < winsize) (hexp : exp.toNat < 2 ^ maxbits) :
    fbpowmod_extend (fbpowmod_init_extend base mod maxbits winsize) exp =
      some (mpz_powm base exp mod) := by
  have hlen := length_windows_le hw hexp
  have hbase : 1 < 2 ^ winsize := Nat.one_lt_two_pow hw.ne'
  unfold fbpowmod_extend fbpowmod_init_extend
  simp only
  rw [if_pos (by omega)]
  congr 1
  set digits := Nat.digits (2 ^ winsize) exp.toNat with hdigits
  set table := (List.range ((maxbits - 1) / winsize + 1 + 1)).map
    fun i => mpz_powm base (((2 ^ winsize) ^ i : ℕ) : ℤ) mod with htable
  have hdigit : ∀ p ∈ digits.zip table, p.1 ≤ 2 ^ winsize - 1 := by
    intro p hp
    have := Nat.digits_lt_base hbase (List.of_mem_zip hp).1
    omega
  apply Residue.eq_of_modEq
  · calc fbLoop mod (digits.zip table) (2 ^ winsize - 1) 1 1
        ≡ FixedBase.sweep (digits.zip table) (2 ^ winsize - 1) 1 1 [ZMOD mod] :=
          fbLoop_modEq _ _ _ rfl rfl
      _ = ((digits.zip table).map fun p => p.2 ^ p.1).prod := FixedBase.sweep_one hdigit
      _ ≡ ((digits.zipIdx 0).map fun p => (base ^ (2 ^ winsize) ^ p.2) ^ p.1).prod [ZMOD mod] :=
          prod_table_modEq base mod (2 ^ winsize) digits 0 _ (by omega)
      _ = base ^ exp.toNat := by
          rw [FixedBase.prod_powers, pow_zero, one_mul, hdigits, Nat.ofDigits_digits]
      _ ≡ mpz_powm base exp mod [ZMOD mod] := (mpz_powm_modEq base exp mod).symm
  · exact fbLoop_range hmod _ _ _ (Or.inl (by omega))
  · exact mpz_powm_range base exp hmod

end Fediux.Paillier
