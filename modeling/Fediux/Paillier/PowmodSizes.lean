import Fediux.Paillier.Powmod

set_option autoImplicit false

/-! # Powers with a fixed base: the sizes

`algorithm/opt_paillier/src/powmod.cc` with its machine integers. The number `m_h` of values of a
window is `1 << winsize`, computed as an `int` and stored as a `size_t`; the digits of the
exponent are of the type `unsigned int`. With windows of 31 bits `m_h` is negative before it is
stored, and only exponents of one window come out right (`powers_iff`).
-/

namespace Fediux.Paillier.Sizes

/-! ## The machine integers -/

/-- `1 << winsize` as an `int`; a shift by the width or more is undefined. -/
def shiftedOne (winsize : ℕ) : Option ℤ :=
  if winsize < 32 then some (Int.bmod (2 ^ winsize) (2 ^ 32)) else none

/-- The conversion to `size_t`. -/
def toSizeT (n : ℤ) : ℕ := (n % 2 ^ 64).toNat

/-- `ROUNDUP(a,b)` of two `size_t`; `none` is a division by zero. -/
def ROUNDUP (a b : ℕ) : Option ℕ :=
  if b = 0 then none else some (((a + (2 ^ 64 - 1)) % 2 ^ 64 / b + 1) % 2 ^ 64)

/-- The conversion to `unsigned int`. -/
def ui (n : ℕ) : ℕ := n % 2 ^ 32

/-- `malloc` for an array of `count` entries is left with no result for more bytes than an object
can have: it fails, or the number of bytes wraps around and the array is too short. -/
def mallocOk (size count : ℕ) : Bool := size * count < 2 ^ 63

/-! ## `fbpowmod_init_extend` -/

def fbpowmod_init_extend (base mod : ℤ) (maxbits winsize : ℕ) : Option FbInstance := do
  let m_h ← (shiftedOne winsize).map toSizeT
  let m_t ← ROUNDUP maxbits winsize
  if mallocOk 16 (m_t + 1) then
    some { m_mod := mod, m_h := m_h, m_t := m_t, m_w := winsize
           m_table_G := (List.range (m_t + 1)).map fun i =>
             mpz_powm base ((ui m_h ^ i : ℕ) : ℤ) mod }
  else none

/-- The sizes with which the initialisation returns. -/
def Accepts (maxbits winsize : ℕ) : Prop :=
  ∀ base mod, ∃ fb_ins, fbpowmod_init_extend base mod maxbits winsize = some fb_ins

/-! ## `fbpowmod_extend` -/

/-- The digits of the exponent, lowest first, until nothing is left of it. -/
def digits (m_h m_w m_exp : ℕ) : List ℕ :=
  if _h : 0 < m_exp ∧ 0 < m_w then
    ui (m_exp % m_h) :: digits m_h m_w (m_exp / 2 ^ m_w)
  else []
termination_by m_exp
decreasing_by exact Nat.div_lt_self _h.1 (Nat.one_lt_two_pow _h.2.ne')

/-- The inner loop over the digits from the index `i` on; `none` reads an entry of the table that
was not filled. -/
def inner (mod : ℤ) (table : List ℤ) (j : ℕ) : ℕ → List ℕ → ℤ → Option ℤ
  | _, [], temp => some temp
  | i, e :: m_e, temp =>
      if e = j then
        match table[i]? with
        | none => none
        | some g => inner mod table j (i + 1) m_e (temp * g % mod)
      else inner mod table j (i + 1) m_e temp

/-- The outer loop from `j` down to one. -/
def outer (mod : ℤ) (table : List ℤ) (m_e : List ℕ) : ℕ → ℤ → ℤ → Option ℤ
  | 0, _, result => some result
  | j + 1, temp, result =>
      (inner mod table (j + 1) 0 m_e temp).bind fun temp =>
        outer mod table m_e j temp (result * temp % mod)

/-- The array `m_e` has `m_t + 1` entries; `none` also writes behind its end. -/
def fbpowmod_extend (fb_ins : FbInstance) (exp : ℕ) : Option ℤ :=
  let m_e := digits fb_ins.m_h fb_ins.m_w exp
  if m_e.length ≤ fb_ins.m_t + 1 then
    outer fb_ins.m_mod fb_ins.m_table_G m_e (fb_ins.m_h - 1) 1 1
  else none

/-- With these sizes every power of an exponent of at most `maxbits` bits is computed, from
entries of the table that were filled. -/
def Powers (maxbits winsize : ℕ) : Prop :=
  ∀ (base mod : ℤ) (exp : ℕ), 1 < mod → exp < 2 ^ maxbits →
    ∃ fb_ins, fbpowmod_init_extend base mod maxbits winsize = some fb_ins ∧
      fbpowmod_extend fb_ins exp = some (base ^ exp % mod)

/-! ## The loops -/

theorem inner_eq {mod : ℤ} {table : List ℤ} {j i : ℕ} {m_e : List ℕ}
    (hlen : i + m_e.length ≤ table.length) (temp : ℤ) :
    inner mod table j i m_e temp = some (fbRow mod j (m_e.zip (table.drop i)) temp) := by
  induction m_e generalizing i temp with
  | nil => rfl
  | cons e m_e ih =>
      rw [List.length_cons] at hlen
      have hlt : i < table.length := by omega
      have hrest : i + 1 + m_e.length ≤ table.length := by omega
      rw [inner, List.getElem?_eq_getElem hlt, List.drop_eq_getElem_cons hlt, List.zip_cons_cons,
        fbRow, List.foldl_cons]
      dsimp only
      split_ifs with he
      · exact ih hrest _
      · exact ih hrest _

theorem outer_eq {mod : ℤ} {table : List ℤ} {m_e : List ℕ} (hlen : m_e.length ≤ table.length)
    (j : ℕ) (temp result : ℤ) :
    outer mod table m_e j temp result = some (fbLoop mod (m_e.zip table) j temp result) := by
  induction j generalizing temp result with
  | zero => rfl
  | succ j ih =>
      rw [outer, inner_eq (by omega), List.drop_zero, Option.bind_some, ih, fbLoop]

theorem length_digits {m_w : ℕ} (hw : 0 < m_w) (m_h m_exp : ℕ) :
    (digits m_h m_w m_exp).length = (Nat.digits (2 ^ m_w) m_exp).length := by
  have hbase : 1 < 2 ^ m_w := Nat.one_lt_two_pow hw.ne'
  induction m_exp using Nat.strong_induction_on with
  | _ m_exp ih =>
      rcases Nat.eq_zero_or_pos m_exp with rfl | hpos
      · rw [digits, dif_neg (by omega), Nat.digits_zero]
      · rw [digits, dif_pos ⟨hpos, hw⟩, Nat.digits_def' hbase hpos, List.length_cons,
          List.length_cons, ih _ (Nat.div_lt_self hpos hbase)]

/-- A digit below `2 ^ 32` and `m_h` is a value of the outer loop. -/
theorem le_of_mem_digits {m_h m_w m_exp e : ℕ} (hh : 0 < m_h) (he : e ∈ digits m_h m_w m_exp) :
    e ≤ m_h - 1 := by
  induction m_exp using Nat.strong_induction_on with
  | _ m_exp ih =>
      rw [digits] at he
      split_ifs at he with h
      · rcases List.mem_cons.mp he with rfl | he
        · have hlt := Nat.mod_lt m_exp hh
          have hle := Nat.mod_le (m_exp % m_h) (2 ^ 32)
          rw [ui]
          omega
        · exact ih _ (Nat.div_lt_self h.1 (Nat.one_lt_two_pow h.2.ne')) he
      · cases he

/-! ## The sizes -/

theorem m_h_of_le {winsize : ℕ} (h : winsize ≤ 30) :
    toSizeT (Int.bmod (2 ^ winsize) (2 ^ 32)) = 2 ^ winsize := by
  have hle : (2 : ℤ) ^ winsize ≤ 2 ^ 30 := pow_le_pow_right₀ (by norm_num) h
  have hpos : (0 : ℤ) < 2 ^ winsize := by positivity
  have hbmod : Int.bmod (2 ^ winsize) (2 ^ 32) = 2 ^ winsize := by
    rw [Int.bmod_eq_of_le] <;> push_cast <;> omega
  rw [hbmod, toSizeT, Int.emod_eq_of_lt hpos.le (by omega)]
  exact Int.toNat_pow_of_nonneg (by norm_num) winsize

theorem m_h_31 : toSizeT (Int.bmod (2 ^ 31) (2 ^ 32)) = 2 ^ 64 - 2 ^ 31 := by decide

/-- What the initialisation fills in. -/
structure Filled (base mod : ℤ) (maxbits winsize : ℕ) (fb_ins : FbInstance) : Prop where
  winsize_pos : 0 < winsize
  winsize_lt : winsize < 32
  m_mod : fb_ins.m_mod = mod
  m_w : fb_ins.m_w = winsize
  m_h : fb_ins.m_h = toSizeT (Int.bmod (2 ^ winsize) (2 ^ 32))
  m_t : fb_ins.m_t = ((maxbits + (2 ^ 64 - 1)) % 2 ^ 64 / winsize + 1) % 2 ^ 64
  m_table_G : fb_ins.m_table_G = (List.range (fb_ins.m_t + 1)).map fun i =>
    mpz_powm base ((ui fb_ins.m_h ^ i : ℕ) : ℤ) mod

theorem filled {base mod : ℤ} {maxbits winsize : ℕ} {fb_ins : FbInstance}
    (h : fbpowmod_init_extend base mod maxbits winsize = some fb_ins) :
    Filled base mod maxbits winsize fb_ins := by
  obtain ⟨m_h, hshift, h⟩ := Option.bind_eq_some_iff.mp h
  obtain ⟨m_t, hround, h⟩ := Option.bind_eq_some_iff.mp h
  rw [shiftedOne] at hshift
  rw [ROUNDUP] at hround
  split_ifs at hshift hround h with hlt hzero hok
  · rw [Option.map_some, Option.some_inj] at hshift
    obtain rfl := Option.some.inj hround
    obtain rfl := Option.some.inj h
    exact ⟨Nat.pos_of_ne_zero hzero, hlt, rfl, rfl, hshift.symm, rfl, rfl⟩
  · cases hshift

namespace Filled

variable {base mod : ℤ} {maxbits winsize : ℕ} {fb_ins : FbInstance}

/-- The table is made with windows of `winsize` bits in any case. -/
theorem ui_m_h (h : Filled base mod maxbits winsize fb_ins) : ui fb_ins.m_h = 2 ^ winsize := by
  rw [h.m_h]
  have hlt := h.winsize_lt
  rcases (by omega : winsize ≤ 30 ∨ winsize = 31) with hle | rfl
  · rw [m_h_of_le hle, ui]
    exact Nat.mod_eq_of_lt (Nat.pow_lt_pow_right (by norm_num) (by omega))
  · rw [m_h_31]
    decide

theorem m_h_pos (h : Filled base mod maxbits winsize fb_ins) : 0 < fb_ins.m_h := by
  have hpos : 0 < ui fb_ins.m_h := by
    rw [h.ui_m_h]
    positivity
  exact lt_of_lt_of_le hpos (Nat.mod_le _ _)

/-- The number of windows, where `maxbits - 1` does not wrap around. -/
theorem m_t_eq (h : Filled base mod maxbits winsize fb_ins) (hmax : maxbits < 2 ^ 64)
    (hpos : 0 < maxbits) : fb_ins.m_t = (maxbits - 1) / winsize + 1 := by
  have hsub : (maxbits + (2 ^ 64 - 1)) % 2 ^ 64 = maxbits - 1 := by
    rw [show maxbits + (2 ^ 64 - 1) = maxbits - 1 + 2 ^ 64 by omega, Nat.add_mod_right,
      Nat.mod_eq_of_lt (by omega)]
  have hdiv := Nat.div_le_self (maxbits - 1) winsize
  rw [h.m_t, hsub, Nat.mod_eq_of_lt (by omega)]

/-- The array and the table have room for the digits. -/
theorem length_digits_le (h : Filled base mod maxbits winsize fb_ins) (hmax : maxbits < 2 ^ 64)
    {exp : ℕ} (hexp : exp < 2 ^ maxbits) :
    (digits fb_ins.m_h fb_ins.m_w exp).length ≤ fb_ins.m_t + 1 := by
  rw [length_digits (h.m_w ▸ h.winsize_pos), h.m_w]
  rcases Nat.eq_zero_or_pos maxbits with rfl | hpos
  · obtain rfl : exp = 0 := by simpa using hexp
    simp
  · have hlen := length_windows_le h.winsize_pos hexp
    rw [h.m_t_eq hmax hpos]
    omega

/-- **The loops** compute the power of the number that the digits stand for in windows of
`winsize` bits. -/
theorem extend_eq (h : Filled base mod maxbits winsize fb_ins) (hmax : maxbits < 2 ^ 64)
    (hmod : 1 < mod) {exp : ℕ} (hexp : exp < 2 ^ maxbits) (hh : 1 < fb_ins.m_h) :
    fbpowmod_extend fb_ins exp =
      some (base ^ Nat.ofDigits (2 ^ winsize) (digits fb_ins.m_h winsize exp) % mod) := by
  have hlen := h.length_digits_le hmax hexp
  rw [h.m_w] at hlen
  have htable := h.m_table_G
  rw [h.ui_m_h] at htable
  have hroom : (digits fb_ins.m_h winsize exp).length ≤ fb_ins.m_table_G.length := by
    rw [htable, List.length_map, List.length_range]
    exact hlen
  rw [fbpowmod_extend, h.m_w]
  rw [if_pos hlen, outer_eq hroom, h.m_mod, Option.some_inj]
  set m_e := digits fb_ins.m_h winsize exp with hm_e
  have hdigit : ∀ p ∈ m_e.zip fb_ins.m_table_G, p.1 ≤ fb_ins.m_h - 1 := by
    intro p hp
    exact le_of_mem_digits h.m_h_pos (List.of_mem_zip hp).1
  have hmod' : 0 < mod := by omega
  apply Residue.eq_of_modEq
  · calc fbLoop mod (m_e.zip fb_ins.m_table_G) (fb_ins.m_h - 1) 1 1
        ≡ FixedBase.sweep (m_e.zip fb_ins.m_table_G) (fb_ins.m_h - 1) 1 1 [ZMOD mod] :=
          fbLoop_modEq _ _ _ rfl rfl
      _ = ((m_e.zip fb_ins.m_table_G).map fun p => p.2 ^ p.1).prod := FixedBase.sweep_one hdigit
      _ ≡ ((m_e.zipIdx 0).map fun p => (base ^ (2 ^ winsize) ^ p.2) ^ p.1).prod [ZMOD mod] := by
          rw [htable]
          exact prod_table_modEq base mod (2 ^ winsize) m_e 0 _ (by omega)
      _ = base ^ Nat.ofDigits (2 ^ winsize) m_e := by
          rw [FixedBase.prod_powers, pow_zero, one_mul]
      _ ≡ base ^ Nat.ofDigits (2 ^ winsize) m_e % mod [ZMOD mod] := (Int.mod_modEq _ _).symm
  · exact fbLoop_range hmod' _ _ _ (Or.inl (by omega))
  · exact ⟨Int.emod_nonneg _ hmod'.ne', Int.emod_lt_of_pos _ hmod'⟩

end Filled

/-! ## Which exponents come out right -/

/-- With windows of at most 30 bits the digits are those of the exponent. -/
theorem digits_of_le {winsize : ℕ} (hpos : 0 < winsize) (hle : winsize ≤ 30) (exp : ℕ) :
    digits (2 ^ winsize) winsize exp = Nat.digits (2 ^ winsize) exp := by
  have hbase : 1 < 2 ^ winsize := Nat.one_lt_two_pow hpos.ne'
  have hfit : 2 ^ winsize ≤ 2 ^ 32 := Nat.pow_le_pow_right (by norm_num) (by omega)
  induction exp using Nat.strong_induction_on with
  | _ exp ih =>
      rcases Nat.eq_zero_or_pos exp with rfl | hexp
      · rw [digits, dif_neg (by omega), Nat.digits_zero]
      · have hlt := Nat.mod_lt exp (Nat.zero_lt_of_lt hbase)
        rw [digits, dif_pos ⟨hexp, hpos⟩, Nat.digits_def' hbase hexp, ui,
          Nat.mod_eq_of_lt (lt_of_lt_of_le hlt hfit), ih _ (Nat.div_lt_self hexp hbase)]

/-- With windows of 31 bits a digit is cut to 32 bits, not to 31. -/
theorem digits_31 (exp : ℕ) :
    digits (2 ^ 64 - 2 ^ 31) 31 exp =
      if 0 < exp then
        exp % (2 ^ 64 - 2 ^ 31) % 2 ^ 32 :: digits (2 ^ 64 - 2 ^ 31) 31 (exp / 2 ^ 31)
      else [] := by
  rw [digits, ui]
  split_ifs with h hexp hexp
  · rfl
  · omega
  · omega
  · rfl

theorem digits_31_of_lt {exp : ℕ} (hexp : exp < 2 ^ 31) :
    Nat.ofDigits (2 ^ 31) (digits (2 ^ 64 - 2 ^ 31) 31 exp) = exp := by
  rw [digits_31]
  split_ifs with hpos
  · rw [Nat.div_eq_of_lt hexp, digits_31, if_neg (by omega), Nat.ofDigits_singleton]
    omega
  · rw [Nat.ofDigits_nil]
    omega

/-- The exponent `2 ^ 31` is taken for its double. -/
theorem digits_31_pow : Nat.ofDigits (2 ^ 31) (digits (2 ^ 64 - 2 ^ 31) 31 (2 ^ 31)) = 2 ^ 32 := by
  rw [digits_31, if_pos (by norm_num), digits_31, if_pos (by norm_num), digits_31,
    if_neg (by norm_num)]
  norm_num [Nat.ofDigits_cons]

theorem two_pow_mod_seven (n : ℕ) :
    (n % 3 = 1 → (2 : ℤ) ^ n % 7 = 2) ∧ (n % 3 = 2 → (2 : ℤ) ^ n % 7 = 4) := by
  have hcube : ∀ k : ℕ, (2 : ℤ) ^ (3 * k) ≡ 1 [ZMOD 7] := by
    intro k
    rw [pow_mul]
    simpa using (show (2 : ℤ) ^ 3 ≡ 1 [ZMOD 7] by decide).pow k
  constructor
  · intro h
    rw [show n = 3 * (n / 3) + 1 by omega, pow_succ]
    exact (hcube _).mul_right 2
  · intro h
    rw [show n = 3 * (n / 3) + 2 by omega, pow_add]
    exact (hcube _).mul_right 4

/-- Windows of 31 bits do not give the powers of longer exponents. -/
theorem not_powers_of_31 {maxbits : ℕ} (hmax : maxbits < 2 ^ 64) (hbits : 31 < maxbits) :
    ¬ Powers maxbits 31 := by
  intro hpowers
  -- the two powers of two have different remainders by the order of `2` to the modulus `7`
  obtain ⟨exp, hexp⟩ : ∃ exp, exp = 2 ^ 31 := ⟨_, rfl⟩
  obtain ⟨wrong, hwrong⟩ : ∃ wrong, wrong = 2 ^ 32 := ⟨_, rfl⟩
  have hdigits := digits_31_pow
  rw [← hwrong, ← hexp] at hdigits
  have hlt : exp < 2 ^ maxbits := by
    rw [hexp]
    exact Nat.pow_lt_pow_right (by norm_num) hbits
  obtain ⟨fb_ins, hinit, hpow⟩ := hpowers 2 7 exp (by norm_num) hlt
  have hfilled := filled hinit
  have hm_h : fb_ins.m_h = 2 ^ 64 - 2 ^ 31 := hfilled.m_h.trans m_h_31
  rw [hfilled.extend_eq hmax (by norm_num) hlt (by rw [hm_h]; norm_num), hm_h, ← hexp, hdigits,
    Option.some_inj, (two_pow_mod_seven wrong).1 (by omega),
    (two_pow_mod_seven exp).2 (by omega)] at hpow
  norm_num at hpow

/-- **The powers are right** for all sizes that are accepted, except for windows of 31 bits and
exponents of more than 31 bits. -/
theorem powers_iff {maxbits winsize : ℕ} (hmax : maxbits < 2 ^ 64)
    (haccepts : Accepts maxbits winsize) :
    Powers maxbits winsize ↔ ¬ (winsize = 31 ∧ 31 < maxbits) := by
  constructor
  · rintro hpowers ⟨rfl, hbits⟩
    exact not_powers_of_31 hmax hbits hpowers
  · intro hsizes base mod exp hmod hexp
    obtain ⟨fb_ins, hinit⟩ := haccepts base mod
    have hfilled := filled hinit
    have hlt := hfilled.winsize_lt
    refine ⟨fb_ins, hinit, ?_⟩
    rcases (by omega : winsize ≤ 30 ∨ winsize = 31) with hle | rfl
    · have hm_h : fb_ins.m_h = 2 ^ winsize := hfilled.m_h.trans (m_h_of_le hle)
      have hbase : 1 < 2 ^ winsize := Nat.one_lt_two_pow hfilled.winsize_pos.ne'
      rw [hfilled.extend_eq hmax hmod hexp (hm_h ▸ hbase), hm_h,
        digits_of_le hfilled.winsize_pos hle, Nat.ofDigits_digits]
    · have hm_h : fb_ins.m_h = 2 ^ 64 - 2 ^ 31 := hfilled.m_h.trans m_h_31
      have hbits : maxbits ≤ 31 := by omega
      have hexp' : exp < 2 ^ 31 :=
        lt_of_lt_of_le hexp (Nat.pow_le_pow_right (by norm_num) hbits)
      rw [hfilled.extend_eq hmax hmod hexp (by rw [hm_h]; norm_num), hm_h,
        digits_31_of_lt hexp']

/-- The initialisation returns, unless the table is too large. -/
theorem accepts_of {maxbits winsize m_t : ℕ} (hlt : winsize < 32)
    (hround : ROUNDUP maxbits winsize = some m_t) (hok : mallocOk 16 (m_t + 1) = true) :
    Accepts maxbits winsize := by
  intro base mod
  apply Option.isSome_iff_exists.mp
  rw [fbpowmod_init_extend, shiftedOne, if_pos hlt, hround, Option.map_some]
  exact congrArg Option.isSome (if_pos hok)

theorem powers_iff_ten :
    Powers 10 4 ↔ ¬ (4 = 31 ∧ 31 < 10) :=
  powers_iff (by norm_num) (accepts_of (by norm_num) (by rfl) (by rfl))

/-- Windows of 31 bits are accepted for exponents of 62 bits. -/
theorem not_powers_31 : Accepts 62 31 ∧ ¬ Powers 62 31 := by
  constructor
  · exact accepts_of (by norm_num) (by rfl) (by rfl)
  · exact not_powers_of_31 (by norm_num) (by norm_num)

/-! ## The model without sizes -/

/-- With windows of at most 30 bits the instance is the one of the model without sizes. -/
theorem init_eq {base mod : ℤ} {maxbits winsize : ℕ} (hmax : maxbits < 2 ^ 64)
    (hpos : 0 < maxbits) (hle : winsize ≤ 30) {fb_ins : FbInstance}
    (h : fbpowmod_init_extend base mod maxbits winsize = some fb_ins) :
    fb_ins = Paillier.fbpowmod_init_extend base mod maxbits winsize := by
  have hfilled := filled h
  have hm_h := hfilled.m_h.trans (m_h_of_le hle)
  have hm_t := hfilled.m_t_eq hmax hpos
  have htable := hfilled.m_table_G
  rw [hfilled.ui_m_h, hm_t] at htable
  obtain ⟨m_mod, m_table_G, m_h, m_t, m_w⟩ := fb_ins
  rw [Paillier.fbpowmod_init_extend, FbInstance.mk.injEq]
  exact ⟨hfilled.m_mod, htable, hm_h, hm_t, hfilled.m_w⟩

/-- Its powers are those of the model without sizes. -/
theorem extend_eq_extend {base mod : ℤ} {maxbits winsize exp : ℕ} (hmax : maxbits < 2 ^ 64)
    (hpos : 0 < maxbits) (hle : winsize ≤ 30) (hmod : 1 < mod) (hexp : exp < 2 ^ maxbits)
    {fb_ins : FbInstance} (h : fbpowmod_init_extend base mod maxbits winsize = some fb_ins) :
    fbpowmod_extend fb_ins exp = Paillier.fbpowmod_extend fb_ins exp := by
  have hfilled := filled h
  have hw := hfilled.winsize_pos
  have hm_h := hfilled.m_h.trans (m_h_of_le hle)
  have hbase : 1 < 2 ^ winsize := Nat.one_lt_two_pow hw.ne'
  rw [hfilled.extend_eq hmax hmod hexp (hm_h ▸ hbase), hm_h, digits_of_le hw hle,
    Nat.ofDigits_digits, init_eq hmax hpos hle h,
    fbpowmod_extend_init (by omega) hw (by simpa using hexp), mpz_powm, Int.toNat_natCast]

end Fediux.Paillier.Sizes
