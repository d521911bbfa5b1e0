import Fediux.Basic.BitSearch

set_option autoImplicit false

/-! # `MPC_Div`

The division of `operator/aby3_operator.h` on exact numbers. The divisor is multiplied with a
power of two that should bring it between one half and one, a linear function approximates its
inverse there, and two multiplications raise the precision. `MPC_Pow` returns a power that is
twice too small for a divisor between one half and one, so that the approximation is used where
it is not made for (`MPC_Div_iff`).
-/

namespace Fediux.Division

variable {K : Type} [Field K] [LinearOrder K]

/-! ## The piecewise functions

They are taken as exact. `atZero` is the piece that the threshold zero belongs to. -/

def upperPiece (atZero : Bool) (y : K) : Bool := 0 < y || (atZero && y == 0)

def MPC_Abs (y : K) : K := |y|

def MPC_QuoDertermine (atZero : Bool) (y : K) : K := if upperPiece atZero y then 1 else -1

def MPC_DReLu (atZero : Bool) (y : K) : K := if upperPiece atZero y then 1 else 0

variable {atZero : Bool}

theorem upperPiece_mono {x y : K} (hle : x ≤ y) (hx : upperPiece atZero x = true) :
    upperPiece atZero y = true := by
  simp only [upperPiece, Bool.or_eq_true, Bool.and_eq_true, decide_eq_true_eq, beq_iff_eq] at hx ⊢
  rcases hx with hpos | ⟨hzero, rfl⟩
  · exact Or.inl (hpos.trans_le hle)
  · rcases hle.eq_or_lt with rfl | hlt
    · exact Or.inr ⟨hzero, rfl⟩
    · exact Or.inl hlt

theorem nonneg_of_upperPiece {y : K} (h : upperPiece atZero y = true) : 0 ≤ y := by
  simp only [upperPiece, Bool.or_eq_true, Bool.and_eq_true, decide_eq_true_eq, beq_iff_eq] at h
  rcases h with hpos | ⟨_, rfl⟩
  · exact hpos.le
  · exact le_rfl

theorem nonpos_of_not_upperPiece {y : K} (h : upperPiece atZero y = false) : y ≤ 0 := by
  by_contra hpos
  rw [not_le] at hpos
  simp [upperPiece, hpos] at h

theorem upperPiece_of_pos {y : K} (h : 0 < y) : upperPiece atZero y = true := by
  simp [upperPiece, h]

theorem MPC_DReLu_eq_one {y : K} : MPC_DReLu atZero y = 1 ↔ upperPiece atZero y = true := by
  rw [MPC_DReLu]
  split_ifs with h <;> simp [h]

theorem sign_mul_sign (y : K) :
    MPC_QuoDertermine atZero y * MPC_QuoDertermine atZero y = (1 : K) := by
  rw [MPC_QuoDertermine]
  split_ifs <;> ring

variable [IsStrictOrderedRing K]

/-- The sign and the absolute value of a number. -/
theorem sign_mul_abs (y : K) : MPC_QuoDertermine atZero y * MPC_Abs y = y := by
  rw [MPC_QuoDertermine, MPC_Abs]
  cases h : upperPiece atZero y with
  | true => rw [if_pos rfl, one_mul, abs_of_nonneg (nonneg_of_upperPiece h)]
  | false =>
      rw [if_neg Bool.false_ne_true, abs_of_nonpos (nonpos_of_not_upperPiece h)]
      ring

variable [FloorRing K]

/-! ## The rank of a divisor -/

/-- One pass of the loop of `MPC_Pow` over the rows; the comparison is revealed. -/
def powPass (atZero : Bool) {n : ℕ} (Y : Fin n → K) (Alpha_matrix : Fin n → ℕ) (i : ℕ)
    (p : Fin n) : ℕ :=
  let rank := Alpha_matrix p + 2 ^ i
  Alpha_matrix p + 2 ^ i * ⌊MPC_DReLu atZero (Y p - 2 ^ rank)⌋₊

/-- `MPC_Pow`, for divisors from one half on. -/
def MPC_Pow (atZero : Bool) {n : ℕ} (Y : Fin n → K) (p : Fin n) : ℤ :=
  let Alpha_matrix := [5, 4, 3, 2, 1, 0].foldl (powPass atZero Y) fun _ => 0
  (Alpha_matrix p : ℤ) + 1

def powPass2 (atZero : Bool) {n : ℕ} (Y : Fin n → K) (Alpha_matrix : Fin n → ℕ) (i : ℕ)
    (p : Fin n) : ℕ :=
  let rank := Alpha_matrix p + 2 ^ i
  Alpha_matrix p + 2 ^ i * ⌊MPC_DReLu atZero ((2 ^ rank)⁻¹ - Y p)⌋₊

/-- `MPC_Pow2`, for divisors below one half. -/
def MPC_Pow2 (atZero : Bool) {n : ℕ} (Y : Fin n → K) (p : Fin n) : ℤ :=
  let Alpha_matrix := [5, 4, 3, 2, 1, 0].foldl (powPass2 atZero Y) fun _ => 0
  (Alpha_matrix p : ℤ) * (-1)

/-! ## The quotient -/

/-- The rows with the result `v` of the comparison with one half. -/
def rowsWith {n : ℕ} (drelu_result : Fin n → K) (less : Bool) : List (Fin n) :=
  (List.finRange n).filter fun i => (drelu_result i == 0) == less

/-- `rank(idx[i], 0) = rankPart(i, 0)` for all `i`. -/
def scatter {n : ℕ} (idx : List (Fin n)) (rankPart : Fin idx.length → ℤ) (rank : Fin n → ℤ) :
    Fin n → ℤ :=
  (List.finRange idx.length).foldl (fun rank i => Function.update rank (idx.get i) (rankPart i)) rank

/-- The ranks of all rows; a matrix is not initialised when it is made. -/
def ranks (atZero : Bool) {n : ℕ} (memory : Fin n → ℤ) (denominator : Fin n → K) : Fin n → ℤ :=
  let drelu_result := fun i => MPC_DReLu atZero (denominator i - 1 / 2)
  let lessIdx := rowsWith drelu_result true
  let moreIdx := rowsWith drelu_result false
  let rankLess := MPC_Pow2 atZero fun i => denominator (lessIdx.get i)
  let rankMore := MPC_Pow atZero fun i => denominator (moreIdx.get i)
  scatter moreIdx rankMore (scatter lessIdx rankLess memory)

/-- `c`, the divisor after the normalisation. -/
def normalised (atZero : Bool) {n : ℕ} (memory : Fin n → ℤ) (B : Fin n → K) (i : Fin n) : K :=
  let denominator := fun i => MPC_Abs (B i)
  denominator i * 2 ^ (ranks atZero memory denominator i * -1)

/-- `MPC_Div` of two columns. -/
def MPC_Div (atZero : Bool) {n : ℕ} (memory : Fin n → ℤ) (A B : Fin n → K) (i : Fin n) : K :=
  let denominator_sign := MPC_QuoDertermine atZero (B i)
  let numerator_sign := MPC_QuoDertermine atZero (A i)
  let quotient_sign := denominator_sign * numerator_sign
  let denominator := MPC_Abs (B i)
  let numerator := MPC_Abs (A i)
  let normalization : K := 2 ^ (ranks atZero memory (fun i => MPC_Abs (B i)) i * -1)
  let c := normalised atZero memory B i
  -- the first approximation of the inverse of `c`, and of the divisor
  let w0 := (29142 / 10000 - 2 * c) * normalization
  let epsilon0 := 1 - denominator * w0
  let aw0 := numerator * w0
  let epsilon_prod := (1 + epsilon0) * aw0
  -- the loop has one pass
  let epsilon_1 := epsilon0 * epsilon0
  let epsilon_prod := epsilon_prod * (1 + epsilon_1)
  epsilon_prod * quotient_sign

/-! ## What the quotient should be -/

/-- The relative error is below `1 / 1000`, and the sign is right. -/
def RightQuotient (x q : K) : Prop :=
  (q = x ∨ |q - x| < 1 / 1000 * |x|) ∧ SignType.sign q = SignType.sign x

/-- The linear function is made for numbers between one half and one. -/
def Normalised (c : K) : Prop := 1 / 2 ≤ c ∧ c ≤ 1

/-- The divisors of the claimed precision. -/
def InRange (b : K) : Prop := (2 ^ 8)⁻¹ ≤ |b| ∧ |b| < 2 ^ 16

/-! ## The searches -/

/-- A pass that sets the bit `i` of the rows with a property is one step of a search. -/
theorem foldl_pass {n : ℕ} {pass : (Fin n → ℕ) → ℕ → Fin n → ℕ} {P : Fin n → ℕ → Bool}
    (hpass : ∀ Alpha i p,
      pass Alpha i p = if P p (Alpha p + 2 ^ i) then Alpha p + 2 ^ i else Alpha p)
    (bits : ℕ) (Alpha : Fin n → ℕ) (p : Fin n) :
    (List.range bits).reverse.foldl pass Alpha p = BitSearch.search (P p) bits (Alpha p) := by
  induction bits generalizing Alpha with
  | zero => rfl
  | succ i ih =>
      rw [List.range_succ, List.reverse_append, List.reverse_singleton, List.singleton_append,
        List.foldl_cons, ih, hpass]
      rfl

/-- The property that `MPC_Pow` searches with. -/
def below (atZero : Bool) (y : K) (rank : ℕ) : Bool := upperPiece atZero (y - 2 ^ rank)

def below2 (atZero : Bool) (y : K) (rank : ℕ) : Bool := upperPiece atZero ((2 ^ rank)⁻¹ - y)

theorem MPC_Pow_eq {n : ℕ} (Y : Fin n → K) (p : Fin n) :
    MPC_Pow atZero Y p = BitSearch.search (below atZero (Y p)) 6 0 + 1 := by
  have hpass : ∀ Alpha i p, powPass atZero Y Alpha i p =
      if below atZero (Y p) (Alpha p + 2 ^ i) then Alpha p + 2 ^ i else Alpha p := by
    intro Alpha i p
    rw [powPass, MPC_DReLu, below]
    split_ifs <;> simp
  rw [MPC_Pow, ← foldl_pass hpass 6 (fun _ => 0) p]
  rfl

theorem MPC_Pow2_eq {n : ℕ} (Y : Fin n → K) (p : Fin n) :
    MPC_Pow2 atZero Y p = -BitSearch.search (below2 atZero (Y p)) 6 0 := by
  have hpass : ∀ Alpha i p, powPass2 atZero Y Alpha i p =
      if below2 atZero (Y p) (Alpha p + 2 ^ i) then Alpha p + 2 ^ i else Alpha p := by
    intro Alpha i p
    rw [powPass2, MPC_DReLu, below2]
    split_ifs <;> simp
  rw [MPC_Pow2, ← foldl_pass hpass 6 (fun _ => 0) p, mul_neg_one]
  rfl

theorem below_anti (atZero : Bool) (y : K) (j k : ℕ) (hjk : j ≤ k) (hk : below atZero y k = true) :
    below atZero y j = true := by
  have hpow : (2 : K) ^ j ≤ 2 ^ k := pow_le_pow_right₀ one_le_two hjk
  exact upperPiece_mono (by linarith) hk

theorem below2_anti (atZero : Bool) (y : K) (j k : ℕ) (hjk : j ≤ k) (hk : below2 atZero y k = true) :
    below2 atZero y j = true := by
  have hpow : ((2 : K) ^ k)⁻¹ ≤ (2 ^ j)⁻¹ :=
    inv_anti₀ (by positivity) (pow_le_pow_right₀ one_le_two hjk)
  exact upperPiece_mono (by linarith) hk

/-- **`MPC_Pow`** for a divisor from one on: the power brings it between one half and one. -/
theorem pow_rank (atZero : Bool) {y : K} (hone : 1 ≤ y) (hlt : y < 2 ^ 16) :
    2 ^ BitSearch.search (below atZero y) 6 0 ≤ y ∧
      y ≤ 2 ^ (BitSearch.search (below atZero y) 6 0 + 1) := by
  set r := BitSearch.search (below atZero y) 6 0 with hr
  have hspec : ∀ k, 0 < k → k < 2 ^ 6 → (below atZero y k = true ↔ k ≤ r) :=
    fun k hpos hk => BitSearch.search_zero (below_anti atZero y) hpos hk
  have hlow : 2 ^ r ≤ y := by
    rcases Nat.eq_zero_or_pos r with hzero | hpos
    · rw [hzero, pow_zero]
      exact hone
    · have hbelow := (hspec r hpos (BitSearch.search_lt (below_anti atZero y) 6)).mpr le_rfl
      linarith [nonneg_of_upperPiece hbelow]
  refine ⟨hlow, ?_⟩
  -- the search does not end at its bound
  have hbound : r + 1 < 2 ^ 6 := by
    have hpow : (2 : K) ^ r < 2 ^ 16 := hlow.trans_lt hlt
    have hr16 := (pow_lt_pow_iff_right₀ (one_lt_two (α := K))).mp hpow
    omega
  have hnot : below atZero y (r + 1) = false := by
    rw [← Bool.not_eq_true, hspec (r + 1) (Nat.succ_pos r) hbound]
    omega
  linarith [nonpos_of_not_upperPiece hnot]

/-- A divisor below one has the rank of those from one to two. -/
theorem pow_rank_of_lt {y : K} (hlt : y < 1) : BitSearch.search (below atZero y) 6 0 = 0 := by
  by_contra hne
  have hbelow := (BitSearch.search_zero (below_anti atZero y) (Nat.pos_of_ne_zero hne)
    (BitSearch.search_lt (below_anti atZero y) 6)).mpr le_rfl
  have hpow : (1 : K) ≤ 2 ^ BitSearch.search (below atZero y) 6 0 := one_le_pow₀ one_le_two
  linarith [nonneg_of_upperPiece hbelow]

/-- **`MPC_Pow2`** for a divisor up to one half. -/
theorem pow2_rank (atZero : Bool) {y : K} (hlow : (2 ^ 8)⁻¹ ≤ y) (hle : y ≤ 1 / 2) :
    y ≤ (2 ^ BitSearch.search (below2 atZero y) 6 0)⁻¹ ∧
      (2 ^ (BitSearch.search (below2 atZero y) 6 0 + 1))⁻¹ ≤ y := by
  set r := BitSearch.search (below2 atZero y) 6 0 with hr
  have hspec : ∀ k, 0 < k → k < 2 ^ 6 → (below2 atZero y k = true ↔ k ≤ r) :=
    fun k hpos hk => BitSearch.search_zero (below2_anti atZero y) hpos hk
  have hhigh : y ≤ (2 ^ r)⁻¹ := by
    rcases Nat.eq_zero_or_pos r with hzero | hpos
    · rw [hzero, pow_zero, inv_one]
      linarith
    · have hbelow := (hspec r hpos (BitSearch.search_lt (below2_anti atZero y) 6)).mpr le_rfl
      linarith [nonneg_of_upperPiece hbelow]
  refine ⟨hhigh, ?_⟩
  have hbound : r + 1 < 2 ^ 6 := by
    have hinv : ((2 : K) ^ 8)⁻¹ ≤ (2 ^ r)⁻¹ := hlow.trans hhigh
    have hpow : (2 : K) ^ r ≤ 2 ^ 8 := (inv_le_inv₀ (by positivity) (by positivity)).mp hinv
    have hr8 := (pow_le_pow_iff_right₀ (one_lt_two (α := K))).mp hpow
    omega
  have hnot : below2 atZero y (r + 1) = false := by
    rw [← Bool.not_eq_true, hspec (r + 1) (Nat.succ_pos r) hbound]
    omega
  linarith [nonpos_of_not_upperPiece hnot]

/-! ## The ranks of all rows -/

/-- Entries that depend on their rows only are written to these rows. -/
theorem scatter_eq {n : ℕ} (idx : List (Fin n)) (g : Fin n → ℤ) (rank : Fin n → ℤ) (i : Fin n) :
    scatter idx (fun p => g (idx.get p)) rank i = if i ∈ idx then g i else rank i := by
  have hmap : (List.finRange idx.length).map idx.get = idx := List.map_get_finRange idx
  have hfold : scatter idx (fun p => g (idx.get p)) rank =
      idx.foldl (fun rank i => Function.update rank i (g i)) rank := by
    conv_rhs => rw [← hmap, List.foldl_map]
    rfl
  rw [hfold]
  clear hmap hfold
  induction idx generalizing rank with
  | nil => simp
  | cons j idx ih =>
      rw [List.foldl_cons, ih]
      by_cases hmem : i ∈ idx
      · simp [hmem]
      · by_cases hij : i = j
        · subst hij
          simp
        · simp [hmem, hij]

/-- The rank of a row, from its divisor. -/
theorem ranks_eq {n : ℕ} (memory : Fin n → ℤ) (denominator : Fin n → K) (i : Fin n) :
    ranks atZero memory denominator i =
      if upperPiece atZero (denominator i - 1 / 2) then
        (BitSearch.search (below atZero (denominator i)) 6 0 : ℤ) + 1
      else -(BitSearch.search (below2 atZero (denominator i)) 6 0 : ℤ) := by
  set more : Fin n → ℤ := fun i => (BitSearch.search (below atZero (denominator i)) 6 0 : ℤ) + 1
    with hmore
  set less : Fin n → ℤ := fun i => -(BitSearch.search (below2 atZero (denominator i)) 6 0 : ℤ)
    with hless
  have hPow : ∀ idx : List (Fin n),
      MPC_Pow atZero (fun i => denominator (idx.get i)) = fun p => more (idx.get p) :=
    fun idx => funext fun p => MPC_Pow_eq _ p
  have hPow2 : ∀ idx : List (Fin n),
      MPC_Pow2 atZero (fun i => denominator (idx.get i)) = fun p => less (idx.get p) :=
    fun idx => funext fun p => MPC_Pow2_eq _ p
  rw [ranks]
  simp only [hPow, hPow2]
  rw [scatter_eq _ more, scatter_eq _ less]
  cases h : upperPiece atZero (denominator i - 1 / 2) <;>
    simp [rowsWith, MPC_DReLu, h, hmore, hless, -one_div]

/-- A divisor that the comparison with one half puts above, and that is below one. -/
def Misplaced (atZero : Bool) (b : K) : Prop := MPC_DReLu atZero (|b| - 1 / 2) = 1 ∧ |b| < 1

/-- A misplaced divisor is halved, others are brought between one half and one. -/
theorem normalised_cases (atZero : Bool) {n : ℕ} (memory : Fin n → ℤ) {B : Fin n → K} {i : Fin n}
    (hB : InRange (B i)) :
    (Misplaced atZero (B i) ∧ normalised atZero memory B i = |B i| / 2) ∨
      (¬ Misplaced atZero (B i) ∧ Normalised (normalised atZero memory B i)) := by
  obtain ⟨hlow, hlt⟩ := hB
  have hc : normalised atZero memory B i =
      |B i| * 2 ^ (ranks atZero memory (fun i => |B i|) i * -1) := rfl
  rw [hc, ranks_eq, Misplaced, MPC_DReLu_eq_one, Normalised]
  cases hupper : upperPiece atZero (|B i| - 1 / 2) with
  | true =>
      rw [if_pos rfl]
      have hpow : ∀ r : ℕ, (2 : K) ^ (((r : ℤ) + 1) * -1) = (2 ^ (r + 1))⁻¹ := by
        intro r
        rw [mul_neg_one, zpow_neg]
        norm_cast
      rw [hpow]
      rcases lt_or_ge |B i| 1 with hone | hone
      · left
        rw [pow_rank_of_lt hone]
        exact ⟨⟨rfl, hone⟩, by norm_num [div_eq_mul_inv]⟩
      · right
        obtain ⟨hle, hge⟩ := pow_rank atZero hone hlt
        set r := BitSearch.search (below atZero |B i|) 6 0 with hr
        have hpos : (0 : K) < 2 ^ (r + 1) := by positivity
        have hsucc : (2 : K) ^ (r + 1) = 2 * 2 ^ r := pow_succ' 2 r
        refine ⟨fun h => absurd h.2 (not_lt.mpr hone), ?_, ?_⟩
        · rw [← div_eq_mul_inv, le_div_iff₀ hpos]
          linarith
        · rw [← div_eq_mul_inv, div_le_one hpos]
          exact hge
  | false =>
      rw [if_neg Bool.false_ne_true]
      have hpow : ∀ r : ℕ, (2 : K) ^ (-(r : ℤ) * -1) = 2 ^ r := by
        intro r
        rw [neg_mul_neg, mul_one, zpow_natCast]
      rw [hpow]
      right
      have hhalf := nonpos_of_not_upperPiece hupper
      obtain ⟨hge, hle⟩ := pow2_rank atZero hlow (by linarith)
      set r := BitSearch.search (below2 atZero |B i|) 6 0 with hr
      have hpos : (0 : K) < 2 ^ r := by positivity
      have hsucc : (2 : K) ^ (r + 1) = 2 ^ r * 2 := pow_succ 2 r
      refine ⟨fun h => Bool.false_ne_true h.1, ?_, ?_⟩
      · rw [hsucc, mul_inv, ← le_div_iff₀' (by positivity), div_inv_eq_mul] at hle
        rw [one_div]
        exact hle
      · rw [← le_div_iff₀ hpos, one_div]
        exact hge

/-! ## The error -/

/-- What one minus the divisor times the first approximation of its inverse is. -/
def epsilon (c : K) : K := 1 - c * (29142 / 10000 - 2 * c)

/-- **The quotient** is the right one up to the fourth power of the first error. -/
theorem MPC_Div_eq {n : ℕ} (memory : Fin n → ℤ) (A : Fin n → K) {B : Fin n → K} {i : Fin n}
    (hB : B i ≠ 0) :
    MPC_Div atZero memory A B i =
      A i / B i * (1 - epsilon (normalised atZero memory B i) ^ 4) := by
  set norm : K := 2 ^ (ranks atZero memory (fun i => MPC_Abs (B i)) i * -1) with hnorm
  set c := normalised atZero memory B i with hc
  have hcn : c = MPC_Abs (B i) * norm := rfl
  have hdiv : MPC_Div atZero memory A B i =
      (1 + epsilon c) * (MPC_Abs (A i) * ((29142 / 10000 - 2 * c) * norm)) *
        (1 + epsilon c * epsilon c) *
        (MPC_QuoDertermine atZero (B i) * MPC_QuoDertermine atZero (A i)) := by
    have heps : epsilon c = 1 - MPC_Abs (B i) * ((29142 / 10000 - 2 * c) * norm) := by
      rw [epsilon, hcn]
      ring
    rw [heps]
    rfl
  have hone : MPC_Abs (B i) * ((29142 / 10000 - 2 * c) * norm) = 1 - epsilon c := by
    rw [epsilon, hcn]
    ring
  have hb : MPC_QuoDertermine atZero (B i) * MPC_Abs (B i) = B i := sign_mul_abs (B i)
  have ha : MPC_QuoDertermine atZero (A i) * MPC_Abs (A i) = A i := sign_mul_abs (A i)
  have hs : MPC_QuoDertermine atZero (B i) * MPC_QuoDertermine atZero (B i) = 1 :=
    sign_mul_sign (B i)
  rw [hdiv, div_mul_eq_mul_div, eq_div_iff hB]
  set w : K := (29142 / 10000 - 2 * c) * norm with hw
  set e : K := epsilon c with he
  set x := MPC_Abs (A i) with hx
  set y := MPC_Abs (B i) with hy
  set p := MPC_QuoDertermine atZero (A i) with hp
  set q := MPC_QuoDertermine atZero (B i) with hq
  -- the factors `1 + e`, `1 + e * e` and `1 - e = y * w`
  linear_combination -((1 + e) * (1 + e * e) * x * w * p * q) * hb +
    (1 + e) * (1 + e * e) * x * w * p * y * hs + (1 + e) * (1 + e * e) * x * p * hone +
    (1 + e) * (1 + e * e) * (1 - e) * ha

/-- The approximation between one half and one. -/
theorem epsilon_bounds {c : K} (hc : Normalised c) :
    -(1 / 10) < epsilon c ∧ epsilon c < 1 / 10 := by
  obtain ⟨hlow, hhigh⟩ := hc
  unfold epsilon
  constructor
  · -- the least value is taken at the middle of the roots
    have hsquare := sq_nonneg (c - 72855 / 100000)
    linarith
  · have hproduct : 0 ≤ (c - 1 / 2) * (1 - c) :=
      mul_nonneg (sub_nonneg.mpr hlow) (sub_nonneg.mpr hhigh)
    linarith

/-- A quotient that is too small by a part of itself. -/
theorem rightQuotient_iff {x d : K} (hx : x ≠ 0) (hd : 0 ≤ d) :
    RightQuotient x (x * (1 - d)) ↔ d < 1 / 1000 := by
  have herror : |x * (1 - d) - x| = d * |x| := by
    rw [show x * (1 - d) - x = -(d * x) by ring, abs_neg, abs_mul, abs_of_nonneg hd]
  constructor
  · rintro ⟨heq | hlt, _⟩
    · have hzero : d = 0 := by
        have hprod : d * x = 0 := by linear_combination -heq
        exact (mul_eq_zero.mp hprod).resolve_right hx
      rw [hzero]
      norm_num
    · rw [herror] at hlt
      exact lt_of_mul_lt_mul_right hlt (abs_nonneg x)
  · intro hlt
    have hpos : 0 < 1 - d := by linarith
    refine ⟨Or.inr ?_, ?_⟩
    · rw [herror]
      exact mul_lt_mul_of_pos_right hlt (abs_pos.mpr hx)
    · rw [sign_mul, sign_pos hpos, mul_one]

/-- A quotient with a small error is right. -/
theorem rightQuotient_of_error {x e : K} (hlow : -(1 / 10) < e) (hhigh : e < 1 / 10) :
    RightQuotient x (x * (1 - e ^ 4)) := by
  rcases eq_or_ne x 0 with rfl | hx
  · rw [zero_mul]
    exact ⟨Or.inl rfl, rfl⟩
  · rw [rightQuotient_iff hx (by positivity)]
    have hproduct : 0 < (1 / 10 - e) * (1 / 10 + e) := mul_pos (by linarith) (by linarith)
    have hsq : e ^ 2 ≤ 1 / 100 := by linarith
    calc e ^ 4 = e ^ 2 * e ^ 2 := by ring
      _ ≤ 1 / 100 * (1 / 100) := mul_le_mul hsq hsq (sq_nonneg e) (by norm_num)
      _ < 1 / 1000 := by norm_num

theorem ne_zero_of_inRange {b : K} (h : InRange b) : b ≠ 0 := by
  rintro rfl
  have hpos : (0 : K) < (2 ^ 8)⁻¹ := by positivity
  have hle := h.1
  rw [abs_zero] at hle
  linarith

/-- **The division is right** in all rows, with the divisors where the approximation is made for
them, exactly if no divisor is misplaced. -/
theorem MPC_Div_iff {n : ℕ} (memory : Fin n → ℤ) (A : Fin n → K) {B : Fin n → K}
    (hB : ∀ i, InRange (B i)) :
    (∀ i, RightQuotient (A i / B i) (MPC_Div atZero memory A B i) ∧
        Normalised (normalised atZero memory B i)) ↔
      ∀ i, ¬ Misplaced atZero (B i) := by
  refine forall_congr' fun i => ?_
  rcases normalised_cases atZero memory (hB i) with ⟨hmis, hc⟩ | ⟨hnot, hc⟩
  · refine iff_of_false ?_ (not_not.mpr hmis)
    rintro ⟨_, hlow, _⟩
    have hone := hmis.2
    rw [hc] at hlow
    linarith
  · refine iff_of_true ⟨?_, hc⟩ hnot
    obtain ⟨hlow, hhigh⟩ := epsilon_bounds hc
    rw [MPC_Div_eq memory A (ne_zero_of_inRange (hB i))]
    exact rightQuotient_of_error hlow hhigh

theorem MPC_Div_iff_two :
    (∀ i, RightQuotient ((6 : ℚ) / 2) (MPC_Div true (fun _ : Fin 1 => 0) (fun _ => 6)
          (fun _ => 2) i) ∧
        Normalised (normalised true (fun _ : Fin 1 => 0) (fun _ => (2 : ℚ)) i)) ↔
      ∀ _ : Fin 1, ¬ Misplaced true (2 : ℚ) :=
  MPC_Div_iff _ _ fun _ => ⟨by norm_num, by norm_num⟩

/-- The quotient of a misplaced divisor, from the divisor. -/
theorem MPC_Div_of_misplaced {n : ℕ} (memory : Fin n → ℤ) (A : Fin n → K) {B : Fin n → K}
    {i : Fin n} (hB : InRange (B i)) (hmis : Misplaced atZero (B i)) :
    MPC_Div atZero memory A B i = A i / B i * (1 - epsilon (|B i| / 2) ^ 4) := by
  rw [MPC_Div_eq memory A (ne_zero_of_inRange hB)]
  rcases normalised_cases atZero memory hB with ⟨_, hc⟩ | ⟨hnot, _⟩
  · rw [hc]
  · exact absurd hmis hnot

/-- **The error of a misplaced divisor** is the fourth power of a polynomial in it. -/
theorem rightQuotient_iff_of_misplaced {n : ℕ} (memory : Fin n → ℤ) {A B : Fin n → K}
    {i : Fin n} (hA : A i ≠ 0) (hB : InRange (B i)) (hmis : Misplaced atZero (B i)) :
    RightQuotient (A i / B i) (MPC_Div atZero memory A B i) ↔
      epsilon (|B i| / 2) ^ 4 < 1 / 1000 := by
  rw [MPC_Div_of_misplaced memory A hB hmis]
  exact rightQuotient_iff (div_ne_zero hA (ne_zero_of_inRange hB)) (by positivity)

/-- `1 / 0.625`: the divisor is halved, and the quotient is too small by more than half of a
hundredth. -/
theorem not_rightQuotient_five_eighths :
    InRange (5 / 8 : ℚ) ∧ ¬ RightQuotient ((1 : ℚ) / (5 / 8))
      (MPC_Div true (fun _ : Fin 1 => 0) (fun _ => 1) (fun _ => 5 / 8) 0) := by
  have habs : |(5 / 8 : ℚ)| = 5 / 8 := abs_of_pos (by norm_num)
  have hB : InRange (5 / 8 : ℚ) := by
    rw [InRange, habs]
    norm_num
  have hmis : Misplaced true (5 / 8 : ℚ) := by
    rw [Misplaced, habs, MPC_DReLu_eq_one]
    exact ⟨upperPiece_of_pos (by norm_num), by norm_num⟩
  refine ⟨hB, ?_⟩
  have hiff := rightQuotient_iff_of_misplaced (fun _ : Fin 1 => 0) (A := fun _ => (1 : ℚ))
    (B := fun _ => 5 / 8) (i := 0) one_ne_zero hB hmis
  rw [hiff, habs]
  norm_num [epsilon]

end Fediux.Division
