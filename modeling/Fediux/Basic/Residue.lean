import Mathlib

set_option autoImplicit false

/-! # Residues of integers

Arithmetic of residues as cryptographic code uses it: modular inverses, the recombination of
two residues, powers of `1 + x n` modulo `n²`, the logarithm `(c - 1) / n` that reads `x` back,
and a signed reading of residues. Moduli are positive integers, `a % m` is the residue in
`[0, m)`.
-/

namespace Residue

/-! ## Inverses -/

/-- An inverse of `a` modulo `m`, when there is one. -/
def invert (a m : ℤ) : ℤ := Int.gcdA a m % m

theorem mul_invert {a m : ℤ} (h : IsCoprime a m) : a * invert a m ≡ 1 [ZMOD m] := by
  have hbezout : (1 : ℤ) = a * Int.gcdA a m + m * Int.gcdB a m := by
    rw [← Int.gcd_eq_gcd_ab, Int.isCoprime_iff_gcd_eq_one.mp h]
    rfl
  calc a * invert a m ≡ a * Int.gcdA a m [ZMOD m] := (Int.mod_modEq _ _).mul_left a
    _ ≡ a * Int.gcdA a m + m * Int.gcdB a m [ZMOD m] := by
        rw [Int.modEq_iff_dvd]
        exact ⟨Int.gcdB a m, by ring⟩
    _ ≡ 1 [ZMOD m] := by rw [← hbezout]

/-- Two integers congruent modulo `m` with values in `[0, m)` are equal. -/
theorem eq_of_modEq {a b m : ℤ} (h : a ≡ b [ZMOD m]) (ha : 0 ≤ a ∧ a < m)
    (hb : 0 ≤ b ∧ b < m) : a = b := by
  have h : a % m = b % m := h
  rwa [Int.emod_eq_of_lt ha.1 ha.2, Int.emod_eq_of_lt hb.1 hb.2] at h

/-! ## Two moduli -/

/-- The residues `a` modulo `m` and `b` modulo `n` in one number; `e` is a multiple of `m` that
is one modulo `n`. -/
def recombine (a b e : ℤ) : ℤ := a + (b - a) * e

theorem recombine_modEq {m n x a b e : ℤ} (hmn : IsCoprime m n) (hm : e ≡ 0 [ZMOD m])
    (hn : e ≡ 1 [ZMOD n]) (ha : a ≡ x [ZMOD m]) (hb : b ≡ x [ZMOD n]) :
    recombine a b e ≡ x [ZMOD m * n] := by
  have hcop : m.natAbs.Coprime n.natAbs := Int.isCoprime_iff_gcd_eq_one.mp hmn
  apply (Int.modEq_and_modEq_iff_modEq_mul hcop).mp
  unfold recombine
  constructor
  · calc a + (b - a) * e ≡ a + (b - a) * 0 [ZMOD m] := (hm.mul_left _).add_left _
      _ ≡ x [ZMOD m] := by rwa [mul_zero, add_zero]
  · calc a + (b - a) * e ≡ a + (b - a) * 1 [ZMOD n] := (hn.mul_left _).add_left _
      _ ≡ x [ZMOD n] := by rwa [mul_one, add_sub_cancel]

/-- The multiple of `m` that recombines residues modulo `m` and `n`. -/
theorem mul_invert_modEq {m n : ℤ} (hmn : IsCoprime m n) :
    m * invert m n ≡ 0 [ZMOD m] ∧ m * invert m n ≡ 1 [ZMOD n] :=
  ⟨Int.modEq_zero_iff_dvd.mpr ⟨_, rfl⟩, mul_invert hmn⟩

/-! ## Powers modulo a square -/

/-- The binomial expansion modulo `n²`. -/
theorem one_add_mul_pow (x n : ℤ) (k : ℕ) :
    (1 + x * n) ^ k ≡ 1 + (x * k) * n [ZMOD n * n] := by
  induction k with
  | zero => simp only [pow_zero, Nat.cast_zero, mul_zero, zero_mul, add_zero]; rfl
  | succ k ih =>
      have hsq : (1 + (x * k) * n) * (1 + x * n) ≡ 1 + (x * (k + 1 : ℕ)) * n [ZMOD n * n] := by
        rw [Int.modEq_iff_dvd]
        refine ⟨-(x * k * x), ?_⟩
        push_cast
        ring
      calc (1 + x * n) ^ (k + 1) = (1 + x * n) ^ k * (1 + x * n) := pow_succ _ _
        _ ≡ (1 + (x * k) * n) * (1 + x * n) [ZMOD n * n] := ih.mul_right _
        _ ≡ 1 + (x * (k + 1 : ℕ)) * n [ZMOD n * n] := hsq

/-- `n`-th powers of numbers congruent modulo `n` are congruent modulo `n²`. -/
theorem pow_modulus_modEq {a b : ℤ} {n : ℕ} (h : a ≡ b [ZMOD n]) :
    a ^ n ≡ b ^ n [ZMOD (n : ℤ) * n] := by
  have hdvd : (n : ℤ) ∣ b - a := Int.modEq_iff_dvd.mp h
  rw [Int.modEq_iff_dvd, ← sq]
  simpa using dvd_sub_pow_of_dvd_sub hdvd 1

/-- The logarithm of `1 + x n` to the base `1 + n`, from its residue modulo `n²`. -/
theorem log_eq {n x c : ℤ} (hn : 1 < n) (h : c ≡ 1 + x * n [ZMOD n * n]) :
    (c % (n * n) - 1) / n = x % n := by
  have hx := Int.emod_nonneg x (by omega : n ≠ 0)
  have hxn := Int.emod_lt_of_pos x (by omega : 0 < n)
  have hlt : 1 + (x % n) * n < n * n := by nlinarith
  have hres : c % (n * n) = 1 + (x % n) * n := by
    apply eq_of_modEq
    · calc c % (n * n) ≡ c [ZMOD n * n] := Int.mod_modEq _ _
        _ ≡ 1 + x * n [ZMOD n * n] := h
        _ ≡ 1 + (x % n) * n [ZMOD n * n] := by
            rw [Int.modEq_iff_dvd]
            refine ⟨-(x / n), ?_⟩
            have hdiv := Int.emod_add_mul_ediv x n
            linear_combination n * hdiv
    · exact ⟨Int.emod_nonneg _ (by nlinarith), Int.emod_lt_of_pos _ (by nlinarith)⟩
    · exact ⟨by nlinarith, hlt⟩
  rw [hres, add_sub_cancel_left, Int.mul_ediv_cancel _ (by omega : n ≠ 0)]

/-! ## Signed values

A residue from the middle of `[0, m)` on stands for a negative number. -/

/-- The number that the residue `r` stands for, where the negative ones begin at `half`. -/
def signed (r m half : ℤ) : ℤ := if half ≤ r then r - m else r

theorem signed_modEq (r m half : ℤ) : signed r m half ≡ r [ZMOD m] := by
  unfold signed
  split_ifs
  · rw [Int.modEq_iff_dvd]
    exact ⟨1, by ring⟩
  · rfl

/-- **Which numbers up to `m / 2` are read back from their residues.** -/
theorem signed_emod_eq_iff {x m : ℤ} (hm : 1 < m) (hx : |x| ≤ m / 2) :
    signed (x % m) m (m / 2) = x ↔ x ≠ m / 2 := by
  obtain ⟨hlow, hhigh⟩ := abs_le.mp hx
  rcases lt_or_ge x 0 with hneg | hnonneg
  · have hres : x % m = x + m := by
      rw [← Int.add_emod_right, Int.emod_eq_of_lt (by omega) (by omega)]
    rw [hres]
    unfold signed
    rw [if_pos (by omega)]
    constructor
    · intro _
      omega
    · intro _
      omega
  · rw [Int.emod_eq_of_lt hnonneg (by omega)]
    unfold signed
    by_cases hhalf : m / 2 ≤ x
    · rw [if_pos hhalf]
      constructor
      · intro h
        omega
      · intro h
        omega
    · rw [if_neg hhalf]
      constructor
      · intro _
        omega
      · intro _
        rfl

/-! ## Several moduli

A list of pairs gives each modulus with the residue wanted for it. -/

/-- The product of the moduli. -/
def modulus (ps : List (ℤ × ℤ)) : ℤ := (ps.map Prod.fst).prod

/-- The summand for one pair: the residue `p.2` for the modulus `p.1`, and zero for the others. -/
def summand (total : ℤ) (p : ℤ × ℤ) : ℤ :=
  p.2 * (total / p.1) * invert (total / p.1) p.1

/-- The moduli are positive and pairwise coprime. -/
def Coprimes (ps : List (ℤ × ℤ)) : Prop :=
  (∀ p ∈ ps, 0 < p.1) ∧ ps.Pairwise fun p q => IsCoprime p.1 q.1

theorem modulus_split (l r : List (ℤ × ℤ)) (p : ℤ × ℤ) :
    modulus (l ++ p :: r) = modulus (l ++ r) * p.1 := by
  simp only [modulus, List.map_append, List.map_cons, List.prod_append, List.prod_cons]
  ring

theorem modulus_pos {ps : List (ℤ × ℤ)} (h : ∀ p ∈ ps, 0 < p.1) : 0 < modulus ps := by
  unfold modulus
  apply List.prod_pos
  intro m hm
  obtain ⟨p, hp, rfl⟩ := List.mem_map.mp hm
  exact h p hp

theorem dvd_modulus {ps : List (ℤ × ℤ)} {p : ℤ × ℤ} (hp : p ∈ ps) : p.1 ∣ modulus ps :=
  List.dvd_prod (List.mem_map_of_mem hp)

theorem isCoprime_modulus {ps : List (ℤ × ℤ)} {m : ℤ} (h : ∀ p ∈ ps, IsCoprime m p.1) :
    IsCoprime m (modulus ps) := by
  induction ps with
  | nil => exact isCoprime_one_right
  | cons p ps ih =>
      show IsCoprime m (p.1 * modulus ps)
      exact IsCoprime.mul_right (h p List.mem_cons_self)
        (ih fun q hq => h q (List.mem_cons_of_mem p hq))

theorem modulus_dvd {ps : List (ℤ × ℤ)} (h : Coprimes ps) {a : ℤ} (ha : ∀ p ∈ ps, p.1 ∣ a) :
    modulus ps ∣ a := by
  induction ps with
  | nil => exact one_dvd a
  | cons p ps ih =>
      obtain ⟨hpos, hpair⟩ := h
      obtain ⟨hp, hps⟩ := List.pairwise_cons.mp hpair
      have htail : modulus ps ∣ a := ih ⟨fun q hq => hpos q (List.mem_cons_of_mem p hq), hps⟩
        fun q hq => ha q (List.mem_cons_of_mem p hq)
      exact (isCoprime_modulus hp).mul_dvd (ha p List.mem_cons_self) htail

/-- The modulus in the middle is coprime to those around it. -/
theorem Coprimes.around {l r : List (ℤ × ℤ)} {p : ℤ × ℤ} (h : Coprimes (l ++ p :: r)) :
    ∀ q ∈ l ++ r, IsCoprime p.1 q.1 := by
  obtain ⟨_, hpr, hlp⟩ := List.pairwise_append.mp h.2
  intro q hq
  rcases List.mem_append.mp hq with hq | hq
  · exact (hlp q hq p List.mem_cons_self).symm
  · exact (List.pairwise_cons.mp hpr).1 q hq

theorem summand_self {l r : List (ℤ × ℤ)} {p : ℤ × ℤ} (h : Coprimes (l ++ p :: r)) :
    summand (modulus (l ++ p :: r)) p ≡ p.2 [ZMOD p.1] := by
  have hpos : 0 < p.1 := h.1 p (List.mem_append_right l List.mem_cons_self)
  have hdiv : modulus (l ++ p :: r) / p.1 = modulus (l ++ r) := by
    rw [modulus_split, Int.mul_ediv_cancel _ hpos.ne']
  have hcop : IsCoprime (modulus (l ++ r)) p.1 := (isCoprime_modulus h.around).symm
  calc summand (modulus (l ++ p :: r)) p
      = p.2 * (modulus (l ++ r) * invert (modulus (l ++ r)) p.1) := by
        rw [summand, hdiv, mul_assoc]
    _ ≡ p.2 * 1 [ZMOD p.1] := (mul_invert hcop).mul_left _
    _ = p.2 := mul_one _

theorem summand_other {ps : List (ℤ × ℤ)} (hpos : ∀ p ∈ ps, 0 < p.1) {m : ℤ} {q : ℤ × ℤ}
    (hq : q ∈ ps) : summand (modulus ps * m) q ≡ 0 [ZMOD m] := by
  obtain ⟨k, hk⟩ := dvd_modulus hq
  have hdiv : modulus ps * m / q.1 = k * m := by
    rw [hk, mul_assoc, Int.mul_ediv_cancel_left _ (hpos q hq).ne']
  rw [summand, hdiv, Int.modEq_zero_iff_dvd]
  exact ⟨q.2 * k * invert (k * m) q.1, by ring⟩

/-- **The sum of the summands has every wanted residue.** -/
theorem sum_summand_modEq {ps : List (ℤ × ℤ)} (h : Coprimes ps) {p : ℤ × ℤ} (hp : p ∈ ps) :
    (ps.map (summand (modulus ps))).sum ≡ p.2 [ZMOD p.1] := by
  obtain ⟨l, r, rfl⟩ := List.append_of_mem hp
  have hzero : ∀ qs : List (ℤ × ℤ), (∀ q ∈ qs, q ∈ l ++ r) →
      (qs.map (summand (modulus (l ++ p :: r)))).sum ≡ 0 [ZMOD p.1] := by
    intro qs hqs
    induction qs with
    | nil => rfl
    | cons q qs ih =>
        have hq : summand (modulus (l ++ p :: r)) q ≡ 0 [ZMOD p.1] := by
          rw [modulus_split]
          refine summand_other (fun a ha => h.1 a ?_) (hqs q List.mem_cons_self)
          rcases List.mem_append.mp ha with ha | ha
          · exact List.mem_append_left _ ha
          · exact List.mem_append_right _ (List.mem_cons_of_mem p ha)
        rw [List.map_cons, List.sum_cons]
        exact hq.add (ih fun a ha => hqs a (List.mem_cons_of_mem q ha))
  rw [List.map_append, List.map_cons, List.sum_append, List.sum_cons]
  have hl := hzero l fun q hq => List.mem_append_left r hq
  have hr := hzero r fun q hq => List.mem_append_right l hq
  calc _ ≡ 0 + (p.2 + 0) [ZMOD p.1] := hl.add ((summand_self h).add hr)
    _ = p.2 := by rw [add_zero, zero_add]

end Residue
