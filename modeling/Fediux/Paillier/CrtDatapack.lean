import Fediux.Paillier.Plaintext

set_option autoImplicit false

/-! # Packing by the Chinese remainder theorem

`algorithm/opt_paillier/src/crt_datapack.cc`: a short list of signed numbers becomes one number
with the residue of each modulo its own prime. `retrieve_iff` says when a number with these
residues is read back as the list; as for plaintexts, half of a modulus is read on the wrong
side.
-/

namespace Fediux.Paillier

/-- `CrtMod`. -/
structure CrtMod where
  crt_half_mod : List ℤ
  crt_mod : List ℤ
  crt_size : ℕ
  mod_size : ℕ
  deriving DecidableEq

/-- `init_crt`, where the first number is drawn. -/
def init_crt (crt_size mod_size : ℕ) (draw : Draw mod_size) : CrtMod :=
  let crt_mod : List ℤ :=
    (NextPrime.nextPrimes (draw + 2 ^ mod_size) crt_size).map fun (p : ℕ) => (p : ℤ)
  { crt_half_mod := crt_mod.map fun m => m / 2, crt_mod := crt_mod, crt_size := crt_size
    mod_size := mod_size }

/-- The text that both functions throw. -/
def sizeError : String := "size of packing is more than crt's"

/-- The residue that a number is packed with. -/
def packResidue (x m : ℤ) : ℤ := if x < 0 then (x + m) % m else x

def data_packing_crt (seq : List ℤ) (crtmod : CrtMod) : Except String ℤ :=
  if seq.length > crtmod.crt_size then .error sizeError
  else
    let mods := crtmod.crt_mod.take seq.length
    let muls := mods.prod
    .ok ((mods.zip seq).foldl
      (fun res p =>
        let coef := muls / p.1
        (res + packResidue p.2 p.1 * coef * Residue.invert coef p.1) % muls) 0)

def data_retrieve_crt (pack : ℤ) (crtmod : CrtMod) (data_size : ℕ) : Except String (List ℤ) :=
  if data_size > crtmod.crt_size then .error sizeError
  else
    .ok (((crtmod.crt_mod.zip crtmod.crt_half_mod).take data_size).map fun p =>
      let cur := pack % p.1
      if cur ≥ p.2 then cur - p.1 else cur)

/-! ## Moduli that can be used -/

/-- Moduli with which lists of up to `dimension` numbers can be packed into numbers below `n`. -/
structure CrtMod.Usable (c : CrtMod) (dimension : ℕ) (n : ℤ) : Prop where
  length_eq : c.crt_mod.length = c.crt_size
  half_eq : c.crt_half_mod = c.crt_mod.map fun m => m / 2
  one_lt : ∀ m ∈ c.crt_mod, 1 < m
  coprime : c.crt_mod.Pairwise IsCoprime
  below : (c.crt_mod.take dimension).prod ≤ n

/-- Successive primes are pairwise coprime. -/
theorem pairwise_nextPrimes (m k : ℕ) :
    ((NextPrime.nextPrimes m k).map fun (p : ℕ) => (p : ℤ)).Pairwise IsCoprime := by
  rw [List.pairwise_map]
  refine List.Pairwise.imp_of_mem ?_ (NextPrime.sorted_nextPrimes m k)
  intro p q hp hq hlt
  rw [Nat.isCoprime_iff_coprime]
  exact (Nat.coprime_primes (NextPrime.mem_nextPrimes hp).2 (NextPrime.mem_nextPrimes hq).2).mpr
    hlt.ne

/-- A product of numbers up to `b`. -/
theorem prod_le_pow {b : ℤ} (ms : List ℤ) (h : ∀ m ∈ ms, 0 < m ∧ m ≤ b) :
    0 < ms.prod ∧ ms.prod ≤ b ^ ms.length := by
  induction ms with
  | nil => simp
  | cons m ms ih =>
      obtain ⟨hpos, hle⟩ := h m List.mem_cons_self
      obtain ⟨ihpos, ihle⟩ := ih fun a ha => h a (List.mem_cons_of_mem m ha)
      rw [List.prod_cons, List.length_cons, pow_succ']
      exact ⟨mul_pos hpos ihpos, mul_le_mul hle ihle ihpos.le (by omega)⟩

/-- The primes behind a number of 71 bits have at most 74 bits. -/
theorem nextPrimes_le_two_pow {k draw : ℕ} (hk : k ≤ 28) (hdraw : draw < 2 ^ 70) :
    ∀ p ∈ NextPrime.nextPrimes (draw + 2 ^ 70) k, p ≤ 2 ^ 73 := by
  have hcount := NextPrime.two_pow_le_primesBetween (k := 71) (s := 2 ^ 37) (by norm_num)
  apply NextPrime.nextPrimes_le
  have hsub : NextPrime.primesBetween (2 ^ 71) (2 ^ 73) ⊆
      NextPrime.primesBetween (draw + 2 ^ 70) (2 ^ 73) := by
    intro p hp
    obtain ⟨hioc, hpp⟩ := Finset.mem_filter.mp hp
    obtain ⟨hlt, hle⟩ := Finset.mem_Ioc.mp hioc
    exact Finset.mem_filter.mpr ⟨Finset.mem_Ioc.mpr ⟨by omega, hle⟩, hpp⟩
  have hcard := Finset.card_le_card hsub
  norm_num at hcount hcard ⊢
  omega

/-- **The moduli that the wrappers draw can be used with every modulus of 2044 bits.** -/
theorem init_crt_usable (draw : Draw 70) {n : ℤ} (hn : (2 ^ 73) ^ 28 ≤ n) :
    (init_crt 28 70 draw).Usable 28 n where
  length_eq := by
    show (List.map _ _).length = _
    rw [List.length_map, NextPrime.length_nextPrimes]
    rfl
  half_eq := rfl
  one_lt := by
    intro m hm
    obtain ⟨p, hp, rfl⟩ := List.mem_map.mp hm
    exact_mod_cast (NextPrime.mem_nextPrimes hp).2.one_lt
  coprime := pairwise_nextPrimes _ _
  below := by
    set ms := (init_crt 28 70 draw).crt_mod with hms
    have hlen : ms.length = 28 := by
      show (List.map _ _).length = _
      rw [List.length_map, NextPrime.length_nextPrimes]
    have hle : ∀ m ∈ ms, 0 < m ∧ m ≤ 2 ^ 73 := by
      intro m hm
      obtain ⟨p, hp, rfl⟩ := List.mem_map.mp hm
      exact ⟨by exact_mod_cast (NextPrime.mem_nextPrimes hp).2.pos,
        by exact_mod_cast nextPrimes_le_two_pow (le_refl 28) draw.isLt p hp⟩
    have hprod := (prod_le_pow ms hle).2
    rw [List.take_of_length_le hlen.le]
    rw [hlen] at hprod
    exact le_trans hprod hn

/-! ## Packing and retrieving -/

/-- `v` has the residues of the numbers of `seq`. -/
def CrtMod.Holds (c : CrtMod) (v : ℤ) (seq : List ℤ) : Prop :=
  ∀ p ∈ c.crt_mod.zip seq, v ≡ p.2 [ZMOD p.1]

/-- The numbers are in the ranges of their moduli. -/
def CrtMod.Allows (c : CrtMod) (seq : List ℤ) : Prop :=
  seq.length ≤ c.crt_size ∧ ∀ p ∈ c.crt_mod.zip seq, |p.2| ≤ p.1 / 2

/-- No number is half of its modulus. -/
def CrtMod.AvoidsHalf (c : CrtMod) (seq : List ℤ) : Prop :=
  ∀ p ∈ c.crt_mod.zip seq, p.2 ≠ p.1 / 2

instance decidableAllows (c : CrtMod) (seq : List ℤ) : Decidable (c.Allows seq) :=
  inferInstanceAs (Decidable (_ ∧ _))

instance decidableAvoidsHalf (c : CrtMod) (seq : List ℤ) : Decidable (c.AvoidsHalf seq) :=
  inferInstanceAs (Decidable (∀ p ∈ _, _))

theorem packResidue_modEq (x m : ℤ) : packResidue x m ≡ x [ZMOD m] := by
  unfold packResidue
  split_ifs
  · exact (Int.mod_modEq _ _).trans Int.add_modEq_right
  · rfl

/-- A sum that is reduced after every summand. -/
theorem foldl_add_emod {α : Type} (f : α → ℤ) (m : ℤ) (l : List α) (res : ℤ) :
    l.foldl (fun res a => (res + f a) % m) res ≡ res + (l.map f).sum [ZMOD m] := by
  induction l generalizing res with
  | nil =>
      show res ≡ res + 0 [ZMOD m]
      rw [add_zero]
  | cons a l ih =>
      rw [List.foldl_cons, List.map_cons, List.sum_cons, ← add_assoc]
      exact (ih _).trans ((Int.mod_modEq _ _).add_right _)

theorem foldl_emod_range {α : Type} (f : α → ℤ) {m : ℤ} (hm : 0 < m) (l : List α) {res : ℤ}
    (hres : 0 ≤ res ∧ res < m) :
    0 ≤ l.foldl (fun res a => (res + f a) % m) res ∧
      l.foldl (fun res a => (res + f a) % m) res < m := by
  induction l generalizing res with
  | nil => exact hres
  | cons a l ih => exact ih ⟨Int.emod_nonneg _ hm.ne', Int.emod_lt_of_pos _ hm⟩

section Usable

variable {c : CrtMod} {dimension : ℕ} {n : ℤ} {seq : List ℤ}

theorem take_zip (h : c.Usable dimension n) (hlen : seq.length ≤ c.crt_size) :
    (c.crt_mod.take seq.length).zip seq = c.crt_mod.zip seq ∧
      (c.crt_mod.zip seq).map Prod.fst = c.crt_mod.take seq.length := by
  rw [← h.length_eq] at hlen
  have hzip : (c.crt_mod.take seq.length).zip seq = c.crt_mod.zip seq := by
    have hmin : c.crt_mod.zip seq = (c.crt_mod.take (min c.crt_mod.length seq.length)).zip
        (seq.take (min c.crt_mod.length seq.length)) := List.zip_eq_zip_take_min
    rw [min_eq_right hlen, List.take_length] at hmin
    exact hmin.symm
  refine ⟨hzip, ?_⟩
  rw [← hzip, List.map_fst_zip]
  rw [List.length_take, min_eq_left hlen]

/-- The moduli of a list, paired with anything. -/
theorem coprimes_of_fst (h : c.Usable dimension n) {size : ℕ} {ps : List (ℤ × ℤ)}
    (hps : ps.map Prod.fst = c.crt_mod.take size) :
    Residue.Coprimes ps ∧ Residue.modulus ps = (c.crt_mod.take size).prod := by
  have hmem : ∀ p ∈ ps, p.1 ∈ c.crt_mod := by
    intro p hp
    have hm : p.1 ∈ c.crt_mod.take size := by
      rw [← hps]
      exact List.mem_map_of_mem hp
    exact List.mem_of_mem_take hm
  have hpair := h.coprime.sublist (List.take_sublist size c.crt_mod)
  rw [← hps] at hpair
  refine ⟨⟨fun p hp => ?_, List.pairwise_map.mp hpair⟩, by rw [Residue.modulus, hps]⟩
  have := h.one_lt _ (hmem p hp)
  omega

/-- **Packing gives a number with the residues of the list.** -/
theorem data_packing_crt_holds (h : c.Usable dimension n) (hlen : seq.length ≤ c.crt_size) :
    ∃ pack, data_packing_crt seq c = .ok pack ∧ 0 ≤ pack ∧
      pack < (c.crt_mod.take seq.length).prod ∧ c.Holds pack seq := by
  obtain ⟨hzip, hfst⟩ := take_zip h hlen
  set ps := c.crt_mod.zip seq with hps
  -- the pairs of a modulus and the residue that is packed
  set qs := ps.map fun p => (p.1, packResidue p.2 p.1) with hqs
  have hqfst : qs.map Prod.fst = c.crt_mod.take seq.length := by
    rw [hqs, List.map_map, ← hfst]
    rfl
  obtain ⟨hcop, hmod⟩ := coprimes_of_fst h hqfst
  have hpos : 0 < (c.crt_mod.take seq.length).prod := by
    rw [← hmod]
    exact Residue.modulus_pos hcop.1
  unfold data_packing_crt
  rw [if_neg (by omega)]
  simp only [hzip]
  refine ⟨_, rfl, ?_⟩
  set f : ℤ × ℤ → ℤ := fun p => packResidue p.2 p.1 *
    ((c.crt_mod.take seq.length).prod / p.1) *
      Residue.invert ((c.crt_mod.take seq.length).prod / p.1) p.1 with hf
  have hrange := foldl_emod_range f hpos ps (show (0 : ℤ) ≤ 0 ∧ _ from ⟨le_refl 0, hpos⟩)
  have hfold := foldl_add_emod f (c.crt_mod.take seq.length).prod ps 0
  have hsum : (ps.map f).sum = (qs.map (Residue.summand (Residue.modulus qs))).sum := by
    rw [hqs, List.map_map, ← hqs, hmod]
    rfl
  rw [zero_add, hsum] at hfold
  refine ⟨hrange.1, hrange.2, ?_⟩
  intro p hp
  have hq : (p.1, packResidue p.2 p.1) ∈ qs := List.mem_map_of_mem hp
  have hdvd := Residue.dvd_modulus hq
  have hres := Residue.sum_summand_modEq hcop hq
  rw [hmod] at hdvd
  exact ((hfold.of_dvd hdvd).trans hres).trans (packResidue_modEq p.2 p.1)

/-- The first moduli mapped to a list. -/
theorem map_take_eq_iff {F : ℤ → ℤ} {ms seq : List ℤ} (hlen : seq.length ≤ ms.length) :
    (ms.take seq.length).map F = seq ↔ ∀ p ∈ ms.zip seq, F p.1 = p.2 := by
  induction seq generalizing ms with
  | nil => simp
  | cons x seq ih =>
      cases ms with
      | nil => simp at hlen
      | cons m ms =>
          rw [List.length_cons, List.length_cons] at hlen
          rw [List.length_cons, List.take_succ_cons, List.map_cons, List.zip_cons_cons,
            List.forall_mem_cons, List.cons_eq_cons, ih (by omega)]

/-- **When a number with the residues of a list is read as the list.** -/
theorem retrieve_iff (h : c.Usable dimension n) {v : ℤ} (hv : c.Holds v seq)
    (hseq : c.Allows seq) :
    data_retrieve_crt v c seq.length = .ok seq ↔ c.AvoidsHalf seq := by
  obtain ⟨hlen, hle⟩ := hseq
  unfold data_retrieve_crt
  rw [if_neg (by omega), h.half_eq, ← List.map_prod_left_eq_zip, ← List.map_take, List.map_map]
  rw [Except.ok.injEq, map_take_eq_iff (by rw [h.length_eq]; exact hlen)]
  have hread : ∀ p ∈ c.crt_mod.zip seq,
      (Residue.signed (v % p.1) p.1 (p.1 / 2) = p.2 ↔ p.2 ≠ p.1 / 2) := by
    intro p hp
    have hres : v % p.1 = p.2 % p.1 := hv p hp
    rw [hres]
    exact Residue.signed_emod_eq_iff (h.one_lt _ (List.of_mem_zip hp).1) (hle p hp)
  constructor
  · intro hall p hp
    exact (hread p hp).mp (hall p hp)
  · intro hall p hp
    exact (hread p hp).mpr (hall p hp)

theorem holds_of_retrieve (h : c.Usable dimension n) {v : ℤ} (hlen : seq.length ≤ c.crt_size)
    (hread : data_retrieve_crt v c seq.length = .ok seq) : c.Holds v seq := by
  unfold data_retrieve_crt at hread
  rw [if_neg (by omega), h.half_eq, ← List.map_prod_left_eq_zip, ← List.map_take, List.map_map,
    Except.ok.injEq, map_take_eq_iff (by rw [h.length_eq]; exact hlen)] at hread
  intro p hp
  have hp' : Residue.signed (v % p.1) p.1 (p.1 / 2) = p.2 := hread p hp
  rw [← hp']
  exact ((Residue.signed_modEq _ _ _).trans (Int.mod_modEq _ _)).symm

/-- A list of up to `dimension` numbers is packed into a number below `n`. -/
theorem prod_take_le (h : c.Usable dimension n) {size : ℕ} (hsize : size ≤ dimension) :
    (c.crt_mod.take size).prod ≤ n := by
  refine le_trans ?_ h.below
  have hsplit : c.crt_mod.take dimension =
      c.crt_mod.take size ++ (c.crt_mod.take dimension).drop size := by
    conv_lhs => rw [← List.take_append_drop size (c.crt_mod.take dimension)]
    rw [List.take_take, min_eq_left hsize]
  have hone : ∀ ms : List ℤ, (∀ m ∈ ms, m ∈ c.crt_mod) → 1 ≤ ms.prod := by
    intro ms hms
    induction ms with
    | nil => exact le_refl _
    | cons m ms ih =>
        have hm := h.one_lt m (hms m List.mem_cons_self)
        have := ih fun a ha => hms a (List.mem_cons_of_mem m ha)
        rw [List.prod_cons]
        nlinarith
  have hleft := hone (c.crt_mod.take size) fun m hm => List.mem_of_mem_take hm
  have hright := hone ((c.crt_mod.take dimension).drop size) fun m hm =>
    List.mem_of_mem_take (List.mem_of_mem_drop hm)
  rw [hsplit, List.prod_append]
  nlinarith

end Usable

end Fediux.Paillier
