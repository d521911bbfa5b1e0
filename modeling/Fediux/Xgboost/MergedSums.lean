import Fediux.Xgboost.RealChildren

set_option autoImplicit false

/-! # Merged gradients and hessians

With `merge_gh` the host puts the gradient and the hessian of a row into one integer, both to four
decimals, the gradient raised by `const` and above a radix `ratio`. The guest adds up the
ciphertexts of a bucket, and the host takes the sum apart by a division. `decodes_iff` says when it
gets the two sums back: the hessians of the bucket have to stay below the radix.
-/

namespace Fediux.Xgboost

open Grouping

/-! ## Rounding to the grid -/

/-- An even number shifts the rounded one. -/
theorem roundHalfEven_add_even (q : ℚ) (z : ℤ) :
    roundHalfEven (q + (2 * z : ℤ)) = roundHalfEven q + 2 * z := by
  have hrest : q + ((2 * z : ℤ) : ℚ) - ((⌊q⌋ + 2 * z : ℤ) : ℚ) = q - ⌊q⌋ := by
    push_cast
    ring
  have hparity : (⌊q⌋ + 2 * z) % 2 = ⌊q⌋ % 2 := by omega
  unfold roundHalfEven
  dsimp only
  rw [Int.floor_add_intCast, hrest, hparity]
  split_ifs <;> ring

/-- Rounding does not go below an integer bound. -/
theorem roundHalfEven_nonneg {q : ℚ} (hq : 0 ≤ q) : 0 ≤ roundHalfEven q := by
  have hfloor : 0 ≤ ⌊q⌋ := Int.floor_nonneg.mpr hq
  unfold roundHalfEven
  dsimp only
  split_ifs <;> omega

theorem roundHalfEven_le_intCast {q : ℚ} {z : ℤ} (hq : q ≤ z) : roundHalfEven q ≤ z := by
  have hround := roundHalfEven_le q
  have hlt : (roundHalfEven q : ℚ) < (z + 1 : ℤ) := by
    push_cast
    linarith
  have hle : roundHalfEven q < z + 1 := by exact_mod_cast hlt
  omega

theorem ediv_ratio_eq_zero_iff {s : ℤ} (hs : 0 ≤ s) : s / ratio = 0 ↔ s < ratio := by
  unfold ratio
  omega

theorem round_mul (q : ℚ) (decimals : ℕ) :
    round q decimals * 10 ^ decimals = roundHalfEven (q * 10 ^ decimals) :=
  div_mul_cancel₀ _ (pow_ne_zero decimals (by norm_num))

namespace Params

variable {P : Params}

/-- The code of a gradient, `const` included. -/
theorem encodeG_merged (hm : P.merge_gh = true) (gh : GradHess) :
    P.encodeG gh = roundHalfEven (gh.g * 10 ^ 4) + 2 * 10 ^ 4 := by
  have hshift : (gh.g + const) * 10 ^ 4 = gh.g * 10 ^ 4 + ((2 * 10 ^ 4 : ℤ) : ℚ) := by
    norm_num [const]
    ring
  rw [encodeG, if_pos hm, round_mul, astypeInt_intCast, hshift, roundHalfEven_add_even]

theorem encodeH_merged (hm : P.merge_gh = true) (gh : GradHess) :
    P.encodeH gh = roundHalfEven (gh.h * 10 ^ 4) := by
  rw [encodeH, if_pos hm, round_mul, astypeInt_intCast]

variable (henc : P.encrypted_proto.isSome) (hm : P.merge_gh = true)

include henc hm in
/-- Once `const` is taken off, the code of a gradient stands for the rounded gradient. -/
theorem carriedG_eq_round (gh : GradHess) : P.carriedG gh = round gh.g 4 := by
  rw [carriedG, if_pos henc, if_pos hm, encodeG_merged hm, round]
  norm_num [const]
  ring

include henc hm in
theorem carriedH_eq_round (gh : GradHess) : P.carriedH gh = round gh.h 4 := by
  rw [carriedH, if_pos henc, if_pos hm, encodeH_merged hm, round]

end Params

/-! ## The logistic objective -/

/-- The gradient `p - y` and the hessian `p (1 - p)` of a probability `p` and a label `y`. -/
structure GradHess.Logistic (gh : GradHess) : Prop where
  neg_one_le_g : -1 ≤ gh.g
  g_le_one : gh.g ≤ 1
  h_nonneg : 0 ≤ gh.h
  h_le_quarter : gh.h ≤ 1 / 4

variable {V F : Type} [LinearOrder F] (A : ColumnArith F) (P : Params)

/-- The host decodes the entry of the bucket `k` to the sums of the rounded gradients and of the
rounded hessians of its rows. -/
def Decodes (rows : List (Row V F)) (v : V) (k : F) : Prop :=
  ∃ table, groupSums A P (rows.map P.gh_en) v = some table ∧ ∃ b ∈ table, b.key = k ∧
    (decryptRow P b).g = some (sumOf (fun r => round r.gh.g 4) (bucketRows A rows v k)) ∧
    (decryptRow P b).h = some (sumOf (fun r => round r.gh.h 4) (bucketRows A rows v k))

section Merged

variable {A P}
variable (henc : P.encrypted_proto.isSome) (hm : P.merge_gh = true)

include henc hm in
/-- Only the carry stands between what the host reads and the two sums. -/
theorem decodes_iff_carryOf {rows : List (Row V F)} {v : V} {k : F}
    (hk : k ∈ cutsOf A rows v) : Decodes A P rows v k ↔ carryOf A P rows v k = 0 := by
  have hreadG : readG A P rows v k =
      sumOf (fun r => round r.gh.g 4) (bucketRows A rows v k) +
        (carryOf A P rows v k : ℚ) / 10 ^ 4 := by
    simp only [readG, Params.carriedG_eq_round henc hm]
  have hreadH : readH A P rows v k =
      sumOf (fun r => round r.gh.h 4) (bucketRows A rows v k) -
        (carryOf A P rows v k : ℚ) * 10 ^ 4 := by
    simp only [readH, Params.carriedH_eq_round henc hm]
  have hentry : ∀ k, let b : GroupSum F :=
        { key := k, sum_g := .cipher (sumG A P rows v k),
          sum_h := if P.merge_gh then .none else .cipher (sumH A P rows v k),
          count := some (bucketRows A rows v k).length }
      (decryptRow P b).g = some (readG A P rows v k) ∧
        (decryptRow P b).h = some (readH A P rows v k) := by
    intro k
    exact ⟨decrypted_g_merged A P henc hm rows v k _, decrypted_h_merged A P henc hm rows v k _ _⟩
  rw [Decodes, groupSums_encrypted A P henc]
  constructor
  · rintro ⟨_, htable, b, hb, hkey, -, hh⟩
    rw [← Option.some.inj htable] at hb
    obtain ⟨k', -, rfl⟩ := List.mem_map.mp hb
    obtain rfl : k' = k := hkey
    rw [(hentry k').2, hreadH, Option.some.injEq] at hh
    have hzero : (carryOf A P rows v k' : ℚ) = 0 := by linarith
    exact_mod_cast hzero
  · intro hcarry
    refine ⟨_, rfl, _, List.mem_map_of_mem hk, rfl, ?_, ?_⟩
    · rw [(hentry k).1, hreadG, hcarry]
      simp
    · rw [(hentry k).2, hreadH, hcarry]
      simp

include hm in
/-- Hessians that are not negative carry once they reach the radix. -/
theorem carryOf_eq_zero_iff {rows : List (Row V F)} (hrows : ∀ r ∈ rows, 0 ≤ r.gh.h) (v : V)
    (k : F) :
    carryOf A P rows v k = 0 ↔
      sumOf (fun r => round r.gh.h 4) (bucketRows A rows v k) < 10 ^ 4 := by
  have hnonneg : 0 ≤ sumOf (fun r => P.encodeH r.gh) (bucketRows A rows v k) := by
    apply List.sum_nonneg
    intro code hcode
    obtain ⟨r, hr, rfl⟩ := List.mem_map.mp hcode
    rw [Params.encodeH_merged hm]
    exact roundHalfEven_nonneg (mul_nonneg (hrows r (List.mem_of_mem_filter hr)) (by norm_num))
  have hsum : sumOf (fun r => round r.gh.h 4) (bucketRows A rows v k) =
      (sumOf (fun r => P.encodeH r.gh) (bucketRows A rows v k) : ℤ) / 10 ^ 4 := by
    simp only [round, Params.encodeH_merged hm]
    rw [sumOf_div, sumOf_intCast]
  calc carryOf A P rows v k = 0
      ↔ sumOf (fun r => P.encodeH r.gh) (bucketRows A rows v k) / ratio = 0 := by
        rw [carryOf, if_pos hm]
        rfl
    _ ↔ sumOf (fun r => P.encodeH r.gh) (bucketRows A rows v k) < ratio := by
        exact ediv_ratio_eq_zero_iff hnonneg
    _ ↔ ((sumOf (fun r => P.encodeH r.gh) (bucketRows A rows v k) : ℤ) : ℚ) < 10 ^ 8 := by
        rw [← Int.cast_lt (R := ℚ)]
        norm_num [ratio]
    _ ↔ _ := by
        rw [hsum, div_lt_iff₀ (by norm_num)]
        norm_num

end Merged

/-- **When the host gets the sums of a bucket back**: when the rounded hessians of its rows add up
to less than the radix has room for. -/
theorem decodes_iff (henc : P.encrypted_proto.isSome) (hm : P.merge_gh = true)
    {rows : List (Row V F)} (hrows : ∀ r ∈ rows, r.gh.Logistic) {v : V} {k : F}
    (hk : k ∈ cutsOf A rows v) :
    Decodes A P rows v k ↔
      sumOf (fun r => round r.gh.h 4) (bucketRows A rows v k) < 10 ^ 4 := by
  rw [decodes_iff_carryOf henc hm hk, carryOf_eq_zero_iff hm fun r hr => (hrows r hr).h_nonneg]

/-- The bucket of the first of two rows. -/
theorem decodes_twoRows :
    Decodes exactArith { merge_gh := true, encrypted_proto := some "paillier" } twoRows "age" 1 ↔
      sumOf (fun r => round r.gh.h 4) (bucketRows exactArith twoRows "age" 1) < 10 ^ 4 := by
  apply decodes_iff _ _ rfl rfl
  · intro r hr
    simp only [twoRows, List.mem_cons, List.not_mem_nil, or_false] at hr
    rcases hr with rfl | rfl <;> constructor <;> norm_num
  · decide +kernel

/-! ## How many rows fit -/

/-- A hessian of the logistic objective takes at most a quarter of `10 ^ 4`. -/
theorem round_h_le {gh : GradHess} (hgh : gh.Logistic) : round gh.h 4 ≤ 1 / 4 := by
  have hle : gh.h * 10 ^ 4 ≤ (2500 : ℤ) := by
    have h := hgh.h_le_quarter
    push_cast
    linarith
  have hround : ((roundHalfEven (gh.h * 10 ^ 4) : ℤ) : ℚ) ≤ 2500 := by
    exact_mod_cast roundHalfEven_le_intCast hle
  rw [round, div_le_iff₀ (by norm_num)]
  norm_num
  exact hround

/-- Up to 39999 rows in a bucket never carry. -/
theorem decodes_of_length_lt (henc : P.encrypted_proto.isSome) (hm : P.merge_gh = true)
    {rows : List (Row V F)} (hrows : ∀ r ∈ rows, r.gh.Logistic) {v : V} {k : F}
    (hk : k ∈ cutsOf A rows v) (hlength : (bucketRows A rows v k).length < 40000) :
    Decodes A P rows v k := by
  apply (decodes_iff_carryOf henc hm hk).mpr
  apply (carryOf_eq_zero_iff hm (fun r hr => (hrows r hr).h_nonneg) v k).mpr
  have hbound : sumOf (fun r => round r.gh.h 4) (bucketRows A rows v k) ≤
      (bucketRows A rows v k).length • (1 / 4 : ℚ) := by
    have h := List.sum_le_card_nsmul ((bucketRows A rows v k).map fun r => round r.gh.h 4) (1 / 4)
    rw [List.length_map] at h
    apply h
    intro q hq
    obtain ⟨r, hr, rfl⟩ := List.mem_map.mp hq
    exact round_h_le (hrows r (List.mem_of_mem_filter hr))
  have hcast : ((bucketRows A rows v k).length : ℚ) < 40000 := by exact_mod_cast hlength
  rw [nsmul_eq_mul] at hbound
  linarith

/-- A row of an undecided model: `p = 1 / 2` and `y = 1`. -/
def undecided : Row String ℚ := { x := fun _ => 1, gh := { g := -1 / 2, h := 1 / 4 } }

theorem logistic_undecided : undecided.gh.Logistic := by constructor <;> norm_num [undecided]

section Undecided

variable {n : ℕ} (hn : n ≠ 0)

include hn in
/-- The column has one value, so it is not put into buckets. -/
theorem rowBucket_undecided :
    rowBucket exactArith (List.replicate n undecided) "age" undecided = 1 := by
  have hdedup : (List.replicate n (undecided.x "age")).dedup = [1] := List.replicate_dedup hn
  have hraw : inSetCols exactArith ((List.replicate n undecided).map fun r => r.x "age") =
      true := by
    rw [inSetCols, List.map_replicate, hdedup, decide_eq_true_eq]
    exact lt_of_lt_of_le Nat.one_lt_two (le_max_right _ _)
  rw [rowBucket, bucketOf, assign_bucket, if_pos hraw]
  rfl

include hn in
theorem mem_cutsOf_undecided : 1 ∈ cutsOf exactArith (List.replicate n undecided) "age" :=
  (mem_groupKeys _).mpr
    ⟨undecided, List.mem_replicate.mpr ⟨hn, rfl⟩, rowBucket_undecided hn⟩

include hn in
theorem bucketRows_undecided :
    bucketRows exactArith (List.replicate n undecided) "age" 1 = List.replicate n undecided := by
  apply List.filter_eq_self.mpr
  intro r hr
  rw [List.eq_of_mem_replicate hr, rowBucket_undecided hn]
  rfl

end Undecided

/-- With 40000 such rows in one bucket, `10 ^ 8` of hessians carry 1 into the gradients. -/
theorem not_decodes_undecided :
    (∀ r ∈ List.replicate 40000 undecided, r.gh.Logistic) ∧
      1 ∈ cutsOf exactArith (List.replicate 40000 undecided) "age" ∧
      ¬ Decodes exactArith { merge_gh := true, encrypted_proto := some "paillier" }
        (List.replicate 40000 undecided) "age" 1 := by
  have hn : 40000 ≠ 0 := by norm_num
  have hlogistic : ∀ r ∈ List.replicate 40000 undecided, r.gh.Logistic := fun r hr =>
    List.eq_of_mem_replicate hr ▸ logistic_undecided
  have hquarter : round undecided.gh.h 4 = 1 / 4 := by decide +kernel
  refine ⟨hlogistic, mem_cutsOf_undecided hn, ?_⟩
  rw [decodes_iff_carryOf rfl rfl (mem_cutsOf_undecided hn),
    carryOf_eq_zero_iff rfl fun r hr => (hlogistic r hr).h_nonneg, bucketRows_undecided hn, sumOf,
    List.map_replicate, List.sum_replicate, hquarter]
  norm_num

end Fediux.Xgboost
