import Fediux.Xgboost.HistSums

set_option autoImplicit false

/-! # The sums of a candidate and the children of its split

The running sums of the host take in the whole bucket at the cut, while the split of the guest
puts only the values below the cut to the left. `readsRealChildren_iff` says exactly when the
sums that are read are those of the child.
-/

namespace Fediux.Xgboost

open Grouping

variable {V F : Type} [LinearOrder F] (A : ColumnArith F) (P : Params)

/-! ## What the host should read -/

namespace Params

/-- The gradient that the code of a gradient stands for. -/
def carriedG (gh : GradHess) : ℚ :=
  if P.encrypted_proto.isSome then
    if P.merge_gh then (P.encodeG gh : ℚ) / 10 ^ 4 - const else (P.encodeG gh : ℚ) / ratio
  else gh.g

/-- The hessian that the code of a hessian stands for. -/
def carriedH (gh : GradHess) : ℚ :=
  if P.encrypted_proto.isSome then
    if P.merge_gh then (P.encodeH gh : ℚ) / 10 ^ 4 else (P.encodeH gh : ℚ) / ratio
  else gh.h

end Params

namespace Params

/-- The steps in which gradients and hessians are encoded. -/
def grid : ℚ := if P.merge_gh then 10 ^ 4 else ratio

variable {P}

/-- Only rounding to the grid comes between a gradient and what its code stands for. -/
theorem carriedG_eq {gh : GradHess} {z : ℤ} (hz : gh.g * P.grid = z) : P.carriedG gh = gh.g := by
  have hratio : ((ratio : ℤ) : ℚ) = 10 ^ 8 := by norm_num [ratio]
  unfold carriedG encodeG
  by_cases henc : P.encrypted_proto.isSome
  · by_cases hm : P.merge_gh
    · simp only [grid, hm, if_true] at hz
      have hcode : (gh.g + const) * 10 ^ 4 = ((z + const * 10 ^ 4 : ℤ) : ℚ) := by
        push_cast
        linarith
      simp only [henc, hm, if_true]
      rw [astypeInt_round_mul hcode, ← hcode]
      ring
    · simp only [grid, hm, if_false, Bool.false_eq_true] at hz
      simp only [henc, hm, if_true, if_false, Bool.false_eq_true, hz, astypeInt_intCast]
      rw [← hz, hratio]
      ring
  · simp [henc]

theorem carriedH_eq {gh : GradHess} {z : ℤ} (hz : gh.h * P.grid = z) : P.carriedH gh = gh.h := by
  have hratio : ((ratio : ℤ) : ℚ) = 10 ^ 8 := by norm_num [ratio]
  unfold carriedH encodeH
  by_cases henc : P.encrypted_proto.isSome
  · by_cases hm : P.merge_gh
    · simp only [grid, hm, if_true] at hz
      simp only [henc, hm, if_true]
      rw [astypeInt_round_mul hz, ← hz]
      ring
    · simp only [grid, hm, if_false, Bool.false_eq_true] at hz
      simp only [henc, hm, if_true, if_false, Bool.false_eq_true, hz, astypeInt_intCast]
      rw [← hz, hratio]
      ring
  · simp [henc]

end Params

/-- The sums of a candidate are those over the rows that its split puts to the left. -/
def Candidate.Real (rows : List (Row V F)) (c : Candidate V F) : Prop :=
  c.G_left = some (sumOf (fun r => P.carriedG r.gh) (guest_split rows c.var c.cut).1) ∧
    c.H_left = some (sumOf (fun r => P.carriedH r.gh) (guest_split rows c.var c.cut).1)

/-- The host gets the table of the candidates of the node, and reads in every row of it the sums
of the left child. -/
def ReadsRealChildren (cols : List V) (rows : List (Row V F)) : Prop :=
  ∃ gh_sums, guestCandidates A P cols rows = some gh_sums ∧ ∀ c ∈ gh_sums, c.Real P rows

/-! ## Where bucket and split differ -/

/-- The bucket of a row in the column `v` of the node. -/
def rowBucket (rows : List (Row V F)) (v : V) (r : Row V F) : F := bucketOf A Row.x rows v r

/-- The cuts of a column: the keys of its buckets. -/
def cutsOf (rows : List (Row V F)) (v : V) : List F := groupKeys (rowBucket A rows v) rows

def countedLeft (rows : List (Row V F)) (v : V) (c : F) (r : Row V F) : Bool :=
  decide (rowBucket A rows v r ≤ c)

def goesLeft (v : V) (c : F) (r : Row V F) : Bool := decide (r.x v < c)

/-- What the merged hessians of one bucket carry into its gradients. -/
def carryOf (rows : List (Row V F)) (v : V) (k : F) : ℤ :=
  if P.merge_gh then
    sumOf (fun r => P.encodeH r.gh) (groupRows (rowBucket A rows v) rows k) / ratio
  else 0

/-- The carries of the buckets up to the cut. -/
def carriesTo (rows : List (Row V F)) (v : V) (c : F) : ℤ :=
  sumOf (carryOf A P rows v) ((cutsOf A rows v).filter fun k => decide (k ≤ c))

/-- The rows that are counted on the left but go to the right weigh as much as those that go to
the left without being counted there; a carry moves `10 ^ 4` from the hessians to `1 / 10 ^ 4`
of the gradients. -/
def Level (rows : List (Row V F)) (v : V) (c : F) : Prop :=
  let counted := countedLeft A rows v c
  let real := goesLeft v c
  sumOf (fun r => P.carriedG r.gh) (rows.filter fun r => counted r && !real r) +
      (carriesTo A P rows v c : ℚ) / 10 ^ 4 =
    sumOf (fun r => P.carriedG r.gh) (rows.filter fun r => real r && !counted r) ∧
  sumOf (fun r => P.carriedH r.gh) (rows.filter fun r => counted r && !real r) =
    sumOf (fun r => P.carriedH r.gh) (rows.filter fun r => real r && !counted r) +
      (carriesTo A P rows v c : ℚ) * 10 ^ 4

/-! ## Sums of cells -/

theorem foldl_opt_paillier_add {α : Type} (m : α → ℤ) (rows : List α) (acc : ℤ) :
    (rows.map fun r => Cell.cipher (m r)).foldl opt_paillier_add (.cipher acc) =
      .cipher (acc + sumOf m rows) := by
  induction rows generalizing acc with
  | nil => simp
  | cons r rows ih =>
      rw [List.map_cons, List.foldl_cons, opt_paillier_add, ih, sumOf_cons, add_assoc]

/-- A group is never empty. -/
theorem atom_paillier_sum_cipher {α : Type} (m : α → ℤ) {rows : List α} (h : rows ≠ []) :
    atom_paillier_sum (rows.map fun r => Cell.cipher (m r)) = .cipher (sumOf m rows) := by
  cases rows with
  | nil => exact absurd rfl h
  | cons r rows =>
      rw [List.map_cons, atom_paillier_sum, foldl_opt_paillier_add, sumOf_cons]

theorem decrypt_foldl_plus (cells : List Cell) (c : Cell)
    (hc : opt_paillier_decrypt_crt c = none) :
    opt_paillier_decrypt_crt (cells.foldl Cell.plus c) = none := by
  induction cells generalizing c with
  | nil => exact hc
  | cons c' cells ih =>
      apply ih
      cases c <;> cases c' <;> rfl

/-- A sum of numbers is no ciphertext. -/
theorem decrypt_plain_sum {α : Type} (q : α → ℚ) (rows : List α) :
    opt_paillier_decrypt_crt (plain_sum (rows.map fun r => Cell.number (q r))) = none := by
  cases rows with
  | nil => rfl
  | cons r rows => exact decrypt_foldl_plus _ _ rfl

theorem cumsumFrom_some (acc : ℚ) (xs : List ℚ) :
    cumsumFrom acc (xs.map some) = (runningFrom acc xs).map some := by
  induction xs generalizing acc with
  | nil => rfl
  | cons x xs ih =>
      rw [List.map_cons, cumsumFrom, ih, runningFrom, List.map_cons]

theorem cumsumFrom_none {α : Type} (acc : ℚ) (xs : List α) :
    cumsumFrom acc (xs.map fun _ => none) = xs.map fun _ => none := by
  induction xs with
  | nil => rfl
  | cons x xs ih => rw [List.map_cons, cumsumFrom, ih]

/-- Running sums over the buckets of a column. -/
theorem cumsum_cuts (rows : List (Row V F)) (v : V) (f : F → ℚ) :
    cumsum ((cutsOf A rows v).map fun k => some (f k)) =
      (cutsOf A rows v).map fun c =>
        some (sumOf f ((cutsOf A rows v).filter fun k => decide (k ≤ c))) := by
  have hmap : (cutsOf A rows v).map (fun k => some (f k)) =
      ((cutsOf A rows v).map f).map some := by
    rw [List.map_map]
    rfl
  have hcuts : (cutsOf A rows v).Pairwise (· < ·) := pairwise_groupKeys _ _
  rw [hmap, cumsum, cumsumFrom_some, runningFrom_map f 0 _ hcuts, List.map_map]
  apply List.map_congr_left
  intro c _
  simp

theorem sumOf_intCast {α : Type} (f : α → ℤ) (rows : List α) :
    sumOf (fun r => (f r : ℚ)) rows = (sumOf f rows : ℤ) :=
  sumOf_hom (Int.castAddHom ℚ) f rows

theorem sumOf_div {α : Type} (f : α → ℚ) (d : ℚ) (rows : List α) :
    sumOf (fun r => f r / d) rows = sumOf f rows / d := by
  induction rows with
  | nil => simp
  | cons r rows ih => rw [sumOf_cons, sumOf_cons, ih, add_div]

theorem sumOf_mul {α : Type} (f : α → ℤ) (d : ℤ) (rows : List α) :
    sumOf (fun r => f r * d) rows = sumOf f rows * d :=
  sumOf_hom (AddMonoidHom.mulRight d) f rows

theorem sumOf_sub_const {α : Type} (f : α → ℚ) (d : ℚ) (rows : List α) :
    sumOf (fun r => f r - d) rows = sumOf f rows - d * rows.length := by
  induction rows with
  | nil => simp
  | cons r rows ih =>
      rw [sumOf_cons, sumOf_cons, ih, List.length_cons]
      push_cast
      ring

/-! ## The table of a column -/

theorem bucketOf_gh_en (rows : List (Row V F)) (v : V) :
    (fun r => bucketOf A GuestRow.x (rows.map P.gh_en) v (P.gh_en r)) =
      rowBucket A rows v := by
  have hx : ∀ r : Row V F, (P.gh_en r).x = r.x := by
    intro r
    unfold Params.gh_en
    split_ifs <;> rfl
  funext r
  simp [rowBucket, bucketOf, hx, Function.comp_def]

/-- The rows of the node in one bucket of a column. -/
def bucketRows (rows : List (Row V F)) (v : V) (k : F) : List (Row V F) :=
  groupRows (rowBucket A rows v) rows k

theorem bucketRows_ne_nil {rows : List (Row V F)} {v : V} {k : F} (hk : k ∈ cutsOf A rows v) :
    bucketRows A rows v k ≠ [] :=
  groupRows_ne_nil _ hk

/-- The groups that the guest makes are the buckets of the rows, with their cells. -/
theorem groups_gh_en (rows : List (Row V F)) (v : V) :
    ((groupKeys (bucketOf A GuestRow.x (rows.map P.gh_en) v) (rows.map P.gh_en)).map fun k =>
        (k, groupRows (bucketOf A GuestRow.x (rows.map P.gh_en) v) (rows.map P.gh_en) k)) =
      (cutsOf A rows v).map fun k => (k, (bucketRows A rows v k).map P.gh_en) := by
  rw [groupKeys_map, bucketOf_gh_en]
  apply List.map_congr_left
  intro k _
  rw [groupRows_map, bucketOf_gh_en]
  rfl

/-- The sum that the bucket `k` of the column `v` has under the encryption. -/
def sumG (rows : List (Row V F)) (v : V) (k : F) : ℤ :=
  if P.merge_gh then
    sumOf (fun r => P.encodeG r.gh * ratio + P.encodeH r.gh) (bucketRows A rows v k)
  else sumOf (fun r => P.encodeG r.gh) (bucketRows A rows v k)

def sumH (rows : List (Row V F)) (v : V) (k : F) : ℤ :=
  sumOf (fun r => P.encodeH r.gh) (bucketRows A rows v k)

theorem groupSums_encrypted (henc : P.encrypted_proto.isSome) (rows : List (Row V F)) (v : V) :
    groupSums A P (rows.map P.gh_en) v =
      some ((cutsOf A rows v).map fun k =>
        { key := k,
          sum_g := .cipher (sumG A P rows v k),
          sum_h := if P.merge_gh then .none else .cipher (sumH A P rows v k),
          count := some (bucketRows A rows v k).length }) := by
  simp only [groupSums, henc, if_true, groups_gh_en, List.map_map]
  congr 1
  apply List.map_congr_left
  intro k hk
  have hne := bucketRows_ne_nil A hk
  by_cases hm : P.merge_gh
  · have hg : ∀ r : Row V F, (P.gh_en r).g =
        .cipher (P.encodeG r.gh * ratio + P.encodeH r.gh) := fun r => by
      simp [Params.gh_en, henc, hm, opt_paillier_encrypt_crt]
    simp [hm, hg, Function.comp_def, atom_paillier_sum_cipher _ hne, sumG]
  · have hg : ∀ r : Row V F, (P.gh_en r).g = .cipher (P.encodeG r.gh) := fun r => by
      simp [Params.gh_en, henc, hm, opt_paillier_encrypt_crt]
    have hh : ∀ r : Row V F, (P.gh_en r).h = .cipher (P.encodeH r.gh) := fun r => by
      simp [Params.gh_en, henc, hm, opt_paillier_encrypt_crt]
    simp [hm, hg, hh, Function.comp_def, atom_paillier_sum_cipher _ hne, sumG, sumH]

/-! ## The sums that the host reads -/

/-- What the host makes of the sum of a bucket: the gradients with what the hessians carry. -/
def readG (rows : List (Row V F)) (v : V) (k : F) : ℚ :=
  sumOf (fun r => P.carriedG r.gh) (bucketRows A rows v k) + (carryOf A P rows v k : ℚ) / 10 ^ 4

def readH (rows : List (Row V F)) (v : V) (k : F) : ℚ :=
  sumOf (fun r => P.carriedH r.gh) (bucketRows A rows v k) - (carryOf A P rows v k : ℚ) * 10 ^ 4

theorem ratio_pos : 0 < ratio := by decide

section Merged

variable (henc : P.encrypted_proto.isSome) (hm : P.merge_gh = true)

include hm in
/-- Division by the ratio takes the gradients apart from the hessians, up to a carry. -/
theorem sumG_div_ratio (rows : List (Row V F)) (v : V) (k : F) :
    sumG A P rows v k / ratio =
      sumOf (fun r => P.encodeG r.gh) (bucketRows A rows v k) + carryOf A P rows v k := by
  rw [sumG, if_pos hm, sumOf_add, sumOf_mul, add_comm,
    Int.add_mul_ediv_right _ _ ratio_pos.ne', add_comm, carryOf, if_pos hm]
  rfl

omit [LinearOrder F] in
include henc hm in
theorem carriedG_merged (rows : List (Row V F)) :
    sumOf (fun r => P.carriedG r.gh) rows =
      (sumOf (fun r => P.encodeG r.gh) rows : ℤ) / 10 ^ 4 - const * rows.length := by
  have hc : ∀ r : Row V F, P.carriedG r.gh = (P.encodeG r.gh : ℚ) / 10 ^ 4 - const := fun r => by
    simp [Params.carriedG, henc, hm]
  simp only [hc]
  rw [sumOf_sub_const, sumOf_div, sumOf_intCast]

omit [LinearOrder F] in
include henc hm in
theorem carriedH_merged (rows : List (Row V F)) :
    sumOf (fun r => P.carriedH r.gh) rows =
      (sumOf (fun r => P.encodeH r.gh) rows : ℤ) / 10 ^ 4 := by
  have hc : ∀ r : Row V F, P.carriedH r.gh = (P.encodeH r.gh : ℚ) / 10 ^ 4 := fun r => by
    simp [Params.carriedH, henc, hm]
  simp only [hc]
  rw [sumOf_div, sumOf_intCast]

omit [LinearOrder F] in
theorem decrypted_g_mk (k : F) (s : ℤ) (sum_h : Option ℤ) (n : ℕ) :
    Decrypted.g { key := k, sum_g := some s, sum_h := sum_h, count := some n } =
      some (((s / ratio : ℤ) : ℚ) / 10 ^ 4 - const * n) := rfl

include henc hm in
theorem decrypted_g_merged (rows : List (Row V F)) (v : V) (k : F) (sum_h : Option ℤ) :
    Decrypted.g { key := k, sum_g := some (sumG A P rows v k), sum_h := sum_h,
                  count := some (bucketRows A rows v k).length } =
      some (readG A P rows v k) := by
  rw [decrypted_g_mk, sumG_div_ratio A P hm, readG, carriedG_merged P henc hm]
  push_cast
  congr 1
  ring

include henc hm in
theorem decrypted_h_merged (rows : List (Row V F)) (v : V) (k : F) (sum_h : Option ℤ)
    (count : Option ℕ) :
    Decrypted.h { key := k, sum_g := some (sumG A P rows v k), sum_h := sum_h, count := count } =
      some (readH A P rows v k) := by
  have hratio : ((ratio : ℤ) : ℚ) = 10 ^ 8 := by norm_num [ratio]
  rw [Decrypted.h, Option.map_some, sumG_div_ratio A P hm, readH, carriedH_merged P henc hm, sumG,
    if_pos hm, sumOf_add, sumOf_mul]
  congr 1
  push_cast
  rw [hratio]
  ring

end Merged

/-- The column after the decryption. -/
def decryptedTable (rows : List (Row V F)) (v : V) : List (Decrypted F) :=
  (cutsOf A rows v).map fun k =>
    { key := k,
      sum_g := some (sumG A P rows v k),
      sum_h := if P.merge_gh then none else some (sumH A P rows v k),
      count := some (bucketRows A rows v k).length }

/-- The groups come in the order of their keys. -/
theorem sort_values_decryptedTable (rows : List (Row V F)) (v : V) :
    sort_values (decryptedTable A P rows v) = decryptedTable A P rows v := by
  apply List.Pairwise.insertionSort_eq
  apply List.pairwise_map.mpr
  exact pairwise_le_groupKeys _ _

def leftG (rows : List (Row V F)) (v : V) (c : F) : ℚ :=
  sumOf (readG A P rows v) ((cutsOf A rows v).filter fun k => decide (k ≤ c))

def leftH (rows : List (Row V F)) (v : V) (c : F) : ℚ :=
  sumOf (readH A P rows v) ((cutsOf A rows v).filter fun k => decide (k ≤ c))

/-- A column of sums that are divided only after they are added up. -/
theorem map_div_cumsum (rows : List (Row V F)) (v : V) (f : F → ℤ) :
    (cumsum ((cutsOf A rows v).map fun k => some (f k : ℚ))).map (Option.map (· / (ratio : ℚ))) =
      (cutsOf A rows v).map fun c =>
        some (sumOf (fun k => (f k : ℚ) / ratio)
          ((cutsOf A rows v).filter fun k => decide (k ≤ c))) := by
  rw [cumsum_cuts, List.map_map]
  apply List.map_congr_left
  intro c _
  rw [sumOf_div]
  rfl

theorem readG_split (henc : P.encrypted_proto.isSome) (hm : ¬ P.merge_gh = true)
    (rows : List (Row V F)) (v : V) (k : F) :
    readG A P rows v k = (sumG A P rows v k : ℚ) / ratio := by
  have hc : ∀ r : Row V F, P.carriedG r.gh = (P.encodeG r.gh : ℚ) / ratio := fun r => by
    simp [Params.carriedG, henc, hm]
  rw [readG, carryOf, if_neg hm, sumG, if_neg hm]
  simp only [hc]
  rw [sumOf_div, sumOf_intCast]
  simp

theorem readH_split (henc : P.encrypted_proto.isSome) (hm : ¬ P.merge_gh = true)
    (rows : List (Row V F)) (v : V) (k : F) :
    readH A P rows v k = (sumH A P rows v k : ℚ) / ratio := by
  have hc : ∀ r : Row V F, P.carriedH r.gh = (P.encodeH r.gh : ℚ) / ratio := fun r => by
    simp [Params.carriedH, henc, hm]
  rw [readH, carryOf, if_neg hm, sumH]
  simp only [hc]
  rw [sumOf_div, sumOf_intCast]
  simp

theorem leftSums_decryptedTable (henc : P.encrypted_proto.isSome) (rows : List (Row V F))
    (v : V) :
    leftSums P (decryptedTable A P rows v) =
      (cutsOf A rows v).map fun c => (some (leftG A P rows v c), some (leftH A P rows v c)) := by
  by_cases hm : P.merge_gh
  · simp only [leftSums, hm, if_true, decryptedTable, List.map_map, Function.comp_def,
      decrypted_g_merged A P henc hm, decrypted_h_merged A P henc hm, cumsum_cuts, List.zip_map']
    rfl
  · simp only [leftSums, hm, decryptedTable, List.map_map, Function.comp_def, Option.map_some,
      if_false, Bool.false_eq_true, map_div_cumsum, List.zip_map']
    simp only [leftG, leftH, funext (readG_split A P henc hm rows v),
      funext (readH_split A P henc hm rows v)]

/-- **The candidates of a column**: one for each bucket, with the sums of the buckets up to
it. -/
theorem candidates_encrypted (henc : P.encrypted_proto.isSome) (rows : List (Row V F)) (v : V)
    (plain : GradHess) (table : List (GroupSum F))
    (htable : groupSums A P (rows.map P.gh_en) v = some table) :
    candidates P plain v table =
      (cutsOf A rows v).map fun c =>
        { var := v, cut := c,
          G_left := some (leftG A P rows v c), H_left := some (leftH A P rows v c),
          G_right := some (plain.g - leftG A P rows v c),
          H_right := some (plain.h - leftH A P rows v c) } := by
  rw [groupSums_encrypted A P henc, Option.some.injEq] at htable
  subst htable
  have hdec : ((cutsOf A rows v).map fun k =>
        ({ key := k,
           sum_g := .cipher (sumG A P rows v k),
           sum_h := if P.merge_gh then .none else .cipher (sumH A P rows v k),
           count := some (bucketRows A rows v k).length } : GroupSum F)).map (decryptRow P) =
      decryptedTable A P rows v := by
    rw [List.map_map]
    apply List.map_congr_left
    intro k _
    by_cases hm : P.merge_gh <;> simp [decryptRow, hm, opt_paillier_decrypt_crt]
  rw [candidates, hdec, sort_values_decryptedTable, leftSums_decryptedTable A P henc,
    List.map_map, List.zip_map', List.map_map]
  rfl

/-! ## The rows behind the sums -/

theorem leftG_eq (rows : List (Row V F)) (v : V) (c : F) :
    leftG A P rows v c =
      sumOf (fun r => P.carriedG r.gh) (rows.filter (countedLeft A rows v c)) +
        (carriesTo A P rows v c : ℚ) / 10 ^ 4 := by
  have hrows : sumOf (fun k => sumOf (fun r => P.carriedG r.gh) (bucketRows A rows v k))
      ((cutsOf A rows v).filter fun k => decide (k ≤ c)) =
        sumOf (fun r => P.carriedG r.gh) (rows.filter (countedLeft A rows v c)) :=
    sumOf_groupRows_le _ _ _ _
  have hsplit : leftG A P rows v c = _ := sumOf_add _ _ _
  rw [hsplit, hrows, sumOf_div, sumOf_intCast, carriesTo]

theorem leftH_eq (rows : List (Row V F)) (v : V) (c : F) :
    leftH A P rows v c =
      sumOf (fun r => P.carriedH r.gh) (rows.filter (countedLeft A rows v c)) -
        (carriesTo A P rows v c : ℚ) * 10 ^ 4 := by
  have hrows : sumOf (fun k => sumOf (fun r => P.carriedH r.gh) (bucketRows A rows v k))
      ((cutsOf A rows v).filter fun k => decide (k ≤ c)) =
        sumOf (fun r => P.carriedH r.gh) (rows.filter (countedLeft A rows v c)) :=
    sumOf_groupRows_le _ _ _ _
  have hmul : sumOf (fun k => (carryOf A P rows v k : ℚ) * 10 ^ 4)
      ((cutsOf A rows v).filter fun k => decide (k ≤ c)) =
        (carriesTo A P rows v c : ℚ) * 10 ^ 4 := by
    rw [carriesTo, ← sumOf_intCast]
    exact sumOf_hom (AddMonoidHom.mulRight ((10 : ℚ) ^ 4)) _ _
  have hsplit : leftH A P rows v c = _ := sumOf_sub _ _ _
  rw [hsplit, hrows, hmul]

theorem real_iff_level (rows : List (Row V F)) (v : V) (c : F) (G_right H_right : Option ℚ) :
    Candidate.Real P rows
        { var := v, cut := c, G_left := some (leftG A P rows v c),
          H_left := some (leftH A P rows v c), G_right := G_right, H_right := H_right } ↔
      Level A P rows v c := by
  have hG := sumOf_filter_add_sdiff (fun r : Row V F => P.carriedG r.gh)
    (countedLeft A rows v c) (goesLeft v c) rows
  have hH := sumOf_filter_add_sdiff (fun r : Row V F => P.carriedH r.gh)
    (countedLeft A rows v c) (goesLeft v c) rows
  have hleft : (guest_split rows v c).1 = rows.filter (goesLeft v c) := rfl
  simp only [Candidate.Real, Level, Option.some.injEq, hleft, leftG_eq, leftH_eq]
  constructor
  · rintro ⟨hg, hh⟩
    exact ⟨by linarith, by linarith⟩
  · rintro ⟨hg, hh⟩
    exact ⟨by linarith, by linarith⟩

/-! ## The table of the node -/

theorem mapM_some {α β : Type} (f : α → β) (l : List α) :
    l.mapM (fun a => some (f a)) = some (l.map f) :=
  List.mapM_pure

theorem sums_encrypted (henc : P.encrypted_proto.isSome) (cols : List V) {rows : List (Row V F)}
    (hrows : rows ≠ []) :
    ∃ tables : V → List (GroupSum F),
      (∀ v, groupSums A P (rows.map P.gh_en) v = some (tables v)) ∧
      sums_of_encrypted_ghs_with_ray A P cols (rows.map P.gh_en) =
        some (cols.map fun v => (v, tables v)) := by
  refine ⟨_, groupSums_encrypted A P henc rows, ?_⟩
  have hlen : ¬ (rows.map P.gh_en).length = 0 := by
    simpa using hrows
  simp only [sums_of_encrypted_ghs_with_ray, if_neg hlen, groupSums_encrypted A P henc,
    Option.map_some, mapM_some]

/-- With encryption the candidates are the cuts of the columns, and each is real where the rows
are level. -/
theorem readsRealChildren_encrypted (henc : P.encrypted_proto.isSome) (cols : List V)
    {rows : List (Row V F)} (hrows : rows ≠ []) :
    ReadsRealChildren A P cols rows ↔
      ∀ v ∈ cols, ∀ c ∈ cutsOf A rows v, Level A P rows v c := by
  obtain ⟨tables, htables, hsums⟩ := sums_encrypted A P henc cols hrows
  simp only [ReadsRealChildren, guestCandidates, hsums, Option.map_some, Option.some.injEq,
    exists_eq_left', gh_sums_decrypted_with_ray, List.flatMap_map,
    candidates_encrypted A P henc rows _ _ _ (htables _), List.forall_mem_flatMap,
    List.forall_mem_map, real_iff_level]

section Plain

variable (henc : ¬ P.encrypted_proto.isSome = true)

include henc in
theorem groupSums_plain (hm : ¬ P.merge_gh = true) (rows : List (Row V F)) (v : V) :
    groupSums A P (rows.map P.gh_en) v =
      some ((cutsOf A rows v).map fun k =>
        { key := k,
          sum_g := plain_sum ((bucketRows A rows v k).map fun r => .number r.gh.g),
          sum_h := plain_sum ((bucketRows A rows v k).map fun r => .number r.gh.h),
          count := none }) := by
  have hcell : ∀ r : Row V F, P.gh_en r = { x := r.x, g := .number r.gh.g, h := .number r.gh.h } :=
    fun r => by simp [Params.gh_en, henc]
  simp only [groupSums, henc, hm, groups_gh_en, List.map_map, if_false, Bool.false_eq_true,
    Function.comp_def]
  simp only [hcell]

/-- A number of the guest is `None` after the decryption, and what is added up from it too. -/
theorem candidates_plain (hm : ¬ P.merge_gh = true) (rows : List (Row V F)) (v : V)
    (plain : GradHess) (g h : F → List (Row V F)) :
    candidates P plain v ((cutsOf A rows v).map fun k =>
        { key := k,
          sum_g := plain_sum ((g k).map fun r => .number r.gh.g),
          sum_h := plain_sum ((h k).map fun r => .number r.gh.h),
          count := none }) =
      (cutsOf A rows v).map fun c =>
        { var := v, cut := c, G_left := none, H_left := none, G_right := none,
          H_right := none } := by
  have hdec : ((cutsOf A rows v).map fun k =>
        ({ key := k,
           sum_g := plain_sum ((g k).map fun r => .number r.gh.g),
           sum_h := plain_sum ((h k).map fun r => .number r.gh.h),
           count := none } : GroupSum F)).map (decryptRow P) =
      (cutsOf A rows v).map fun k => { key := k, sum_g := none, sum_h := none, count := none } := by
    rw [List.map_map]
    apply List.map_congr_left
    intro k _
    simp [decryptRow, decrypt_plain_sum]
  have hsort : sort_values ((cutsOf A rows v).map fun k =>
        ({ key := k, sum_g := none, sum_h := none, count := none } : Decrypted F)) =
      (cutsOf A rows v).map fun k => { key := k, sum_g := none, sum_h := none, count := none } := by
    apply List.Pairwise.insertionSort_eq
    apply List.pairwise_map.mpr
    exact pairwise_le_groupKeys _ _
  rw [candidates, hdec, hsort]
  simp only [leftSums, hm, if_false, Bool.false_eq_true, List.map_map, Function.comp_def,
    Option.map_none, cumsum, cumsumFrom_none, List.zip_map']

include henc in
/-- Without encryption the host reads no sum of a column. -/
theorem not_readsRealChildren_plain (v : V) (cols : List V) (rows : List (Row V F)) :
    ¬ ReadsRealChildren A P (v :: cols) rows := by
  rintro ⟨gh_sums, hsome, hreal⟩
  simp only [guestCandidates, sums_of_encrypted_ghs_with_ray, List.length_map] at hsome
  by_cases hrows : rows.length = 0
  · simp [hrows] at hsome
  by_cases hm : P.merge_gh
  · -- the groups have no column `h` to sum
    simp [hrows, groupSums, henc, hm] at hsome
  · have hne : cutsOf A rows v ≠ [] := groupKeys_ne_nil _ (List.length_pos_iff.mp (by omega))
    obtain ⟨c, hc⟩ := List.exists_mem_of_ne_nil _ hne
    simp only [hrows, if_false, groupSums_plain A P henc hm, Option.map_some] at hsome
    rw [mapM_some, Option.map_some, Option.some.injEq] at hsome
    have hmem : ({ var := v, cut := c, G_left := none, H_left := none, G_right := none,
                   H_right := none } : Candidate V F) ∈ gh_sums := by
      rw [← hsome, gh_sums_decrypted_with_ray, List.map_cons, List.flatMap_cons]
      apply List.mem_append_left
      simp only [candidates_plain A P hm]
      exact List.mem_map.mpr ⟨c, hc, rfl⟩
    exact Option.some_ne_none _ (hreal _ hmem).1.symm

end Plain

/-- No sum is made of no row. -/
theorem not_readsRealChildren_nil (cols : List V) : ¬ ReadsRealChildren A P cols [] := by
  rintro ⟨gh_sums, hsome, _⟩
  simp [guestCandidates, sums_of_encrypted_ghs_with_ray] at hsome

/-- **When the host reads the sums of the real children**: with encryption, when for every
candidate the rows in the buckets up to the cut weigh as much as the rows below the cut. -/
theorem readsRealChildren_iff (cols : List V) (rows : List (Row V F)) :
    ReadsRealChildren A P cols rows ↔
      rows ≠ [] ∧ ∀ v ∈ cols, P.encrypted_proto.isSome = true ∧
        ∀ c ∈ cutsOf A rows v, Level A P rows v c := by
  by_cases hrows : rows = []
  · subst hrows
    simp [not_readsRealChildren_nil]
  by_cases henc : P.encrypted_proto.isSome = true
  · simp [readsRealChildren_encrypted A P henc cols hrows, henc, hrows]
  · cases cols with
    | nil => simp [ReadsRealChildren, guestCandidates, sums_of_encrypted_ghs_with_ray,
        gh_sums_decrypted_with_ray, hrows]
    | cons v cols =>
        constructor
        · intro h
          exact absurd h (not_readsRealChildren_plain A P henc v cols rows)
        · rintro ⟨_, hcols⟩
          exact absurd (hcols v (List.mem_cons_self ..)).1 henc

/-- Two rows with the values 1 and 2 in one column. -/
def twoRows : List (Row String ℚ) :=
  [{ x := fun _ => 1, gh := { g := 1 / 2, h := 1 / 4 } },
   { x := fun _ => 2, gh := { g := -1 / 2, h := 1 / 4 } }]

/-- At the cut 1 the host reads the first row on the left, where the guest puts no row. -/
theorem not_readsRealChildren_twoRows :
    ¬ ReadsRealChildren exactArith { merge_gh := true, encrypted_proto := some "paillier" }
      ["age"] twoRows := by
  rintro ⟨gh_sums, hsome, hreal⟩
  have hread : guestCandidates exactArith
      { merge_gh := true, encrypted_proto := some "paillier" } ["age"] twoRows =
        some [{ var := "age", cut := 1, G_left := some (1 / 2), H_left := some (1 / 4),
                G_right := some (-1 / 2), H_right := some (1 / 4) },
              { var := "age", cut := 751 / 500, G_left := some 0, H_left := some (1 / 2),
                G_right := some 0, H_right := some 0 }] := by
    decide +kernel
  rw [hread, Option.some.injEq] at hsome
  subst hsome
  have hfirst := (hreal _ (List.mem_cons_self ..)).1
  norm_num [guest_split, twoRows] at hfirst

/-! ## Positive hessians -/

theorem sumOf_pos {α : Type} {f : α → ℚ} {rows : List α} {r : α} (hr : r ∈ rows)
    (hpos : ∀ r ∈ rows, 0 < f r) : 0 < sumOf f rows := by
  apply List.sum_pos
  · simpa using hpos
  · simpa using List.ne_nil_of_mem hr

/-- Where all rows that go to the left are counted there, and hessians are positive and do not
carry, no row may be in a bucket up to the cut without being below the cut. -/
theorem level_iff_of_counted {rows : List (Row V F)} {v : V} {c : F}
    (hcounted : ∀ r ∈ rows, c < rowBucket A rows v r → c ≤ r.x v)
    (hpos : ∀ r ∈ rows, 0 < P.carriedH r.gh) (hcarry : carriesTo A P rows v c = 0) :
    Level A P rows v c ↔ ∀ r ∈ rows, ¬ (rowBucket A rows v r ≤ c ∧ c ≤ r.x v) := by
  have hreal : rows.filter (fun r => goesLeft v c r && !countedLeft A rows v c r) = [] := by
    apply List.filter_eq_nil_iff.mpr
    intro r hr
    simp only [goesLeft, countedLeft, Bool.and_eq_true, decide_eq_true_eq, Bool.not_eq_true',
      decide_eq_false_iff_not, not_and, not_not]
    intro hlt
    by_contra hbucket
    exact absurd (hcounted r hr (not_le.mp hbucket)) (not_le.mpr hlt)
  constructor
  · rintro ⟨_, hH⟩ r hr ⟨hbucket, hcut⟩
    have hmem : r ∈ rows.filter (fun r => countedLeft A rows v c r && !goesLeft v c r) := by
      simp [hr, countedLeft, goesLeft, hbucket, hcut]
    have hsum := sumOf_pos hmem fun r' hr' => hpos r' (List.mem_of_mem_filter hr')
    rw [hreal, hcarry, sumOf_nil] at hH
    simp [hsum.ne'] at hH
  · intro hnone
    have hcount : rows.filter (fun r => countedLeft A rows v c r && !goesLeft v c r) = [] := by
      apply List.filter_eq_nil_iff.mpr
      intro r hr
      have hr' := hnone r hr
      simp only [not_and, not_le] at hr'
      simpa [goesLeft, countedLeft] using hr'
    simp [Level, hreal, hcount, hcarry]

/-- A column that is not put into buckets is read wrong at every cut. -/
theorem not_level_of_inSetCols {rows : List (Row V F)} {v : V} {c : F}
    (hraw : inSetCols A (rows.map fun r => r.x v) = true) (hc : c ∈ cutsOf A rows v)
    (hpos : ∀ r ∈ rows, 0 < P.carriedH r.gh) (hcarry : carriesTo A P rows v c = 0) :
    ¬ Level A P rows v c := by
  have hbucket : ∀ r, rowBucket A rows v r = r.x v := fun r => by
    rw [rowBucket, bucketOf, assign_bucket, if_pos hraw]
  obtain ⟨r, hr, hrc⟩ := (mem_groupKeys _).mp hc
  intro hlevel
  have hcounted : ∀ r ∈ rows, c < rowBucket A rows v r → c ≤ r.x v := fun r _ h => by
    rw [hbucket] at h
    exact h.le
  apply (level_iff_of_counted A P hcounted hpos hcarry).mp hlevel r hr
  exact ⟨hrc.le, by rw [← hrc, hbucket]⟩

/-! ## Exact arithmetic -/

theorem roundHalfEven_le (q : ℚ) : (roundHalfEven q : ℚ) ≤ q + 1 / 2 := by
  have hfloor : (⌊q⌋ : ℚ) ≤ q := Int.floor_le q
  unfold roundHalfEven
  dsimp only
  split_ifs
  · linarith
  · push_cast
    linarith
  · linarith
  · push_cast
    linarith

/-- The lower edge of a bucket is not above the values in it. -/
theorem edge_le {lo w s : ℚ} (hw : 0 < w) : lo + (⌈((⌊(s - lo) / w⌋ : ℤ) : ℚ)⌉ : ℤ) * w ≤ s := by
  have hfloor : (⌊(s - lo) / w⌋ : ℚ) ≤ (s - lo) / w := Int.floor_le _
  have hmul := mul_le_mul_of_nonneg_right hfloor hw.le
  rw [div_mul_cancel₀ _ hw.ne'] at hmul
  rw [Int.ceil_intCast]
  linarith

/-- The key of a bucket is its lower edge, rounded. -/
theorem rowBucket_exact {V : Type} {rows : List (Row V ℚ)} (hrows : rows ≠ []) (v : V)
    (hraw : ¬ inSetCols exactArith (rows.map fun r => r.x v) = true) :
    ∃ edge : ℚ → ℚ, (∀ s, edge s ≤ s) ∧
      ∀ r, rowBucket exactArith rows v r = round (edge (r.x v)) 3 := by
  have hcol : (rows.map fun r => r.x v) ≠ [] := by simpa using hrows
  obtain ⟨lo, hlo⟩ := Option.isSome_iff_exists.mp (List.isSome_min?_of_ne_nil hcol)
  obtain ⟨hi, hhi⟩ := Option.isSome_iff_exists.mp (List.isSome_max?_of_ne_nil hcol)
  have hlohi : lo ≤ hi := (List.max?_eq_some_iff.mp hhi).2 lo (List.min?_eq_some_iff.mp hlo).1
  let n := bins exactArith (rows.map fun r => r.x v).length
  have hn : (0 : ℚ) < n := by
    have htwo : 2 ≤ n := le_max_right _ _
    exact_mod_cast Nat.lt_of_lt_of_le Nat.zero_lt_two htwo
  have hw : 0 < (hi + 5 / 1000 - lo) / n := by
    apply div_pos _ hn
    linarith
  refine ⟨fun s => lo + (⌈((⌊(s - lo) / ((hi + 5 / 1000 - lo) / n)⌋ : ℤ) : ℚ)⌉ : ℤ) *
    ((hi + 5 / 1000 - lo) / n), fun s => edge_le hw, ?_⟩
  intro r
  rw [rowBucket, bucketOf, assign_bucket, if_neg hraw, hlo, hhi]
  rfl

/-- A key above a cut belongs to values above the cut, although keys are rounded. -/
theorem cut_le_of_cut_lt_rowBucket {V : Type} {rows : List (Row V ℚ)} {v : V} {c : ℚ}
    (hc : c ∈ cutsOf exactArith rows v) (r : Row V ℚ) (h : c < rowBucket exactArith rows v r) :
    c ≤ r.x v := by
  by_cases hraw : inSetCols exactArith (rows.map fun r => r.x v) = true
  · rw [rowBucket, bucketOf, assign_bucket, if_pos hraw] at h
    exact h.le
  · obtain ⟨r', hr', hr'c⟩ := (mem_groupKeys _).mp hc
    obtain ⟨edge, hedge, hkey⟩ := rowBucket_exact (List.ne_nil_of_mem hr') v hraw
    -- both are thousandths, so the key is above the cut by one of them at least
    have hcut : roundHalfEven (edge (r'.x v) * 10 ^ 3) = c * 10 ^ 3 := by
      rw [← hr'c, hkey, round, div_mul_cancel₀ _ (by norm_num)]
    rw [hkey, round, lt_div_iff₀ (by norm_num), ← hcut] at h
    have hstep : (roundHalfEven (edge (r'.x v) * 10 ^ 3) : ℚ) + 1 ≤
        roundHalfEven (edge (r.x v) * 10 ^ 3) := by
      exact_mod_cast h
    have hround := roundHalfEven_le (edge (r.x v) * 10 ^ 3)
    have hle := hedge (r.x v)
    norm_num at hcut hstep hround
    linarith

/-- **In exact arithmetic**, with hessians that are positive and do not carry, the sums of a cut
are real exactly when no row is in a bucket up to the cut without being below the cut. -/
theorem level_exact_iff {V : Type} {rows : List (Row V ℚ)} {v : V} {c : ℚ}
    (hc : c ∈ cutsOf exactArith rows v) (hpos : ∀ r ∈ rows, 0 < P.carriedH r.gh)
    (hcarry : carriesTo exactArith P rows v c = 0) :
    Level exactArith P rows v c ↔
      ∀ r ∈ rows, ¬ (rowBucket exactArith rows v r ≤ c ∧ c ≤ r.x v) :=
  level_iff_of_counted exactArith P (fun r _ => cut_le_of_cut_lt_rowBucket hc r) hpos hcarry

end Fediux.Xgboost
