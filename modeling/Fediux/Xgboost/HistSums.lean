import Fediux.Basic.Grouping

set_option autoImplicit false

/-! # Sums of gradients and hessians over buckets

In `ray_group` mode the guest of a vertical GBT puts the values of a column into buckets and sums
the encrypted gradients and hessians over each (`sums_of_encrypted_ghs_with_ray`). The host
decrypts the sums of the buckets and adds them up in the order of the buckets: the `G_left` and
`H_left` of a candidate cut (`gh_sums_decrypted_with_ray`). The guest itself splits a node by a
comparison on the column (`guest_tree_construct`).
-/

namespace Fediux.Xgboost

open Grouping

/-! ## Numbers -/

/-- To the nearest integer, to the even one from the middle. -/
def roundHalfEven (q : ℚ) : ℤ :=
  let below := ⌊q⌋
  let rest := q - below
  if rest < 1 / 2 then below
  else if 1 / 2 < rest then below + 1
  else if below % 2 = 0 then below else below + 1

/-- `np.round(q, decimals)`. -/
def round (q : ℚ) (decimals : ℕ) : ℚ := roundHalfEven (q * 10 ^ decimals) / 10 ^ decimals

/-- `astype('int')`. -/
def astypeInt (q : ℚ) : ℤ := if 0 ≤ q then ⌊q⌋ else ⌈q⌉

theorem roundHalfEven_intCast (z : ℤ) : roundHalfEven z = z := by
  simp [roundHalfEven]

@[simp] theorem astypeInt_intCast (z : ℤ) : astypeInt z = z := by
  simp [astypeInt]

/-- Rounding leaves the numbers of the grid alone. -/
theorem astypeInt_round_mul {q : ℚ} {decimals : ℕ} {z : ℤ} (hz : q * 10 ^ decimals = z) :
    astypeInt (round q decimals * 10 ^ decimals) = z := by
  have hgrid : (10 : ℚ) ^ decimals ≠ 0 := pow_ne_zero decimals (by norm_num)
  rw [round, hz, roundHalfEven_intCast, div_mul_cancel₀ _ hgrid, astypeInt_intCast]

/-- The arithmetic of the columns of the guest: doubles, or exact numbers. -/
structure ColumnArith (F : Type) where
  add : F → F → F
  sub : F → F → F
  mul : F → F → F
  div : F → F → F
  floordiv : F → F → F
  ceil : F → F
  ofNat : ℕ → F
  /-- `round(·, 3)`. -/
  round3 : F → F
  /-- The constant 0.005. -/
  margin : F
  /-- `int(np.ceil(np.log(n) / np.log(4)))`. -/
  ceilLog4 : ℕ → ℕ

def exactArith : ColumnArith ℚ where
  add := (· + ·)
  sub := (· - ·)
  mul := (· * ·)
  div := (· / ·)
  floordiv a b := ⌊a / b⌋
  ceil a := ⌈a⌉
  ofNat n := n
  round3 a := round a 3
  margin := 5 / 1000
  ceilLog4 := Nat.clog 4

/-! ## Cells -/

/-- What a cell of a table of gradients and hessians holds. -/
inductive Cell where
  | none
  | number (q : ℚ)
  | cipher (m : ℤ)
  deriving DecidableEq

def opt_paillier_encrypt_crt (m : ℤ) : Cell := .cipher m

/-- A cell that is no ciphertext is decrypted to `None`. -/
def opt_paillier_decrypt_crt : Cell → Option ℤ
  | .cipher m => some m
  | _ => Option.none

def opt_paillier_add : Cell → Cell → Cell
  | .cipher m, .cipher m' => .cipher (m + m')
  | _, _ => .none

/-- `atom_paillier_sum`. -/
def atom_paillier_sum : List Cell → Cell
  | [] => .none
  | c :: cs => cs.foldl opt_paillier_add c

def Cell.plus : Cell → Cell → Cell
  | .number q, .number q' => .number (q + q')
  | _, _ => .none

/-- The sum of ray over a column that is not encrypted. -/
def plain_sum : List Cell → Cell
  | [] => .none
  | c :: cs => cs.foldl Cell.plus c

/-! ## The rows of a node -/

structure Params where
  merge_gh : Bool
  encrypted_proto : Option String

/-- `self.const`. -/
def const : ℕ := 2

/-- `self.ratio`. -/
def ratio : ℤ := 10 ^ 8

structure GradHess where
  g : ℚ
  h : ℚ

/-- A row of the two aligned tables: the columns of the guest, and the gradient and the hessian
that the host has for it. -/
structure Row (V F : Type) where
  x : V → F
  gh : GradHess

/-- The row as the guest has it. -/
structure GuestRow (V F : Type) where
  x : V → F
  g : Cell
  h : Cell

namespace Params

variable (P : Params)

/-- The integer that carries a gradient. -/
def encodeG (gh : GradHess) : ℤ :=
  if P.merge_gh then astypeInt (round (gh.g + const) 4 * 10 ^ 4) else astypeInt (gh.g * ratio)

/-- The integer that carries a hessian. -/
def encodeH (gh : GradHess) : ℤ :=
  if P.merge_gh then astypeInt (round gh.h 4 * 10 ^ 4) else astypeInt (gh.h * ratio)

/-- A row of `gh_en` beside the columns of the guest (`VGBTHost.fit`). -/
def gh_en {V F : Type} (r : Row V F) : GuestRow V F :=
  if P.encrypted_proto.isSome then
    if P.merge_gh then
      { x := r.x,
        g := opt_paillier_encrypt_crt (P.encodeG r.gh * ratio + P.encodeH r.gh),
        h := .none }
    else
      { x := r.x,
        g := opt_paillier_encrypt_crt (P.encodeG r.gh),
        h := opt_paillier_encrypt_crt (P.encodeH r.gh) }
  else { x := r.x, g := .number r.gh.g, h := .number r.gh.h }

end Params

/-! ## The guest -/

/-- A row of the table of one column: the key of the group, `sum(g)`, `sum(h)` and `count()`. -/
structure GroupSum (F : Type) where
  key : F
  sum_g : Cell
  sum_h : Cell
  count : Option ℕ

section Guest

variable {V F : Type} [LinearOrder F] (A : ColumnArith F) (P : Params)

def bins (n : ℕ) : ℕ := max (A.ceilLog4 n) 2

/-- The column is in `set_cols`. -/
def inSetCols (column : List F) : Bool := decide (column.dedup.length < bins A column.length)

def assign_bucket (column : List F) (s : F) : F :=
  if inSetCols A column then s
  else
    match column.min?, column.max? with
    | some X_guest_min0, some s_max =>
        let X_guest_max0 := A.add s_max A.margin
        let X_guest_width :=
          A.div (A.sub X_guest_max0 X_guest_min0) (A.ofNat (bins A column.length))
        let s_bin := A.ceil (A.floordiv (A.sub s X_guest_min0) X_guest_width)
        A.round3 (A.add X_guest_min0 (A.mul s_bin X_guest_width))
    | _, _ => s

/-- The bucket of a row in the column `v`. -/
def bucketOf {α : Type} (x : α → V → F) (rows : List α) (v : V) (r : α) : F :=
  assign_bucket A (rows.map fun r => x r v) (x r v)

/-- The table of the column `v`; `none` when the column `h` it sums is not in the groups. -/
def groupSums (rows : List (GuestRow V F)) (v : V) : Option (List (GroupSum F)) :=
  let bucket := bucketOf A GuestRow.x rows v
  let groups := (groupKeys bucket rows).map fun k => (k, groupRows bucket rows k)
  if P.encrypted_proto.isSome then
    some (groups.map fun (k, group) =>
      { key := k,
        sum_g := atom_paillier_sum (group.map GuestRow.g),
        sum_h := if P.merge_gh then .none else atom_paillier_sum (group.map GuestRow.h),
        count := some group.length })
  else if P.merge_gh then none
  else
    some (groups.map fun (k, group) =>
      { key := k,
        sum_g := plain_sum (group.map GuestRow.g),
        sum_h := plain_sum (group.map GuestRow.h),
        count := none })

/-- The logarithm of the number of rows has no integer part when there is no row. -/
def sums_of_encrypted_ghs_with_ray (cols : List V) (X_guest : List (GuestRow V F)) :
    Option (List (V × List (GroupSum F))) :=
  if X_guest.length = 0 then none
  else cols.mapM fun v => (groupSums A P X_guest v).map fun table => (v, table)

end Guest

/-- `id_left` and `id_right` of `guest_tree_construct`. -/
def guest_split {V F : Type} [LinearOrder F] (X_guest : List (Row V F)) (best_var : V)
    (best_cut : F) : List (Row V F) × List (Row V F) :=
  (X_guest.filter fun r => decide (r.x best_var < best_cut),
    X_guest.filter fun r => !decide (r.x best_var < best_cut))

/-! ## The host -/

/-- `cumsum` of pandas from the sum `acc` on: an entry that is missing stays so and adds
nothing. -/
def cumsumFrom (acc : ℚ) : List (Option ℚ) → List (Option ℚ)
  | [] => []
  | none :: xs => none :: cumsumFrom acc xs
  | some x :: xs => some (acc + x) :: cumsumFrom (acc + x) xs

def cumsum (xs : List (Option ℚ)) : List (Option ℚ) := cumsumFrom 0 xs

/-- A row of `gh_sums`. -/
structure Candidate (V F : Type) where
  var : V
  cut : F
  G_left : Option ℚ
  H_left : Option ℚ
  G_right : Option ℚ
  H_right : Option ℚ
  deriving DecidableEq

/-- A row of the table of one column after the decryption. -/
structure Decrypted (F : Type) where
  key : F
  sum_g : Option ℤ
  sum_h : Option ℤ
  count : Option ℕ

section Host

variable {V F : Type} [LinearOrder F] (P : Params)

/-- The columns `sum(g)` and `sum(h)` are decrypted, the latter unless it is merged. -/
def decryptRow (b : GroupSum F) : Decrypted F :=
  { key := b.key,
    sum_g := opt_paillier_decrypt_crt b.sum_g,
    sum_h := if P.merge_gh then none else opt_paillier_decrypt_crt b.sum_h,
    count := b.count }

/-- `val['g']` of a merged sum, an integer over `10 ** 4` with `const` taken off for every row. -/
def Decrypted.g (b : Decrypted F) : Option ℚ :=
  match b.sum_g, b.count with
  | some s, some n => some (((s / ratio : ℤ) : ℚ) / 10 ^ 4 - const * n)
  | _, _ => none

/-- `val['h']` of a merged sum. -/
def Decrypted.h (b : Decrypted F) : Option ℚ :=
  b.sum_g.map fun s => ((s - s / ratio * ratio : ℤ) : ℚ) / 10 ^ 4

/-- `tmp_g_lefts` and `tmp_h_lefts`. -/
def leftSums (val : List (Decrypted F)) : List (Option ℚ × Option ℚ) :=
  if P.merge_gh then
    (cumsum (val.map Decrypted.g)).zip (cumsum (val.map Decrypted.h))
  else
    ((cumsum (val.map fun b => b.sum_g.map Int.cast)).map (Option.map (· / (ratio : ℚ)))).zip
      ((cumsum (val.map fun b => b.sum_h.map Int.cast)).map (Option.map (· / (ratio : ℚ))))

/-- `sort_values(by=key)`. -/
def sort_values (val : List (Decrypted F)) : List (Decrypted F) :=
  val.insertionSort fun b b' => b.key ≤ b'.key

/-- The candidates of one column: the cuts as they came, the sums in the order of the keys. -/
def candidates (plain_gh_sums : GradHess) (var : V) (val : List (GroupSum F)) :
    List (Candidate V F) :=
  let cuts := val.map GroupSum.key
  let lefts := leftSums P (sort_values (val.map (decryptRow P)))
  (cuts.zip lefts).map fun (cut, G_left, H_left) =>
    { var := var, cut := cut, G_left := G_left, H_left := H_left,
      G_right := G_left.map fun G => plain_gh_sums.g - G,
      H_right := H_left.map fun H => plain_gh_sums.h - H }

/-- `self.encrypt_pool` is set in the constructor, so the sums are always decrypted. -/
def gh_sums_decrypted_with_ray (gh_sums_dict : List (V × List (GroupSum F)))
    (plain_gh_sums : GradHess) : List (Candidate V F) :=
  gh_sums_dict.flatMap fun (key, val) => candidates P plain_gh_sums key val

end Host

/-- The `gh_sums` of the host for a node. -/
def guestCandidates {V F : Type} [LinearOrder F] (A : ColumnArith F) (P : Params) (cols : List V)
    (rows : List (Row V F)) : Option (List (Candidate V F)) :=
  (sums_of_encrypted_ghs_with_ray A P cols (rows.map P.gh_en)).map fun gh_sums_dict =>
    gh_sums_decrypted_with_ray P gh_sums_dict
      { g := sumOf (fun r : Row V F => r.gh.g) rows,
        h := sumOf (fun r : Row V F => r.gh.h) rows }

end Fediux.Xgboost
