import Fediux.Preprocessing.PcaTransformer
import Fediux.Preprocessing.StandardScaler

set_option autoImplicit false

/-! # The horizontal power transformer

`PowerTransformer._Hfit` of `python/fediux/FL/preprocessing/transformer.py` beside `_fit` of
`_power.py`, in exact arithmetic, with the lambdas given. The clients leave missing values out of
the sums of the transformed values, but not out of the sums of the squares, and a client's column
needs a value (`transform_pooled_iff`).
-/

namespace Fediux.Preprocessing.Power

open Session Session.Prog Messaging Vfl
open Stats (Matrix Arr Count Message column axis0 stacked sumOf mapMatrix quotient ClientTables)
open Pooled (clientSamples isTotal_clientSamples)
open Pca (divide divide_of_ne_zero)

inductive Method where
  | box_cox
  | yeo_johnson
  deriving DecidableEq, Repr

inductive Key where
  | col_num
  | n_samples
  | X_sum
  | mean
  | X_sum_square
  | scale
  deriving DecidableEq, Repr

inductive Err where
  | ValueError
  | RuntimeError
  | TypeError
  deriving DecidableEq, Repr

/-- The attributes after `_Hfit`. -/
structure Fitted (cols : ℕ) (K : Type) where
  _mean : Option (Arr cols K)
  _scale : Option (Arr cols K)

/-! ## Columns -/

section Columns

variable {rows cols : ℕ} {K : Type} [Field K] [LinearOrder K]

/-- Each column with its lambda. -/
def transformed (transform_function : K → K → K) (lambdas_ : Fin cols → K)
    (X : Matrix rows cols K) : Matrix rows cols K :=
  fun r c => (X r c).map fun x => transform_function x (lambdas_ c)

/-- `np.square(X / mean - 1)` -/
def squaredRatios (X : Matrix rows cols K) (mean : Arr cols K) : Matrix rows cols K :=
  fun r c => do
    let x ← X r c
    let m ← mean c
    let ratio ← divide x m
    return (ratio - 1) ^ 2

/-- `(X - mean) / scale` -/
def standardized (X : Matrix rows cols K) (fitted : Arr cols K × Arr cols K) :
    Matrix rows cols K :=
  fun r c => do
    let x ← X r c
    let m ← fitted.1 c
    let s ← fitted.2 c
    divide (x - m) s

/-- `abs(mean) * np.sqrt(square)`, and one in place of zero. -/
def scaleArr (sqrt : K → K) (mean square : Arr cols K) : Arr cols K :=
  fun c => do
    let m ← mean c
    let q ← square c
    let s := |m| * sqrt q
    return if s = 0 then 1 else s

end Columns

/-! ## The exchange -/

/-- The attributes of `self.module`. -/
structure Module (cols : ℕ) (K : Type) where
  method : Method
  standardize : Bool
  lambdas_ : Fin cols → K

section Programs

variable {N rows cols : ℕ} {K α : Type} [Field K] [LinearOrder K]

/-- One number. -/
def colNum? : Message cols K → Option ℕ
  | .count (.scalar m) => some m
  | _ => none

abbrev PowerNet (N cols : ℕ) (K α : Type) := Prog (Party N × Key) (Message cols K) Err α

/-- `_check_input`: a row and a column, and positive values for the method that needs them. -/
def check_input (method : Method) (X : Matrix rows cols K) (k : PowerNet N cols K α) :
    PowerNet N cols K α :=
  if 0 < rows ∧ 0 < cols then
    if method = .box_cox ∧ ∃ r c, (X r c).any (fun x => x ≤ 0) = true then .raise .ValueError
    else k
  else .raise .ValueError

variable (transform_function : Method → K → K → K) (sqrt : K → K) (module : Module cols K)
  (force_transform : Bool)

def HfitClient (X : Matrix rows cols K) :
    PowerNet N cols K (Fitted cols K × Matrix rows cols K) :=
  check_input module.method X <|
  sendHost .col_num (.count (.scalar cols)) <|
  if ∃ c, ∀ r, X r c = none then .raise .ValueError
  else
    let X := if module.standardize || force_transform then
      transformed (transform_function module.method) module.lambdas_ X else X
    if module.standardize then
      sendHost .n_samples (.count (clientSamples X)) <|
      sendHost .X_sum (.array (axis0 (sumOf true) X)) <|
      recvHost Message.array? .TypeError .mean fun _mean =>
      -- `np.sum`, which a missing value makes missing
      sendHost .X_sum_square (.array (axis0 (sumOf false) (squaredRatios X _mean))) <|
      recvHost Message.array? .TypeError .scale fun _scale =>
      .ret (⟨some _mean, some _scale⟩,
        if force_transform then standardized X (_mean, _scale) else X)
    else .ret (⟨none, none⟩, X)

def HfitServer : PowerNet N cols K (Fitted cols K) :=
  recv_all colNum? .TypeError .col_num fun col_num =>
  match col_num with
  | [] => .raise .ValueError
  | n :: ns =>
      if ns.all (fun n' => decide (n' = n)) then
        if module.standardize then
          recv_all Message.count? .TypeError .n_samples fun n_samples =>
          let n_sum := (Count.total n_samples).collapse
          recv_all Message.array? .TypeError .X_sum fun X_sum =>
          let _mean := quotient (stacked (sumOf false) X_sum) n_sum
          send_all .mean (.array _mean) <|
          recv_all Message.array? .TypeError .X_sum_square fun X_sum_square =>
          let _scale := scaleArr sqrt _mean
            (quotient (stacked (sumOf false) X_sum_square) n_sum)
          send_all .scale (.array _scale) (.ret ⟨some _mean, some _scale⟩)
        else .ret ⟨none, none⟩
      else .raise .RuntimeError

end Programs

/-! ## The joined table -/

/-- The tables of the clients, whose values are positive where the method needs it, and the
parameters. -/
structure Setup (K : Type) [Field K] [LinearOrder K] extends ClientTables K where
  module : Module cols K
  positive : module.method = .box_cox → ∀ j r c, ∀ x ∈ X j r c, 0 < x
  force_transform : Bool
  transform_function : Method → K → K → K
  sqrt : K → K

namespace Setup

variable {K : Type} [Field K] [LinearOrder K] (S : Setup K)

/-- The transformed values of a client. -/
def Y (j : Fin S.N) : Matrix (S.rows j) S.cols K :=
  transformed (S.transform_function S.module.method) S.module.lambdas_ (S.X j)

theorem isSome_Y (j : Fin S.N) (r : Fin (S.rows j)) (c : Fin S.cols) :
    (S.Y j r c).isSome = (S.X j r c).isSome :=
  Option.isSome_map

theorem someValue_Y (c : Fin S.cols) : ∃ j r, (S.Y j r c).isSome = true := by
  obtain ⟨j, r, hsome⟩ := S.someValue c
  exact ⟨j, r, (S.isSome_Y j r c).trans hsome⟩

/-- The transformed tables. -/
def tables : ClientTables K where
  N := S.N
  cols := S.cols
  cols_pos := S.cols_pos
  rows := S.rows
  X := S.Y
  someValue := S.someValue_Y

/-- The transformed values of a column over all clients. -/
def values (c : Fin S.cols) : List K := S.tables.values c

theorem values_eq (c : Fin S.cols) :
    S.values c = (List.finRange S.N).flatMap fun j => (column (S.Y j) c).reduceOption :=
  S.tables.values_eq c

theorem values_ne_nil (c : Fin S.cols) : S.values c ≠ [] := S.tables.values_ne_nil c

/-! ### `_fit` on the joined rows -/

/-- `np.nanvar(X / mean)` -/
def ratioVariances : Arr S.cols K :=
  fun c =>
    let m := Moments.mean (S.values c)
    if m = 0 then none else some (Moments.variance ((S.values c).map fun x => x / m))

def mean : Arr S.cols K := fun c => some (Moments.mean (S.values c))

def scale : Arr S.cols K := scaleArr S.sqrt S.mean S.ratioVariances

/-- The attributes of one transformer of the joined rows. -/
def fitted : Fitted S.cols K :=
  if S.module.standardize then ⟨some S.mean, some S.scale⟩ else ⟨none, none⟩

/-- Its output for the rows of a client. -/
def output (j : Fin S.N) : Matrix (S.rows j) S.cols K :=
  if S.module.standardize then standardized (S.Y j) (S.mean, S.scale) else S.Y j

/-! ### The clients -/

abbrev programs : (i : Party S.N) → PowerNet S.N S.cols K
    (Result (Fitted S.cols K) (fun j => Fitted S.cols K × Matrix (S.rows j) S.cols K) i) :=
  together (HfitServer S.sqrt S.module) fun j =>
    HfitClient S.transform_function S.module S.force_transform (S.X j)

/-- In any order of the steps all parties come to the mean and the scale of the joined rows, and
each client to its part of their transformation. -/
def Pooled : Prop :=
  ∃ a, RunsTogether id S.programs a ∧ a none = S.fitted ∧
    ∀ j, (a (some j)).1 = S.fitted ∧
      (S.force_transform = true → (a (some j)).2 = S.output j)

/-- Every client has a value in every column. -/
def Present : Prop := ∀ j c, ∃ r, (S.X j r c).isSome = true

/-- A column without missing values. -/
def CompleteColumn (c : Fin S.cols) : Prop := ∀ j r, (S.X j r c).isSome = true

/-! ### The exchange -/

/-- The numbers of values of all clients. -/
def n_sum : Count S.cols :=
  (Count.total ((List.finRange S.N).map fun j => clientSamples (S.Y j))).collapse

/-- What the server divides by the numbers of values. -/
def squares : Arr S.cols K :=
  stacked (sumOf false) <| (List.finRange S.N).map fun j =>
    axis0 (sumOf false) (squaredRatios (S.Y j) S.mean)

/-- The scale that the server sends. -/
def serverScale : Arr S.cols K := scaleArr S.sqrt S.mean (quotient S.squares S.n_sum)

theorem isTotal_n_sum : S.tables.IsTotal S.n_sum := isTotal_clientSamples S.tables

/-- The mean that the server sends. -/
theorem serverMean_eq :
    quotient (stacked (sumOf false)
      ((List.finRange S.N).map fun j => axis0 (sumOf true) (S.Y j))) S.n_sum = S.mean := by
  have hsums : stacked (sumOf false)
      ((List.finRange S.N).map fun j => axis0 (sumOf true) (S.Y j)) = S.tables.sums := by
    funext c
    calc stacked (sumOf false) ((List.finRange S.N).map fun j => axis0 (sumOf true) (S.Y j)) c
        = sumOf false (((List.finRange S.N).map
            fun j => (column (S.Y j) c).reduceOption.sum).map some) := by
          rw [stacked, List.map_map, List.map_map]
          rfl
      _ = some (S.values c).sum := by
          rw [Stats.sumOf_map_some, S.values_eq, Moments.sum_flatMap]
  rw [hsums]
  exact S.tables.quotient_sums S.isTotal_n_sum

section Runs

variable {S} (hpresent : S.Present)
include hpresent

theorem rows_pos (j : Fin S.N) : 0 < S.rows j := by
  obtain ⟨r, _⟩ := hpresent j ⟨0, S.cols_pos⟩
  exact Fin.pos r

theorem not_allMissing (j : Fin S.N) : ¬ ∃ c, ∀ r, S.X j r c = none := by
  rintro ⟨c, hnone⟩
  obtain ⟨r, hsome⟩ := hpresent j c
  rw [hnone r] at hsome
  cases hsome

end Runs

theorem check_input_eq {j : Fin S.N} (hrows : 0 < S.rows j) {α : Type}
    (k : PowerNet S.N S.cols K α) : check_input S.module.method (S.X j) k = k := by
  have hpositive : ¬ (S.module.method = .box_cox ∧
      ∃ r c, (S.X j r c).any (fun x => x ≤ 0) = true) := by
    rintro ⟨hmethod, r, c, hany⟩
    obtain ⟨x, hx, hle⟩ := (Option.any_eq_true _ _).mp hany
    exact absurd (S.positive hmethod j r c x hx) (not_lt.mpr (of_decide_eq_true hle))
  rw [check_input, if_pos ⟨hrows, S.cols_pos⟩, if_neg hpositive]

/-- All clients have the same number of columns. -/
theorem colNums_eq : ∃ n, (List.finRange S.N).map (fun _ => S.cols) =
    S.cols :: List.replicate n S.cols := by
  obtain ⟨j, -⟩ := S.someValue ⟨0, S.cols_pos⟩
  obtain ⟨n, hn⟩ := Nat.exists_eq_succ_of_ne_zero (Fin.pos j).ne'
  refine ⟨n, ?_⟩
  rw [List.map_const', List.length_finRange, hn, List.replicate_succ]

theorem all_colNums (n : ℕ) :
    (List.replicate n S.cols).all (fun n' => decide (n' = S.cols)) = true := by
  rw [List.all_eq_true]
  intro n' hn'
  exact decide_eq_true (List.eq_of_mem_replicate hn')

/-- The server goes on after the numbers of columns. -/
theorem afterColNum {β : Type} (k : PowerNet S.N S.cols K β) :
    (match (List.finRange S.N).map (fun _ => S.cols) with
      | [] => .raise .ValueError
      | n :: ns => if ns.all (fun n' => decide (n' = n)) then k else .raise .RuntimeError) = k := by
  obtain ⟨n, hn⟩ := S.colNums_eq
  rw [hn]
  exact if_pos (S.all_colNums n)

section Runs

variable {S} (hpresent : S.Present)
include hpresent

/-- Without standardisation nothing more is sent. -/
theorem plays_of_not_standardize (hstandardize : S.module.standardize = false) :
    Plays S.programs (both ⟨none, none⟩ fun j => (⟨none, none⟩,
      if S.force_transform then S.Y j else S.X j)) := by
  unfold programs HfitClient
  simp only [S.check_input_eq (rows_pos hpresent _), if_neg (not_allMissing hpresent _),
    hstandardize, Bool.false_or, Bool.false_eq_true, if_false]
  refine guests_to_host (fun _ => rfl) ?_
  rw [S.afterColNum]
  simp only [hstandardize, Bool.false_eq_true, if_false]
  exact plays_ret _ _

theorem plays_of_standardize (hstandardize : S.module.standardize = true) :
    Plays S.programs (both ⟨some S.mean, some S.serverScale⟩ fun j =>
      (⟨some S.mean, some S.serverScale⟩,
        if S.force_transform then standardized (S.Y j) (S.mean, S.serverScale) else S.Y j)) := by
  have hmean := S.serverMean_eq
  unfold n_sum Y at hmean
  unfold programs HfitClient
  simp only [S.check_input_eq (rows_pos hpresent _), if_neg (not_allMissing hpresent _),
    hstandardize, Bool.true_or, if_true]
  refine guests_to_host (fun _ => rfl) ?_
  rw [S.afterColNum]
  simp only [hstandardize, if_true]
  refine guests_to_host (fun _ => rfl) (guests_to_host (fun _ => rfl) ?_)
  rw [hmean]
  refine host_to_guests (fun _ => rfl) (guests_to_host (fun _ => rfl) ?_)
  exact host_to_guests (fun _ => rfl) (plays_ret _ _)

end Runs

/-! ### The scale -/

variable {S}

/-- A value that is missing on a client. -/
theorem squares_of_none {c : Fin S.cols} {j : Fin S.N}
    (h : none ∈ column (squaredRatios (S.Y j) S.mean) c) : S.squares c = none := by
  refine Stats.sumOf_of_none ?_
  rw [List.map_map]
  exact List.mem_map.mpr ⟨j, List.mem_finRange j, Stats.sumOf_of_none h⟩

variable (S) in
theorem squaredRatios_mean (j : Fin S.N) (r : Fin (S.rows j)) (c : Fin S.cols) :
    squaredRatios (S.Y j) S.mean r c = (S.Y j r c).bind fun x =>
      (divide x (Moments.mean (S.values c))).map fun ratio => (ratio - 1) ^ 2 := by
  show (S.Y j r c).bind _ = _
  congr 1
  funext x
  show (divide x _).bind _ = _
  cases divide x (Moments.mean (S.values c)) <;> rfl

theorem squares_of_missing {c : Fin S.cols} {j : Fin S.N} {r : Fin (S.rows j)}
    (h : S.X j r c = none) : S.squares c = none := by
  refine squares_of_none (j := j) (List.mem_map.mpr ⟨r, List.mem_finRange r, ?_⟩)
  rw [squaredRatios_mean, Y, transformed, h]
  rfl

/-- The values are divided by zero. -/
theorem squares_of_mean_zero {c : Fin S.cols} (h : Moments.mean (S.values c) = 0) :
    S.squares c = none := by
  obtain ⟨j, r, -⟩ := S.someValue c
  refine squares_of_none (j := j) (List.mem_map.mpr ⟨r, List.mem_finRange r, ?_⟩)
  rw [squaredRatios_mean, h]
  cases S.Y j r c with
  | none => rfl
  | some x =>
      rw [Option.bind_some, divide, if_pos rfl]
      rfl

/-- The squares of all clients, where no value is missing. -/
theorem squares_of_complete {c : Fin S.cols} (hcomplete : S.CompleteColumn c)
    (hmean : Moments.mean (S.values c) ≠ 0) :
    S.squares c = some ((S.values c).map fun x =>
      (x / Moments.mean (S.values c) - 1) ^ 2).sum := by
  have hlocal : ∀ j, column (squaredRatios (S.Y j) S.mean) c =
      ((column (S.Y j) c).reduceOption.map fun x =>
        (x / Moments.mean (S.values c) - 1) ^ 2).map some := by
    intro j
    have hlist : Missing.Complete (column (S.Y j) c) = true := by
      rw [Missing.Complete, List.all_eq_true]
      intro o ho
      obtain ⟨r, -, rfl⟩ := List.mem_map.mp ho
      exact (S.isSome_Y j r c).trans (hcomplete j r)
    calc column (squaredRatios (S.Y j) S.mean) c
        = (column (S.Y j) c).map fun o => o.bind fun x =>
            (divide x (Moments.mean (S.values c))).map fun ratio => (ratio - 1) ^ 2 := by
          rw [column, column, List.map_map]
          exact List.map_congr_left fun r _ => S.squaredRatios_mean j r c
      _ = _ := by
          nth_rewrite 1 [← Missing.map_some_reduceOption hlist]
          rw [List.map_map, List.map_map]
          refine List.map_congr_left fun x _ => ?_
          show (divide x _).map _ = _
          rw [divide_of_ne_zero hmean]
          rfl
  calc S.squares c
      = sumOf false (((List.finRange S.N).map fun j => ((column (S.Y j) c).reduceOption.map
          fun x => (x / Moments.mean (S.values c) - 1) ^ 2).sum).map some) := by
        rw [squares, stacked, List.map_map, List.map_map]
        refine congrArg _ (List.map_congr_left fun j _ => ?_)
        show sumOf false (column _ c) = _
        rw [hlocal, Stats.sumOf_map_some]
        rfl
    _ = _ := by
        rw [Stats.sumOf_map_some, S.values_eq, List.map_flatMap, Moments.sum_flatMap]

theorem quotient_of_complete {c : Fin S.cols} (hcomplete : S.CompleteColumn c)
    (hmean : Moments.mean (S.values c) ≠ 0) :
    quotient S.squares S.n_sum c = S.ratioVariances c := by
  have htotal : S.n_sum.get c = (S.values c).length := S.isTotal_n_sum c
  have hlen : ¬ S.n_sum.get c = 0 := by
    rw [htotal, List.length_eq_zero_iff]
    exact S.values_ne_nil c
  rw [quotient, squares_of_complete hcomplete hmean, Option.bind_some, if_neg hlen, htotal]
  rw [ratioVariances, if_neg hmean, Moments.variance_map_div_mean hmean]

theorem quotient_of_none {c : Fin S.cols} (h : S.squares c = none) :
    quotient S.squares S.n_sum c = none := by
  rw [quotient, h]
  rfl

theorem isSome_scaleArr (square : Arr S.cols K) (c : Fin S.cols) :
    (scaleArr S.sqrt S.mean square c).isSome = (square c).isSome := by
  show ((square c).bind _).isSome = _
  cases square c <;> rfl

/-- **The scale of a column** is right if no value is missing, or there is none. -/
theorem serverScale_eq_iff (c : Fin S.cols) :
    S.serverScale c = S.scale c ↔
      S.CompleteColumn c ∨ Moments.mean (S.values c) = 0 := by
  by_cases hmean : Moments.mean (S.values c) = 0
  · have hscale : S.serverScale c = S.scale c := by
      have hquotient := quotient_of_none (squares_of_mean_zero hmean)
      rw [serverScale, scale, scaleArr, scaleArr, hquotient, ratioVariances, if_pos hmean]
    exact iff_of_true hscale (.inr hmean)
  · rw [or_iff_left hmean]
    constructor
    · intro heq j r
      by_contra hnone
      rw [Option.not_isSome_iff_eq_none] at hnone
      have hquotient := quotient_of_none (squares_of_missing hnone)
      have hsome := congrArg Option.isSome heq
      rw [serverScale, scale, isSome_scaleArr, isSome_scaleArr, hquotient, ratioVariances,
        if_neg hmean] at hsome
      cases hsome
    · intro hcomplete
      rw [serverScale, scale, scaleArr, scaleArr, quotient_of_complete hcomplete hmean]

/-! ### A client that raises an error -/

/-- A client without rows, or without a value in some column. -/
theorem not_pooled_of_not_present (h : ¬ S.Present) : ¬ S.Pooled := by
  rintro ⟨a, hruns, -⟩
  by_cases hrows : ∀ j, 0 < S.rows j
  · -- the other clients wait for the mean
    obtain ⟨j, hj⟩ := not_forall.mp h
    obtain ⟨c, hc⟩ := not_forall.mp hj
    have hmissing : ∃ c, ∀ r, S.X j r c = none :=
      ⟨c, fun r => Option.not_isSome_iff_eq_none.mp fun hsome => hc ⟨r, hsome⟩⟩
    unfold programs HfitClient at hruns
    simp only [S.check_input_eq (hrows _)] at hruns
    refine hruns.ne_raise (guests_to_host (fun _ => rfl) (.refl _)) (some j) .ValueError ?_
    exact if_pos hmissing
  · obtain ⟨j, hj⟩ := not_forall.mp hrows
    refine hruns.ne_raise (.refl _) (some j) .ValueError ?_
    exact if_neg fun hpos => hj hpos.1

/-! ### The transformation -/

theorem pooled_of_not_standardize (hpresent : S.Present)
    (hstandardize : S.module.standardize = false) : S.Pooled := by
  refine ⟨_, (plays_of_not_standardize hpresent hstandardize).runsTogether, ?_, ?_⟩
  · rw [fitted, hstandardize]
    rfl
  · intro j
    rw [fitted, output, hstandardize]
    exact ⟨rfl, fun hforce => if_pos hforce⟩

theorem pooled_iff_scale (hpresent : S.Present) (hstandardize : S.module.standardize = true) :
    S.Pooled ↔ S.serverScale = S.scale := by
  refine (plays_of_standardize hpresent hstandardize).exists_runsTogether_iff.trans ?_
  rw [fitted, hstandardize]
  constructor
  · rintro ⟨hserver, -⟩
    exact Option.some.inj (congrArg Fitted._scale hserver)
  · intro heq
    rw [heq]
    refine ⟨rfl, fun j => ⟨rfl, fun hforce => ?_⟩⟩
    rw [output, hstandardize]
    exact if_pos hforce

theorem mean_eq_zero_iff [CharZero K] (c : Fin S.cols) :
    Moments.mean (S.values c) = 0 ↔ (S.values c).sum = 0 := by
  have hlen : ((S.values c).length : K) ≠ 0 :=
    Nat.cast_ne_zero.mpr fun hzero => S.values_ne_nil c (List.length_eq_zero_iff.mp hzero)
  rw [Moments.mean, div_eq_zero_iff, or_iff_left hlen]

variable (S) in
/-- **The clients' transformed rows are those of the joined table** exactly if every client has a
value in every column and, where the rows are standardised, no value is missing, except in a column
whose transformed values add up to zero: it has no scale. -/
theorem transform_pooled_iff [CharZero K] :
    S.Pooled ↔ S.Present ∧ (S.module.standardize = true →
      ∀ c, S.CompleteColumn c ∨ (S.values c).sum = 0) := by
  by_cases hpresent : S.Present
  · rw [and_iff_right hpresent]
    cases hstandardize : S.module.standardize with
    | false =>
        exact iff_of_true (pooled_of_not_standardize hpresent hstandardize)
          fun h => Bool.noConfusion h
    | true =>
        rw [pooled_iff_scale hpresent hstandardize, funext_iff, forall_prop_of_true rfl]
        refine forall_congr' fun c => ?_
        rw [serverScale_eq_iff, mean_eq_zero_iff]
  · exact iff_of_false (not_pooled_of_not_present hpresent) fun h => hpresent h.1

end Setup

/-- One client with the values one and two, and one that is missing. -/
def oneMissing : Setup ℚ where
  N := 1
  cols := 1
  cols_pos := Nat.one_pos
  rows := fun _ => 3
  X := fun _ r _ => if r.val = 0 then none else some r.val
  someValue := fun _ => ⟨⟨0, Nat.one_pos⟩, ⟨1, Nat.one_lt_succ_succ 1⟩, rfl⟩
  module := { method := .yeo_johnson, standardize := true, lambdas_ := fun _ => 1 }
  positive := fun h => Method.noConfusion h
  force_transform := true
  transform_function := fun _ x _ => x
  sqrt := id

theorem pooled_iff_oneMissing :
    oneMissing.Pooled ↔ oneMissing.Present ∧ (oneMissing.module.standardize = true →
      ∀ c, oneMissing.CompleteColumn c ∨ (oneMissing.values c).sum = 0) :=
  oneMissing.transform_pooled_iff

theorem not_pooled_oneMissing : ¬ oneMissing.Pooled := by
  have hpresent : oneMissing.Present :=
    fun _ _ => ⟨⟨1, Nat.one_lt_succ_succ 1⟩, rfl⟩
  rw [Setup.pooled_iff_scale hpresent rfl]
  intro heq
  rcases (Setup.serverScale_eq_iff ⟨0, Nat.one_pos⟩).mp (congrFun heq _) with hcomplete | hmean
  · exact Bool.noConfusion (hcomplete ⟨0, Nat.one_pos⟩ ⟨0, Nat.succ_pos 2⟩)
  · have hvalues : oneMissing.values ⟨0, Nat.one_pos⟩ = [1, 2] := by
      show [((1 : ℕ) : ℚ), ((2 : ℕ) : ℚ)] = _
      norm_num
    rw [hvalues] at hmean
    norm_num [Moments.mean] at hmean

end Fediux.Preprocessing.Power
