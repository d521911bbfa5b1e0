import Fediux.Basic.Dict
import Fediux.Basic.Moments
import Fediux.Stats.Exchange

set_option autoImplicit false

/-! # The horizontal bounds of outliers

`OutlierHandler.Hfit` of `python/fediux/FL/preprocessing/scaler.py`, in exact arithmetic. The
clients send the population standard deviations of their columns, and the server combines them as
if they were sample standard deviations. The result is the sample standard deviation of the joined
column only where the clients' columns are constant (`sampleStd_iff`).
-/

namespace Fediux.Preprocessing.Outlier

open Session Session.Prog Messaging Vfl OrderedMap

/-! ## The statistics -/

/-- The functions of `numpy`. -/
structure NumPy (K : Type) where
  sqrt : K → K
  percentile : List K → ℕ → K
  median : List K → K

/-- `column_stats` of a column. -/
structure ColStats (K : Type) where
  mean : K
  std : K
  q1 : K
  q3 : K
  iqr : K
  count : ℕ
  deriving DecidableEq

/-- `column_params` of a column; a value is missing where it comes from a division by zero. -/
structure ColParams (K : Type) where
  mean : K
  std : Option K
  q1 : K
  q3 : K
  iqr : K
  lower_bound : Option K
  upper_bound : Option K
  deriving DecidableEq

/-- Every strategy that is not `zscore` is that of the quartiles. -/
inductive Strategy where
  | zscore
  | iqr
  deriving DecidableEq, Repr

/-- A table with named columns; a missing value is `none`. -/
structure DataFrame (C K : Type) where
  rows : ℕ
  columns : List C
  columns_nodup : columns.Nodup
  value : Fin rows → C → Option K

section Functions

variable {C K : Type} [DecidableEq C] [Field K] (np : NumPy K)

namespace DataFrame

variable (X : DataFrame C K)

def column (col : C) : List (Option K) := (List.finRange X.rows).map fun r => X.value r col

/-- `X[col].values` of a column without missing values. -/
def data (col : C) : List K := (X.column col).reduceOption

/-- `_validate_data`; the columns are numeric. -/
def valid : Bool := X.columns.all fun col => Missing.Complete (X.column col)

end DataFrame

/-- `np.mean`, `np.std` and the quartiles of a column. -/
def colStats (col_data : List K) : ColStats K :=
  let q1 := np.percentile col_data 25
  let q3 := np.percentile col_data 75
  { mean := Moments.mean col_data
    std := np.sqrt (Moments.variance col_data)
    q1 := q1
    q3 := q3
    iqr := q3 - q1
    count := col_data.length }

/-- `local_stats['column_stats']` -/
def localStats (X : DataFrame C K) : Entries C (ColStats K) :=
  Dict.table (fun col => colStats np (X.data col)) X.columns

/-- The parameters of a column from the clients' statistics of it. -/
def colParams (strategy : Strategy) (threshold : K) (col_stats : List (ColStats K)) :
    ColParams K :=
  let total_count := (col_stats.map fun s => s.count).sum
  let weighted_mean := (col_stats.map fun s => s.mean * (s.count : K)).sum / (total_count : K)
  let weighted_std := if total_count = 1 then none else some <| np.sqrt <|
    (col_stats.map fun s =>
      s.std ^ 2 * ((s.count : K) - 1) + (s.count : K) * (s.mean - weighted_mean) ^ 2).sum /
        ((total_count : K) - 1)
  let global_q1 := np.median (col_stats.map fun s => s.q1)
  let global_q3 := np.median (col_stats.map fun s => s.q3)
  let global_iqr := global_q3 - global_q1
  { mean := weighted_mean
    std := weighted_std
    q1 := global_q1
    q3 := global_q3
    iqr := global_iqr
    lower_bound := match strategy with
      | .zscore => weighted_std.map fun std => weighted_mean - threshold * std
      | .iqr => some (global_q1 - threshold * global_iqr)
    upper_bound := match strategy with
      | .zscore => weighted_std.map fun std => weighted_mean + threshold * std
      | .iqr => some (global_q3 + threshold * global_iqr) }

/-- `global_params['column_params']`; the columns come in any order. -/
def globalParams (strategy : Strategy) (threshold : K)
    (all_local_stats : List (Entries C (ColStats K))) : Entries C (ColParams K) :=
  let all_cols := (all_local_stats.flatMap fun s => s.map Prod.fst).dedup
  all_cols.filterMap fun col =>
    let col_stats := all_local_stats.filterMap fun client_stats => find? client_stats col
    if col_stats.isEmpty then none else some (col, colParams np strategy threshold col_stats)

/-! ## The exchange -/

inductive Key where
  | local_stats
  | global_outlier_params
  deriving DecidableEq, Repr

inductive Message (C K : Type) where
  | stats (column_stats : Entries C (ColStats K))
  | params (column_params : Entries C (ColParams K))

instance (C K : Type) : Inhabited (Message C K) := ⟨.stats []⟩

def Message.stats? {C K : Type} : Message C K → Option (Entries C (ColStats K))
  | .stats column_stats => some column_stats
  | .params _ => none

def Message.params? {C K : Type} : Message C K → Option (Entries C (ColParams K))
  | .stats _ => none
  | .params column_params => some column_params

abbrev OutlierNet (N : ℕ) (C K : Type) :=
  Prog (Party N × Key) (Message C K) Stats.Err (Entries C (ColParams K))

def HfitClient {N : ℕ} (X : DataFrame C K) : OutlierNet N C K :=
  if X.valid then
    sendHost .local_stats (.stats (localStats np X)) <|
    recvHost Message.params? .TypeError .global_outlier_params .ret
  else .raise .ValueError

def HfitServer {N : ℕ} (strategy : Strategy) (threshold : K) : OutlierNet N C K :=
  recv_all Message.stats? .TypeError .local_stats fun all_local_stats =>
  if all_local_stats.isEmpty then .raise .ValueError
  else
    let global_params := globalParams np strategy threshold all_local_stats
    send_all .global_outlier_params (.params global_params) (.ret global_params)

end Functions

/-! ## The joined table -/

/-- The tables of the clients, at least one of them, each with a row and no missing value. -/
structure Clients (C K : Type) where
  N : ℕ
  N_pos : 0 < N
  X : Fin N → DataFrame C K
  rows_pos : ∀ j, 0 < (X j).rows
  complete : ∀ j, ∀ col ∈ (X j).columns, Missing.Complete ((X j).column col) = true

namespace Clients

variable {C K : Type} [DecidableEq C] [Field K] (T : Clients C K)

/-- The clients with a column. -/
def holders (col : C) : List (Fin T.N) :=
  (List.finRange T.N).filter fun j => (T.X j).columns.contains col

/-- The values of a column over all clients. -/
def values (col : C) : List K := (T.holders col).flatMap fun j => (T.X j).data col

/-- The sample standard deviation. -/
def sampleStd (np : NumPy K) (l : List K) : K :=
  np.sqrt (Moments.comoment (fun x => x) (fun x => x) l / (l.length - 1))

/-- The parameters of a column are those of the joined one, and no division by zero has occurred. -/
structure RightParams (np : NumPy K) (strategy : Strategy) (threshold : K) (col : C)
    (p : ColParams K) : Prop where
  mean : p.mean = Moments.mean (T.values col)
  std : p.std = some (sampleStd np (T.values col))
  bounds : strategy = .zscore →
    p.lower_bound = some (p.mean - threshold * sampleStd np (T.values col)) ∧
      p.upper_bound = some (p.mean + threshold * sampleStd np (T.values col))

/-- In any order of the steps all parties come to the parameters of the joined columns. -/
def Pooled (np : NumPy K) (strategy : Strategy) (threshold : K) : Prop :=
  ∃ a, RunsTogether id
      (together (HfitServer np strategy threshold) fun j => HfitClient np (T.X j)) a ∧
    ∀ col, T.holders col ≠ [] →
      (∃ p, find? (a none) col = some p ∧ T.RightParams np strategy threshold col p) ∧
        ∀ j, ∃ p, find? (a (some j)) col = some p ∧ T.RightParams np strategy threshold col p

/-! ## The exchange -/

variable (np : NumPy K) (strategy : Strategy) (threshold : K)

/-- What the server broadcasts. -/
def params : Entries C (ColParams K) :=
  globalParams np strategy threshold ((List.finRange T.N).map fun j => localStats np (T.X j))

theorem plays_Hfit :
    Plays (together (HfitServer np strategy threshold) fun j => HfitClient np (T.X j))
      (both (T.params np strategy threshold) fun _ => T.params np strategy threshold) := by
  have hvalid : ∀ j, (T.X j).valid = true := fun j => List.all_eq_true.mpr (T.complete j)
  unfold HfitClient
  simp only [hvalid, if_true]
  refine guests_to_host (fun _ => rfl) ?_
  rw [if_neg ?_]
  · exact host_to_guests (fun _ => rfl) (plays_ret _ _)
  · rw [List.isEmpty_iff, List.map_eq_nil_iff, List.finRange_eq_nil_iff]
    exact T.N_pos.ne'

/-- The server takes the statistics of the clients that have the column. -/
theorem find?_params {col : C} (hcol : T.holders col ≠ []) :
    find? (T.params np strategy threshold) col =
      some (colParams np strategy threshold
        ((T.holders col).map fun j => colStats np ((T.X j).data col))) := by
  have hstats : ∀ js : List (Fin T.N),
      (js.map fun j => localStats np (T.X j)).filterMap (fun s => find? s col) =
        (js.filter fun j => (T.X j).columns.contains col).map
          fun j => colStats np ((T.X j).data col) := by
    intro js
    induction js with
    | nil => rfl
    | cons j js ih =>
        rw [List.map_cons, List.filterMap_cons, localStats, Dict.find?_table, List.filter_cons, ih]
        by_cases hmem : col ∈ (T.X j).columns <;> simp [hmem]
  have hkeys : ∀ k ∈ T.holders col, col ∈ (T.X k).columns := by
    intro k hk
    simpa [holders] using hk
  obtain ⟨j, hj⟩ := List.exists_mem_of_ne_nil _ hcol
  rw [params, globalParams, Dict.find?_filterMap]
  · rw [if_pos ?_, hstats, if_neg ?_]
    · rfl
    · rw [List.isEmpty_iff, List.map_eq_nil_iff]
      exact hcol
    · rw [List.mem_dedup, List.mem_flatMap]
      refine ⟨localStats np (T.X j), List.mem_map_of_mem (List.mem_finRange j), ?_⟩
      have hcolumns := Dict.keys_table (fun col => colStats np ((T.X j).data col)) (T.X j).columns
      exact (congrArg (col ∈ ·) hcolumns).mpr (hkeys j hj)
  · intro k e he
    dsimp only at he
    split_ifs at he
    rw [← Option.some.inj he]

/-- What the parties come to, column by column. -/
theorem pooled_iff_params : T.Pooled np strategy threshold ↔
    ∀ col, T.holders col ≠ [] → T.RightParams np strategy threshold col
      (colParams np strategy threshold
        ((T.holders col).map fun j => colStats np ((T.X j).data col))) := by
  refine (T.plays_Hfit np strategy threshold).exists_runsTogether_iff.trans ?_
  refine forall_congr' fun col => forall_congr' fun hcol => ?_
  have hparams : (∃ p, find? (T.params np strategy threshold) col = some p ∧
        T.RightParams np strategy threshold col p) ↔
      T.RightParams np strategy threshold col (colParams np strategy threshold
        ((T.holders col).map fun j => colStats np ((T.X j).data col))) := by
    rw [T.find?_params np strategy threshold hcol]
    constructor
    · rintro ⟨p, hp, hright⟩
      exact Option.some.inj hp ▸ hright
    · intro hright
      exact ⟨_, rfl, hright⟩
  constructor
  · intro h
    exact hparams.mp h.1
  · intro h
    exact ⟨hparams.mpr h, fun _ => hparams.mpr h⟩

/-! ## The recombined deviation -/

omit [Field K] in
theorem data_ne_nil {col : C} {j : Fin T.N} (hj : j ∈ T.holders col) : (T.X j).data col ≠ [] := by
  have hmem : col ∈ (T.X j).columns := by simpa [holders] using hj
  have hlen := Missing.reduceOption_of_complete (T.complete j col hmem)
  have hpos := T.rows_pos j
  intro hnil
  rw [DataFrame.data] at hnil
  rw [hnil, DataFrame.column, List.length_map, List.length_finRange, List.length_nil] at hlen
  omega

omit [Field K] in
theorem length_values_pos {col : C} (hcol : T.holders col ≠ []) : 0 < (T.values col).length := by
  obtain ⟨j, hj⟩ := List.exists_mem_of_ne_nil _ hcol
  obtain ⟨x, hx⟩ := List.exists_mem_of_ne_nil _ (T.data_ne_nil hj)
  exact List.length_pos_of_mem (List.mem_flatMap.mpr ⟨j, hj, hx⟩)

theorem meanOf_id (l : List K) : Moments.meanOf (fun x => x) l = Moments.mean l := by
  rw [Moments.meanOf, List.map_id']

theorem total_count (col : C) :
    (((T.holders col).map fun j => colStats np ((T.X j).data col)).map fun s => s.count).sum =
      (T.values col).length := by
  rw [values, List.length_flatMap, List.map_map]
  rfl

section Ordered

variable [LinearOrder K] [IsStrictOrderedRing K]

theorem colParams_mean (col : C) :
    (colParams np strategy threshold
      ((T.holders col).map fun j => colStats np ((T.X j).data col))).mean =
        Moments.mean (T.values col) := by
  have hmean := Moments.meanOf_flatMap (fun x => x) (T.holders col) fun j => (T.X j).data col
  have hlen := Moments.length_flatMap_cast (K := K) (T.holders col) fun j => (T.X j).data col
  simp only [meanOf_id] at hmean
  rw [← hlen] at hmean
  show (List.map _ _).sum / (((List.map _ _).sum : ℕ) : K) = _
  rw [T.total_count np col, values, hmean, List.map_map]
  rfl

/-- The sum of the clients' variances of a column. -/
def varianceSum (col : C) : K :=
  ((T.holders col).map fun j => Moments.variance ((T.X j).data col)).sum

theorem varianceSum_eq_zero_iff (col : C) : T.varianceSum col = 0 ↔
    ∀ j ∈ T.holders col, ∀ x ∈ (T.X j).data col, ∀ y ∈ (T.X j).data col, x = y := by
  have hnonneg : ∀ v ∈ (T.holders col).map (fun j => Moments.variance ((T.X j).data col)),
      0 ≤ v := by
    intro v hv
    obtain ⟨j, _, rfl⟩ := List.mem_map.mp hv
    exact Moments.variance_nonneg _
  constructor
  · intro hzero j hj
    have hle := List.single_le_sum hnonneg _ (List.mem_map_of_mem hj)
    rw [varianceSum] at hzero
    rw [hzero] at hle
    have hvar := le_antisymm hle (Moments.variance_nonneg ((T.X j).data col))
    exact (Moments.variance_eq_zero_iff (T.data_ne_nil hj)).mp hvar
  · intro hall
    apply List.sum_eq_zero
    intro v hv
    obtain ⟨j, hj, rfl⟩ := List.mem_map.mp hv
    exact (Moments.variance_eq_zero_iff (T.data_ne_nil hj)).mpr (hall j hj)

/-- The variances within the clients are a part of the squares. -/
theorem varianceSum_le (col : C) :
    T.varianceSum col ≤ Moments.comoment (fun x => x) (fun x => x) (T.values col) := by
  rw [varianceSum, values, Moments.comoment_flatMap]
  apply List.sum_le_sum
  intro j hj
  have hpos : (1 : K) ≤ ((T.X j).data col).length := by
    exact_mod_cast List.length_pos_iff.mpr (T.data_ne_nil hj)
  have hvar := Moments.variance_nonneg ((T.X j).data col)
  have hwithin : Moments.variance ((T.X j).data col) ≤
      Moments.comoment (fun x => x) (fun x => x) ((T.X j).data col) := by
    rw [← Moments.variance_eq_comoment]
    exact le_mul_of_one_le_right hvar hpos
  have hbetween := mul_nonneg (zero_le_one.trans hpos) (mul_self_nonneg
    (Moments.meanOf (fun x => x) ((T.X j).data col) -
      Moments.meanOf (fun x => x) ((T.holders col).flatMap fun j => (T.X j).data col)))
  exact hwithin.trans (le_add_of_nonneg_right hbetween)

variable {np} (hsqrt : ∀ v : K, 0 ≤ v → np.sqrt v ^ 2 = v)
include hsqrt

/-- **The recombined sum of squares** lacks the clients' variances. -/
theorem recombined_eq (col : C) {m : K} (hm : m = Moments.mean (T.values col)) :
    (((T.holders col).map fun j => colStats np ((T.X j).data col)).map fun s =>
      s.std ^ 2 * ((s.count : K) - 1) + (s.count : K) * (s.mean - m) ^ 2).sum =
      Moments.comoment (fun x => x) (fun x => x) (T.values col) - T.varianceSum col := by
  have hparts := Moments.comoment_flatMap (fun x => x) (fun x => x) (T.holders col)
    fun j => (T.X j).data col
  simp only [meanOf_id] at hparts
  rw [values, hparts, varianceSum, eq_sub_iff_add_eq, List.map_map, ← List.sum_map_add]
  congr 1
  refine List.map_congr_left fun j _ => ?_
  have hroot := hsqrt _ (Moments.variance_nonneg ((T.X j).data col))
  rw [← Moments.variance_eq_comoment, hm, values]
  show np.sqrt (Moments.variance ((T.X j).data col)) ^ 2 * _ + _ + _ = _
  rw [hroot]
  show _ * ((((T.X j).data col).length : K) - 1) + (((T.X j).data col).length : K) *
    (Moments.mean ((T.X j).data col) - _) ^ 2 + _ = _
  ring

theorem colParams_std (col : C) :
    (colParams np strategy threshold
      ((T.holders col).map fun j => colStats np ((T.X j).data col))).std =
      if (T.values col).length = 1 then none else some <| np.sqrt <|
        (Moments.comoment (fun x => x) (fun x => x) (T.values col) - T.varianceSum col) /
          ((T.values col).length - 1) := by
  have hmean := T.colParams_mean np strategy threshold col
  have hsum := T.recombined_eq hsqrt col hmean
  rw [← T.total_count np col] at *
  show (if _ then none else some _) = _
  rw [← hsum]
  rfl

/-- **One column**: there are two rows, and the clients' variances are zero. -/
theorem rightParams_iff {col : C} (hcol : T.holders col ≠ []) :
    T.RightParams np strategy threshold col (colParams np strategy threshold
        ((T.holders col).map fun j => colStats np ((T.X j).data col))) ↔
      2 ≤ (T.values col).length ∧
        ∀ j ∈ T.holders col, ∀ x ∈ (T.X j).data col, ∀ y ∈ (T.X j).data col, x = y := by
  have hstd := T.colParams_std strategy threshold hsqrt col
  have hmean := T.colParams_mean np strategy threshold col
  have hpos := T.length_values_pos hcol
  rw [← T.varianceSum_eq_zero_iff]
  constructor
  · intro hright
    have heq := hstd.symm.trans hright.std
    split_ifs at heq with hone
    have htwo : 2 ≤ (T.values col).length := by omega
    have hden : (0 : K) < (T.values col).length - 1 := by
      have hcast : (2 : K) ≤ (T.values col).length := by exact_mod_cast htwo
      linarith
    refine ⟨htwo, ?_⟩
    -- the roots are those of numbers that are not negative
    have hle := T.varianceSum_le col
    have hnonneg : 0 ≤ T.varianceSum col := by
      apply List.sum_nonneg
      intro v hv
      obtain ⟨j, _, rfl⟩ := List.mem_map.mp hv
      exact Moments.variance_nonneg _
    have hroots := congrArg (· ^ 2) (Option.some.inj heq)
    simp only [sampleStd] at hroots
    rw [hsqrt _ (div_nonneg (sub_nonneg.mpr hle) hden.le),
      hsqrt _ (div_nonneg (hnonneg.trans hle) hden.le), div_left_inj' hden.ne'] at hroots
    linarith
  · rintro ⟨htwo, hzero⟩
    rw [if_neg (by omega), hzero, sub_zero] at hstd
    refine ⟨hmean, hstd, ?_⟩
    rintro rfl
    have hbounds : ∀ s : List (ColStats K),
        (colParams np .zscore threshold s).lower_bound =
            (colParams np .zscore threshold s).std.map
              (fun std => (colParams np .zscore threshold s).mean - threshold * std) ∧
          (colParams np .zscore threshold s).upper_bound =
            (colParams np .zscore threshold s).std.map
              (fun std => (colParams np .zscore threshold s).mean + threshold * std) :=
      fun s => ⟨rfl, rfl⟩
    rw [(hbounds _).1, (hbounds _).2, hstd]
    exact ⟨rfl, rfl⟩

/-- **The parameters are those of the joined columns** exactly if each column has two rows and is
constant on every client. -/
theorem std_pooled_iff : T.Pooled np strategy threshold ↔
    ∀ col, T.holders col ≠ [] → 2 ≤ (T.values col).length ∧
      ∀ j ∈ T.holders col, ∀ x ∈ (T.X j).data col, ∀ y ∈ (T.X j).data col, x = y := by
  rw [pooled_iff_params]
  exact forall_congr' fun col => forall_congr' fun hcol =>
    T.rightParams_iff strategy threshold hsqrt hcol

end Ordered

end Clients

/-! ## Two rows -/

/-- One client with one column. -/
def single (l : List ℝ) (hl : 0 < l.length) : Clients Unit ℝ where
  N := 1
  N_pos := Nat.one_pos
  X := fun _ =>
    { rows := l.length
      columns := [()]
      columns_nodup := List.nodup_singleton ()
      value := fun r _ => some (l.get r) }
  rows_pos := fun _ => hl
  complete := fun _ _ _ => by simp [DataFrame.column, Missing.Complete]

/-- The functions on columns of up to two values in their order. -/
noncomputable def twoValues : NumPy ℝ where
  sqrt := Real.sqrt
  percentile := fun l q => l.headD 0 + q / 100 * (l.getLastD 0 - l.headD 0)
  median := fun l => Moments.mean [l.headD 0, l.getLastD 0]

theorem sq_sqrt_twoValues (v : ℝ) (hv : 0 ≤ v) : twoValues.sqrt v ^ 2 = v := Real.sq_sqrt hv

theorem pooled_iff_ones :
    (single [1, 1] Nat.two_pos).Pooled twoValues .zscore 3 ↔
      ∀ col, (single [1, 1] Nat.two_pos).holders col ≠ [] →
        2 ≤ ((single [1, 1] Nat.two_pos).values col).length ∧
          ∀ j ∈ (single [1, 1] Nat.two_pos).holders col,
            ∀ x ∈ ((single [1, 1] Nat.two_pos).X j).data col,
              ∀ y ∈ ((single [1, 1] Nat.two_pos).X j).data col, x = y :=
  (single [1, 1] Nat.two_pos).std_pooled_iff .zscore 3 sq_sqrt_twoValues

theorem holders_single (l : List ℝ) (hl : 0 < l.length) :
    (single l hl).holders () = [⟨0, Nat.one_pos⟩] := rfl

theorem data_single (l : List ℝ) (hl : 0 < l.length) (j : Fin (single l hl).N) :
    ((single l hl).X j).data () = l := by
  have hcolumn : ((single l hl).X j).column () = (List.finRange l.length).map
      fun r => some (l.get r) := rfl
  have hmap : ((List.finRange l.length).map fun r => some (l.get r)) =
      ((List.finRange l.length).map l.get).map some := by
    rw [List.map_map]
    rfl
  rw [DataFrame.data, hcolumn, hmap, List.map_get_finRange, Missing.reduceOption_map_some]

/-- One client with the values `0` and `2`. -/
theorem not_pooled_zero_two : ¬ (single [0, 2] Nat.two_pos).Pooled twoValues .zscore 3 := by
  rw [Clients.pooled_iff_params]
  intro hpooled
  have hne : (single [0, 2] Nat.two_pos).holders () ≠ [] := by simp [holders_single]
  have hall := ((Clients.rightParams_iff _ _ _ sq_sqrt_twoValues hne).mp (hpooled () hne)).2
    ⟨0, Nat.one_pos⟩ (by simp [holders_single])
  rw [data_single] at hall
  have heq := hall 0 (by simp) 2 (by simp)
  norm_num at heq

end Fediux.Preprocessing.Outlier
