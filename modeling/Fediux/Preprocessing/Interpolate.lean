import Fediux.Basic.Dict
import Fediux.Basic.FloatNaN
import Fediux.Basic.FloatOrder
import Fediux.Stats.Exchange

set_option autoImplicit false

/-! # The horizontal imputer by interpolation

`InterpolateImputer` of `python/fediux/FL/preprocessing/imputer.py`, in doubles: a missing number is
NaN. The clients whose other columns are complete send the valid values of their numeric columns
with their rows, the server returns mean, range and average slope of each column, and a client
fills a missing cell from its nearest valid neighbours, or from the mean where it has none. The
result is clipped to the range, which leaves a NaN as it is: a cell stays missing where the
arithmetic of its rule gives no number (`imputes_iff`).
-/

namespace Fediux.Preprocessing.Interpolate

open Session Session.Prog Messaging Vfl OrderedMap FloatOrder FloatNaN

/-! ## Tables -/

abbrev Number : Type := Float.Model

def nan : Number := Float.Model.pack .notANumber

inductive Column (rows : ℕ) where
  | numeric (values : Fin rows → Number)
  | other (values : Fin rows → Option String)

/-- A table with the default row index. -/
structure DataFrame (C : Type) where
  rows : ℕ
  rows_lt : rows < 2 ^ 63
  columns : List C
  columns_nodup : columns.Nodup
  column : C → Column rows

/-- `np.mean`, and the division of two `int`, which is correctly rounded. -/
structure NumPy where
  mean : List Number → Number
  ratio : ℕ → ℕ → Number
  ratio_pos : ∀ {a b}, 0 < a → a < b → b < 2 ^ 63 → IsPositive (ratio a b)

/-! ## The statistics of a client -/

section Client

variable {rows : ℕ}

def Column.isnull : Column rows → Fin rows → Bool
  | .numeric values, r => (values r).isNaN
  | .other values, r => (values r).isNone

def Column.isNumeric : Column rows → Bool
  | .numeric _ => true
  | .other _ => false

structure MissingStats where
  missing_count : ℕ
  total_count : ℕ
  missing_ratio : ℚ
  has_missing : Bool

/-- `_calculate_column_missing_stats` of one column. -/
def Column.missingStats (c : Column rows) : MissingStats :=
  let missing_count := (List.finRange rows).countP c.isnull
  { missing_count
    total_count := rows
    missing_ratio := if 0 < rows then missing_count / rows else 0
    has_missing := decide (0 < missing_count) }

/-- The rows with a valid value. -/
def validRows (values : Fin rows → Number) : List (Fin rows) :=
  (List.finRange rows).filter fun r => !(values r).isNaN

/-- `valid_data` of a column: the indices and the values. -/
def validData : Column rows → List ℕ × List Number
  | .numeric values => ((validRows values).map Fin.val, (validRows values).map values)
  | .other _ => ([], [])

end Client

def npMin : List Number → Option Number
  | [] => none
  | x :: xs => some (minOf x xs)

def npMax : List Number → Option Number
  | [] => none
  | x :: xs => some (maxOf x xs)

/-- `sorted(pairs, key=lambda x: x[0])` -/
def sortedPairs (pairs : List (ℕ × Number)) : List (ℕ × Number) :=
  pairs.mergeSort fun a b => decide (a.1 ≤ b.1)

structure ColStats where
  n_valid : ℕ
  min_val : Option Number
  max_val : Option Number
  sorted_pairs : List (ℕ × Number)

def colStats (valid_data : List ℕ × List Number) : ColStats :=
  let (indices, values) := valid_data
  if indices.length = 0 then
    { n_valid := 0, min_val := none, max_val := none, sorted_pairs := [] }
  else
    { n_valid := indices.length
      min_val := npMin values
      max_val := npMax values
      sorted_pairs := sortedPairs (indices.zip values) }

structure LocalStats (C : Type) where
  numeric_cols : List C
  col_stats : Entries C ColStats

namespace DataFrame

variable {C : Type} (X : DataFrame C)

def numeric_cols : List C := X.columns.filter fun col => (X.column col).isNumeric

def non_numeric_cols : List C := X.columns.filter fun col => !(X.column col).isNumeric

def non_numeric_has_missing : Bool :=
  X.non_numeric_cols.any fun col => (X.column col).missingStats.has_missing

/-- What the client sends. -/
def localStats : Option (LocalStats C) :=
  if X.non_numeric_has_missing then none
  else some {
    numeric_cols := X.numeric_cols
    col_stats := Dict.table (fun col => colStats (validData (X.column col))) X.numeric_cols }

end DataFrame

/-! ## The statistics of the server -/

structure ColGlobal where
  global_mean : Option Number
  global_min : Option Number
  global_max : Option Number
  avg_slope : Number
  total_valid : ℕ

/-- The slopes between neighbouring pairs of different rows. -/
def slopes : List (ℕ × Number) → List Number
  | (idx1, val1) :: (idx2, val2) :: pairs =>
      if idx1 < idx2 then
        (val2 - val1) / Float.Model.ofNat (idx2 - idx1) :: slopes ((idx2, val2) :: pairs)
      else slopes ((idx2, val2) :: pairs)
  | _ => []

def averageSlope (np : NumPy) (all_pairs : List (ℕ × Number)) : Number :=
  if slopes (sortedPairs all_pairs) = [] then Float.Model.ofNat 0
  else np.mean (slopes (sortedPairs all_pairs))

def colGlobal (np : NumPy) (col_stats_list : List ColStats) : ColGlobal :=
  let valid_col_stats := col_stats_list.filter fun s => decide (0 < s.n_valid)
  let total_valid := (valid_col_stats.map fun s => s.n_valid).sum
  if total_valid = 0 then
    { global_mean := none
      global_min := none
      global_max := none
      avg_slope := Float.Model.ofNat 0
      total_valid := 0 }
  else
    let all_pairs := valid_col_stats.flatMap fun s => s.sorted_pairs
    { global_mean := some (np.mean (all_pairs.map Prod.snd))
      global_min := npMin (valid_col_stats.filterMap fun s => s.min_val)
      global_max := npMax (valid_col_stats.filterMap fun s => s.max_val)
      avg_slope := averageSlope np all_pairs
      total_valid }

structure GlobalStats (C : Type) where
  numeric_cols : List C
  col_stats : Entries C ColGlobal

/-- The columns come in any order. -/
def globalStats {C : Type} [DecidableEq C] (np : NumPy) (valid_local_stats : List (LocalStats C)) :
    GlobalStats C :=
  let all_numeric_cols := (valid_local_stats.flatMap fun s => s.numeric_cols).dedup
  { numeric_cols := all_numeric_cols
    col_stats := all_numeric_cols.filterMap fun col =>
      let col_stats_list := valid_local_stats.filterMap fun s => find? s.col_stats col
      if col_stats_list.isEmpty then none else some (col, colGlobal np col_stats_list) }

/-! ## Filling a cell -/

/-- The nearest index of a valid point before or after a row. -/
def nearestIdx (indices : List ℕ) (idx : ℕ) (before : Bool) : Option ℕ :=
  if before then (indices.filter fun i => decide (i < idx)).max?
  else (indices.filter fun i => decide (idx < i)).min?

/-- `_find_nearest_valid` -/
def findNearestValid (valid_data : List ℕ × List Number) (idx : ℕ) (before : Bool) :
    Option (ℕ × Number) := do
  let (indices, values) := valid_data
  let nearest_idx ← nearestIdx indices idx before
  let value ← values[indices.idxOf nearest_idx]?
  return (nearest_idx, value)

def linearInterpolation (np : NumPy) (prev next : ℕ × Number) (curr_idx : ℕ) : Number :=
  let ratio := np.ratio (curr_idx - prev.1) (next.1 - prev.1)
  prev.2 + ratio * (next.2 - prev.2)

def extrapolateForward (prev : ℕ × Number) (curr_idx : ℕ) (avg_slope : Number) : Number :=
  prev.2 + Float.Model.ofNat (curr_idx - prev.1) * avg_slope

def extrapolateBackward (next : ℕ × Number) (curr_idx : ℕ) (avg_slope : Number) : Number :=
  next.2 - Float.Model.ofNat (next.1 - curr_idx) * avg_slope

/-- `np.clip`, which leaves a NaN. -/
def clip (x lo hi : Number) : Number :=
  if x.isNaN then x
  else
    let y := if x < lo then lo else x
    if hi < y then hi else y

/-- The value of the rule for a missing cell; `None` is the mean of a column without values. -/
def ruleValue (np : NumPy) (valid_data : List ℕ × List Number) (col_global : ColGlobal)
    (idx : ℕ) : Option Number :=
  match findNearestValid valid_data idx true, findNearestValid valid_data idx false with
  | some prev, some next => some (linearInterpolation np prev next idx)
  | some prev, none => some (extrapolateForward prev idx col_global.avg_slope)
  | none, some next => some (extrapolateBackward next idx col_global.avg_slope)
  | none, none => col_global.global_mean

def interpolated (np : NumPy) (valid_data : List ℕ × List Number) (col_global : ColGlobal)
    (idx : ℕ) : Option Number :=
  match ruleValue np valid_data col_global idx, col_global.global_min, col_global.global_max with
  | some x, some lo, some hi => some (clip x lo hi)
  | value, _, _ => value

/-- A column after the loop over its missing cells. A `None` is stored as NaN. -/
def fillColumn (np : NumPy) {rows : ℕ} (values : Fin rows → Number) (col_global : ColGlobal) :
    Fin rows → Number := fun r =>
  if (values r).isNaN then
    (interpolated np (validData (.numeric values)) col_global r).getD nan
  else values r

/-- `transform`: the columns of the table that is returned. -/
def transform {C : Type} [DecidableEq C] (np : NumPy) (X : DataFrame C) (module : GlobalStats C) :
    C → Column X.rows := fun col =>
  if X.non_numeric_has_missing then X.column col
  else match X.column col with
    | .other values => .other values
    | .numeric values =>
        if (X.column col).missingStats.has_missing then
          match find? module.col_stats col with
          | none => .numeric values
          | some col_global => .numeric (fillColumn np values col_global)
        else .numeric values

/-! ## The exchange -/

inductive Key where
  | local_stats
  | global_stats
  deriving DecidableEq, Repr

inductive Message (C : Type) where
  | local_stats (stats : Option (LocalStats C))
  | global_stats (stats : GlobalStats C)

instance (C : Type) : Inhabited (Message C) := ⟨.local_stats none⟩

def Message.local? {C : Type} : Message C → Option (Option (LocalStats C))
  | .local_stats stats => some stats
  | .global_stats _ => none

def Message.global? {C : Type} : Message C → Option (GlobalStats C)
  | .local_stats _ => none
  | .global_stats stats => some stats

section Exchange

variable {N : ℕ} {C : Type} [DecidableEq C] (np : NumPy)

def fitTransformClient (X : DataFrame C) :
    Prog (Party N × Key) (Message C) Stats.Err (C → Column X.rows) :=
  sendHost .local_stats (.local_stats X.localStats) <|
  recvHost Message.global? .TypeError .global_stats fun module => .ret (transform np X module)

def fitServer : Prog (Party N × Key) (Message C) Stats.Err Unit :=
  recv_all Message.local? .TypeError .local_stats fun all_local_stats =>
  let valid_local_stats := all_local_stats.filterMap id
  if valid_local_stats.isEmpty then .raise .ValueError
  else send_all .global_stats (.global_stats (globalStats np valid_local_stats)) (.ret ())

end Exchange

/-! ## The tables of the clients -/

/-- No cell of a column that is not numeric is missing. -/
def DataFrame.Complete {C : Type} (X : DataFrame C) : Prop :=
  ∀ col ∈ X.columns, ∀ values, X.column col = .other values → ∀ r, values r ≠ none

structure Clients (C : Type) where
  N : ℕ
  X : Fin N → DataFrame C

namespace Clients

variable {C : Type} (T : Clients C)

/-- A valid value of a column on a client with complete other columns. -/
def IsValid (col : C) (x : Number) : Prop :=
  x.isNaN = false ∧ ∃ j, (T.X j).Complete ∧ col ∈ (T.X j).columns ∧
    ∃ values, (T.X j).column col = .numeric values ∧ ∃ r, values r = x

/-- A numeric column and what becomes of it: the present cells stay, no cell is missing if there is
a valid value, and every filled cell lies between two valid values. -/
structure ColumnImputed (col : C) {rows : ℕ} (values filled : Fin rows → Number) : Prop where
  kept : ∀ r, (values r).isNaN = false → filled r = values r
  complete : (∃ x, T.IsValid col x) → ∀ r, (filled r).isNaN = false
  range : ∀ r, (values r).isNaN = true → (filled r).isNaN = false →
    ∃ lo hi, T.IsValid col lo ∧ T.IsValid col hi ∧ lo ≤ filled r ∧ filled r ≤ hi

/-- The columns of client `j` and what becomes of them. -/
structure Imputed (j : Fin T.N) (result : C → Column (T.X j).rows) : Prop where
  other : ∀ col ∈ (T.X j).columns, ∀ values, (T.X j).column col = .other values →
    result col = .other values
  numeric : ∀ col ∈ (T.X j).columns, ∀ values, (T.X j).column col = .numeric values →
    ∃ filled, result col = .numeric filled ∧ T.ColumnImputed col values filled

/-- If a client has complete other columns, then in any order of the steps all parties come to an
end, and every such client has an imputed table. -/
def Imputes [DecidableEq C] (np : NumPy) : Prop :=
  (∃ j, (T.X j).Complete) →
    ∃ a, RunsTogether id (together (fitServer np) fun j => fitTransformClient np (T.X j)) a ∧
      ∀ j, (T.X j).Complete → T.Imputed j (a (some j))

end Clients

/-! ## The condition -/

section Gaps

variable {rows : ℕ} (values : Fin rows → Number) (r i : Fin rows)

/-- The last valid row before `r`. -/
structure Before : Prop where
  lt : i < r
  valid : (values i).isNaN = false
  gap : ∀ k, i < k → k < r → (values k).isNaN = true

/-- The first valid row after `r`. -/
structure After : Prop where
  lt : r < i
  valid : (values i).isNaN = false
  gap : ∀ k, r < k → k < i → (values k).isNaN = true

/-- The arithmetic for a missing cell stays with numbers, where `slope` and `mean` are those of the
column over all clients. -/
structure Fillable (slope mean : Number) : Prop where
  between : ∀ i k, Before values r i → After values r k → (values i).isInf = false
  after : ∀ i, Before values r i → (∀ k, r < k → (values k).isNaN = true) →
    (Float.Model.ofNat (r - i) * slope).isNaN = false ∧
      ¬ ∃ s, (values i).unpack = .infinity s ∧
        (Float.Model.ofNat (r - i) * slope).unpack = .infinity (-s)
  before : ∀ i, After values r i → (∀ k, k < r → (values k).isNaN = true) →
    (Float.Model.ofNat (i - r) * slope).isNaN = false ∧
      ¬ ∃ s, (values i).unpack = .infinity s ∧
        (Float.Model.ofNat (i - r) * slope).unpack = .infinity s
  alone : (∀ k, (values k).isNaN = true) → mean.isNaN = false

end Gaps

/-! ## The nearest valid rows -/

section Nearest

variable {rows : ℕ} {values : Fin rows → Number} {r i : Fin rows}

theorem mem_validRows : i ∈ validRows values ↔ (values i).isNaN = false := by
  simp [validRows]

/-- The value at the position of its index. -/
theorem getElem?_idxOf {β : Type} (g : Fin rows → β) {l : List (Fin rows)} (h : i ∈ l) :
    (l.map g)[(l.map Fin.val).idxOf i.val]? = some (g i) := by
  induction l with
  | nil => cases h
  | cons k l ih =>
      rw [List.map_cons, List.map_cons, List.idxOf_cons]
      by_cases hk : k = i
      · simp [hk]
      · have hne : (k.val == i.val) = false := by simpa [Fin.ext_iff] using hk
        have hmem : i ∈ l := (List.mem_cons.mp h).resolve_left fun h => hk h.symm
        simpa [hne] using ih hmem

theorem findNearestValid_of_some {before : Bool} (h : i ∈ validRows values)
    (hnearest : nearestIdx ((validRows values).map Fin.val) r before = some i.val) :
    findNearestValid (validData (.numeric values)) r before = some (i.val, values i) := by
  unfold findNearestValid validData
  simp only [hnearest]
  show ((((validRows values).map values)[((validRows values).map Fin.val).idxOf i.val]?).bind
    fun value => some (i.val, value)) = _
  rw [getElem?_idxOf values h]
  rfl

/-- A row between is not valid. -/
theorem not_valid_of_gap {k : Fin rows} (hvalid : k ∈ validRows values) :
    ¬ (values k).isNaN = true := by
  rw [mem_validRows.mp hvalid]
  exact Bool.false_ne_true

theorem findNearestValid_before (h : Before values r i) :
    findNearestValid (validData (.numeric values)) r true = some (i.val, values i) := by
  have hmem : i ∈ validRows values := mem_validRows.mpr h.valid
  apply findNearestValid_of_some hmem
  rw [nearestIdx, if_pos rfl, List.max?_eq_some_iff, List.mem_filter]
  refine ⟨⟨List.mem_map_of_mem hmem, decide_eq_true h.lt⟩, fun k hk => ?_⟩
  obtain ⟨hk, hlt⟩ := List.mem_filter.mp hk
  obtain ⟨k, hvalid, rfl⟩ := List.mem_map.mp hk
  exact not_lt.mp fun hgt => not_valid_of_gap hvalid (h.gap k hgt (of_decide_eq_true hlt))

theorem findNearestValid_after (h : After values r i) :
    findNearestValid (validData (.numeric values)) r false = some (i.val, values i) := by
  have hmem : i ∈ validRows values := mem_validRows.mpr h.valid
  apply findNearestValid_of_some hmem
  rw [nearestIdx, if_neg Bool.false_ne_true, List.min?_eq_some_iff, List.mem_filter]
  refine ⟨⟨List.mem_map_of_mem hmem, decide_eq_true h.lt⟩, fun k hk => ?_⟩
  obtain ⟨hk, hlt⟩ := List.mem_filter.mp hk
  obtain ⟨k, hvalid, rfl⟩ := List.mem_map.mp hk
  exact not_lt.mp fun hgt => not_valid_of_gap hvalid (h.gap k (of_decide_eq_true hlt) hgt)

theorem findNearestValid_of_none {before : Bool}
    (hnone : nearestIdx ((validRows values).map Fin.val) r before = none) :
    findNearestValid (validData (.numeric values)) r before = none := by
  unfold findNearestValid validData
  simp only [hnone]
  rfl

/-- No row is valid where every value is missing. -/
theorem filter_validRows_eq_nil {p : ℕ → Bool}
    (h : ∀ k : Fin rows, p k = true → (values k).isNaN = true) :
    ((validRows values).map Fin.val).filter p = [] := by
  refine List.filter_eq_nil_iff.mpr fun k hk hp => ?_
  obtain ⟨k, hvalid, rfl⟩ := List.mem_map.mp hk
  exact not_valid_of_gap hvalid (h k hp)

theorem findNearestValid_no_before (h : ∀ k, k < r → (values k).isNaN = true) :
    findNearestValid (validData (.numeric values)) r true = none := by
  apply findNearestValid_of_none
  rw [nearestIdx, if_pos rfl,
    filter_validRows_eq_nil fun k hlt => h k (of_decide_eq_true hlt)]
  rfl

theorem findNearestValid_no_after (h : ∀ k, r < k → (values k).isNaN = true) :
    findNearestValid (validData (.numeric values)) r false = none := by
  apply findNearestValid_of_none
  rw [nearestIdx, if_neg Bool.false_ne_true,
    filter_validRows_eq_nil fun k hlt => h k (of_decide_eq_true hlt)]
  rfl

/-- On one side of a row there is a valid row, or none at all. -/
theorem valid_or_none (values : Fin rows → Number) (p : Fin rows → Prop) [DecidablePred p] :
    (Finset.univ.filter fun k => p k ∧ (values k).isNaN = false).Nonempty ∨
      ∀ k, p k → (values k).isNaN = true := by
  refine (Finset.eq_empty_or_nonempty _).symm.imp_right fun hempty k hk => ?_
  have hnot := Finset.filter_eq_empty_iff.mp hempty (Finset.mem_univ k)
  exact Bool.eq_true_of_not_eq_false fun hvalid => hnot ⟨hk, hvalid⟩

/-- There is a last valid row before, or none at all. -/
theorem before_or_none (values : Fin rows → Number) (r : Fin rows) :
    (∃ i, Before values r i) ∨ ∀ k, k < r → (values k).isNaN = true := by
  refine (valid_or_none values (· < r)).imp_left fun hne => ?_
  obtain ⟨i, hi, hmax⟩ := Finset.exists_max_image _ id hne
  obtain ⟨-, hlt, hvalid⟩ := Finset.mem_filter.mp hi
  refine ⟨i, hlt, hvalid, fun k hik hkr => Bool.eq_true_of_not_eq_false fun hk => ?_⟩
  exact absurd hik (not_lt.mpr (hmax k (Finset.mem_filter.mpr ⟨Finset.mem_univ k, hkr, hk⟩)))

/-- There is a first valid row after, or none at all. -/
theorem after_or_none (values : Fin rows → Number) (r : Fin rows) :
    (∃ i, After values r i) ∨ ∀ k, r < k → (values k).isNaN = true := by
  refine (valid_or_none values (r < ·)).imp_left fun hne => ?_
  obtain ⟨i, hi, hmin⟩ := Finset.exists_min_image _ id hne
  obtain ⟨-, hlt, hvalid⟩ := Finset.mem_filter.mp hi
  refine ⟨i, hlt, hvalid, fun k hrk hki => Bool.eq_true_of_not_eq_false fun hk => ?_⟩
  exact absurd hki (not_lt.mpr (hmin k (Finset.mem_filter.mpr ⟨Finset.mem_univ k, hrk, hk⟩)))

end Nearest

/-! ## What the rules give -/

section Rules

variable {rows : ℕ} {values : Fin rows → Number} {r : Fin rows}

theorem not_all_missing {i : Fin rows} (h : (values i).isNaN = false) :
    ¬ ∀ k, (values k).isNaN = true := by
  intro hall
  simp [hall i] at h

theorem Before.not_none {i : Fin rows} (h : Before values r i) :
    ¬ ∀ k, k < r → (values k).isNaN = true := by
  intro hnone
  simpa [h.valid] using hnone i h.lt

theorem After.not_none {i : Fin rows} (h : After values r i) :
    ¬ ∀ k, r < k → (values k).isNaN = true := by
  intro hnone
  simpa [h.valid] using hnone i h.lt

theorem Before.unique {i i' : Fin rows} (h : Before values r i) (h' : Before values r i') :
    i = i' := by
  rcases lt_trichotomy i i' with hlt | heq | hgt
  · exact absurd (h.gap i' hlt h'.lt) (by simp [h'.valid])
  · exact heq
  · exact absurd (h'.gap i hgt h.lt) (by simp [h.valid])

theorem After.unique {i i' : Fin rows} (h : After values r i) (h' : After values r i') :
    i = i' := by
  rcases lt_trichotomy i i' with hlt | heq | hgt
  · exact absurd (h'.gap i h.lt hlt) (by simp [h.valid])
  · exact heq
  · exact absurd (h.gap i' h'.lt hgt) (by simp [h'.valid])

variable (np : NumPy) {col_global : ColGlobal} {mean : Number}

/-- Between two valid rows. -/
theorem ruleValue_between (hrows : rows < 2 ^ 63) {i k : Fin rows} (hi : Before values r i)
    (hk : After values r k) : ∃ x, ruleValue np (validData (.numeric values)) col_global r = some x ∧
      (x.isNaN = false ↔ Fillable values r col_global.avg_slope mean) := by
  have hir : i.val < r.val := hi.lt
  have hrk : r.val < k.val := hk.lt
  have hratio : IsPositive (np.ratio (r - i) (k - i)) :=
    np.ratio_pos (by omega) (by omega) (by omega)
  refine ⟨linearInterpolation np (i, values i) (k, values k) r, ?_, ?_⟩
  · rw [ruleValue, findNearestValid_before hi, findNearestValid_after hk]
  · rw [Bool.eq_false_iff, linearInterpolation, ne_eq,
      isNaN_interpolate_iff hratio hi.valid hk.valid, Bool.not_eq_true]
    constructor
    · intro hinf
      exact ⟨fun i' k' hi' _ => hi.unique hi' ▸ hinf, fun _ _ hnone => absurd hnone hk.not_none,
        fun _ _ hnone => absurd hnone hi.not_none,
        fun hall => absurd hall (not_all_missing hi.valid)⟩
    · intro h
      exact h.between i k hi hk

/-- After the last valid row. -/
theorem ruleValue_after {i : Fin rows} (hi : Before values r i)
    (hnone : ∀ k, r < k → (values k).isNaN = true) :
    ∃ x, ruleValue np (validData (.numeric values)) col_global r = some x ∧
      (x.isNaN = false ↔ Fillable values r col_global.avg_slope mean) := by
  refine ⟨extrapolateForward (i, values i) r col_global.avg_slope, ?_, ?_⟩
  · rw [ruleValue, findNearestValid_before hi, findNearestValid_no_after hnone]
  · rw [Bool.eq_false_iff, extrapolateForward, ne_eq, isNaN_add_iff, hi.valid]
    simp only [Bool.false_eq_true, false_or, not_or, Bool.not_eq_true]
    constructor
    · intro hnumber
      exact ⟨fun _ k _ hk => absurd hnone hk.not_none, fun i' hi' _ => hi.unique hi' ▸ hnumber,
        fun _ _ hbefore => absurd hbefore hi.not_none,
        fun hall => absurd hall (not_all_missing hi.valid)⟩
    · intro h
      exact h.after i hi hnone

/-- Before the first valid row. -/
theorem ruleValue_before {i : Fin rows} (hi : After values r i)
    (hnone : ∀ k, k < r → (values k).isNaN = true) :
    ∃ x, ruleValue np (validData (.numeric values)) col_global r = some x ∧
      (x.isNaN = false ↔ Fillable values r col_global.avg_slope mean) := by
  refine ⟨extrapolateBackward (i, values i) r col_global.avg_slope, ?_, ?_⟩
  · rw [ruleValue, findNearestValid_no_before hnone, findNearestValid_after hi]
  · rw [Bool.eq_false_iff, extrapolateBackward, ne_eq, isNaN_sub_iff, hi.valid]
    simp only [Bool.false_eq_true, false_or, not_or, Bool.not_eq_true]
    constructor
    · intro hnumber
      exact ⟨fun k _ hk _ => absurd hnone hk.not_none,
        fun _ _ hafter => absurd hafter hi.not_none, fun i' hi' _ => hi.unique hi' ▸ hnumber,
        fun hall => absurd hall (not_all_missing hi.valid)⟩
    · intro h
      exact h.before i hi hnone

/-- **The rule for a missing cell** gives a number exactly where the condition says so. -/
theorem ruleValue_isNaN_iff (hrows : rows < 2 ^ 63) (hr : (values r).isNaN = true)
    (hmean : col_global.global_mean = some mean) :
    ∃ x, ruleValue np (validData (.numeric values)) col_global r = some x ∧
      (x.isNaN = false ↔ Fillable values r col_global.avg_slope mean) := by
  rcases before_or_none values r with ⟨i, hi⟩ | hbefore
  · rcases after_or_none values r with ⟨k, hk⟩ | hafter
    · exact ruleValue_between np hrows hi hk
    · exact ruleValue_after np hi hafter
  · rcases after_or_none values r with ⟨k, hk⟩ | hafter
    · exact ruleValue_before np hk hbefore
    · have hall : ∀ k, (values k).isNaN = true := by
        intro k
        rcases lt_trichotomy k r with hlt | rfl | hgt
        · exact hbefore k hlt
        · exact hr
        · exact hafter k hgt
      have hvalid : ∀ i, ¬ (values i).isNaN = false := by simp [hall]
      refine ⟨mean, ?_, ?_⟩
      · rw [ruleValue, findNearestValid_no_before hbefore, findNearestValid_no_after hafter]
        exact hmean
      · exact ⟨fun hnumber => ⟨fun i _ hi _ => absurd hi.valid (hvalid i),
          fun i hi _ => absurd hi.valid (hvalid i), fun i hi _ => absurd hi.valid (hvalid i),
          fun _ => hnumber⟩, fun h => h.alone hall⟩

end Rules

/-! ## Clipping -/

/-- A number is clipped to the range. -/
theorem clip_mem {x lo hi : Number} (hx : x.isNaN = false) (h : lo ≤ hi) :
    lo ≤ clip x lo hi ∧ clip x lo hi ≤ hi := by
  obtain ⟨l, u, hl, hu, hlu⟩ := le_iff.mp h
  obtain ⟨p, hp⟩ := exists_rank hx
  rw [clip, if_neg (by simp [hx])]
  by_cases hlow : x < lo
  · have hnot : ¬ hi < lo := (not_lt_iff hu hl).mpr hlu
    rw [if_pos hlow]
    dsimp only
    rw [if_neg hnot]
    exact ⟨le_iff.mpr ⟨l, l, hl, hl, le_rfl⟩, h⟩
  · have hle : l ≤ p := (not_lt_iff hp hl).mp hlow
    rw [if_neg hlow]
    dsimp only
    by_cases hhigh : hi < x
    · rw [if_pos hhigh]
      exact ⟨h, le_iff.mpr ⟨u, u, hu, hu, le_rfl⟩⟩
    · rw [if_neg hhigh]
      exact ⟨le_iff.mpr ⟨l, p, hl, hp, hle⟩, le_iff.mpr ⟨p, u, hp, hu, (not_lt_iff hu hp).mp hhigh⟩⟩

/-! ## The range -/

theorem npMin_spec {l : List Number} (hl : ∀ x ∈ l, x.isNaN = false) {x : Number} (hx : x ∈ l) :
    ∃ lo, npMin l = some lo ∧ lo ∈ l ∧ ∀ y ∈ l, lo ≤ y := by
  cases l with
  | nil => cases hx
  | cons a l =>
      obtain ⟨p, hp⟩ := exists_rank (hl a List.mem_cons_self)
      obtain ⟨q, hq, hbound⟩ := rank_minOf hp l
      refine ⟨minOf a l, rfl, minOf_mem a l, fun y hy => ?_⟩
      obtain ⟨s, hs⟩ := exists_rank (hl y hy)
      exact le_iff.mpr ⟨q, s, hq, hs, hbound y hy s hs⟩

theorem npMax_spec {l : List Number} (hl : ∀ x ∈ l, x.isNaN = false) {x : Number} (hx : x ∈ l) :
    ∃ hi, npMax l = some hi ∧ hi ∈ l ∧ ∀ y ∈ l, y ≤ hi := by
  cases l with
  | nil => cases hx
  | cons a l =>
      obtain ⟨p, hp⟩ := exists_rank (hl a List.mem_cons_self)
      obtain ⟨q, hq, hbound⟩ := rank_maxOf hp l
      refine ⟨maxOf a l, rfl, maxOf_mem a l, fun y hy => ?_⟩
      obtain ⟨s, hs⟩ := exists_rank (hl y hy)
      exact le_iff.mpr ⟨s, q, hs, hq, hbound y hy s hs⟩

/-- The extreme value of the extreme values of several lists. -/
theorem extreme_of_extremes {f : List Number → Option Number} {R : Number → Number → Prop}
    (hf : ∀ l : List Number, (∀ x ∈ l, x.isNaN = false) → ∀ x ∈ l,
      ∃ m, f l = some m ∧ m ∈ l ∧ ∀ y ∈ l, R m y)
    (htrans : ∀ x y z, R x y → R y z → R x z) {ls : List (List Number)}
    (hempty : f [] = none) (hls : ∀ x ∈ ls.flatten, x.isNaN = false) {x : Number}
    (hx : x ∈ ls.flatten) :
    ∃ m, f (ls.filterMap f) = some m ∧ m ∈ ls.flatten ∧ ∀ y ∈ ls.flatten, R m y := by
  have heach : ∀ l ∈ ls, ∀ y ∈ l, ∃ m, f l = some m ∧ m ∈ l ∧ ∀ y ∈ l, R m y := fun l hl =>
    hf l fun y hy => hls y (List.mem_flatten_of_mem hl hy)
  have hmem : ∀ m ∈ ls.filterMap f, m ∈ ls.flatten := by
    intro m hm
    obtain ⟨l, hl, hfl⟩ := List.mem_filterMap.mp hm
    cases l with
    | nil =>
        rw [hempty] at hfl
        cases hfl
    | cons a l =>
        obtain ⟨m', hfl', hm', -⟩ := heach _ hl a List.mem_cons_self
        obtain rfl := Option.some.inj (hfl'.symm.trans hfl)
        exact List.mem_flatten_of_mem hl hm'
  have hbelow : ∀ y ∈ ls.flatten, ∃ m ∈ ls.filterMap f, R m y := by
    intro y hy
    obtain ⟨l, hl, hyl⟩ := List.mem_flatten.mp hy
    obtain ⟨m, hfl, -, hall⟩ := heach l hl y hyl
    exact ⟨m, List.mem_filterMap.mpr ⟨l, hl, hfl⟩, hall y hyl⟩
  obtain ⟨m, hm, -⟩ := hbelow x hx
  obtain ⟨m', hfm, hm', hall⟩ := hf _ (fun y hy => hls y (hmem y hy)) m hm
  refine ⟨m', hfm, hmem m' hm', fun y hy => ?_⟩
  obtain ⟨m'', hm'', hle⟩ := hbelow y hy
  exact htrans m' m'' y (hall m'' hm'') hle

/-! ## The statistics of a column -/

/-- Valid data as a client has it: the rows in their order, with a number for each. -/
structure ProperData (d : List ℕ × List Number) : Prop where
  length : d.1.length = d.2.length
  sorted : d.1.Pairwise (· < ·)
  number : ∀ x ∈ d.2, x.isNaN = false

theorem properData_validData {rows : ℕ} (c : Column rows) : ProperData (validData c) := by
  cases c with
  | numeric values =>
      refine ⟨by simp [validData], ?_, ?_⟩
      · have hrows : (validRows values).Pairwise (· < ·) :=
          (List.pairwise_lt_finRange rows).filter _
        exact List.pairwise_map.mpr hrows
      · intro x hx
        obtain ⟨r, hr, rfl⟩ := List.mem_map.mp hx
        exact mem_validRows.mp hr
  | other values => exact ⟨rfl, List.Pairwise.nil, fun x hx => absurd hx List.not_mem_nil⟩

namespace ProperData

variable {d : List ℕ × List Number}

theorem sortedPairs_eq (h : ProperData d) : sortedPairs (d.1.zip d.2) = d.1.zip d.2 := by
  apply List.mergeSort_of_pairwise
  have hfst : ((d.1.zip d.2).map Prod.fst).Pairwise (· < ·) := by
    rw [List.map_fst_zip h.length.le]
    exact h.sorted
  exact (List.pairwise_map.mp hfst).imp fun hlt => decide_eq_true hlt.le

theorem eq_nil (h : ProperData d) (hlen : d.1.length = 0) : d.1 = [] ∧ d.2 = [] :=
  ⟨List.length_eq_zero_iff.mp hlen, List.length_eq_zero_iff.mp (h.length.symm.trans hlen)⟩

/-- The statistics of a column, with or without values. -/
theorem colStats_eq (h : ProperData d) : colStats d =
    { n_valid := d.1.length
      min_val := npMin d.2
      max_val := npMax d.2
      sorted_pairs := d.1.zip d.2 } := by
  obtain ⟨indices, values⟩ := d
  by_cases hlen : indices.length = 0
  · obtain ⟨rfl, rfl⟩ := h.eq_nil hlen
    rfl
  · refine (if_neg hlen).trans ?_
    rw [h.sortedPairs_eq]

end ProperData

/-- The points of several clients. -/
def pointsOf (ds : List (List ℕ × List Number)) : List (ℕ × Number) :=
  ds.flatMap fun d => d.1.zip d.2

section Global

variable {ds : List (List ℕ × List Number)} (hds : ∀ d ∈ ds, ProperData d)

include hds in
/-- Statistics without values add nothing. -/
theorem flatMap_valid {β : Type} {g : ColStats → List β} (hg : ∀ n, g ⟨n, none, none, []⟩ = []) :
    ((ds.map colStats).filter fun s => decide (0 < s.n_valid)).flatMap g =
      (ds.map colStats).flatMap g := by
  induction ds with
  | nil => rfl
  | cons d ds ih =>
      have ih := ih fun d' hd' => hds d' (List.mem_cons_of_mem d hd')
      have hd := hds d List.mem_cons_self
      rw [List.map_cons, List.flatMap_cons, ← ih, List.filter_cons]
      by_cases hlen : d.1.length = 0
      · have hstats : colStats d = ⟨0, none, none, []⟩ := by
          obtain ⟨h1, h2⟩ := hd.eq_nil hlen
          rw [hd.colStats_eq, h1, h2]
          rfl
        rw [hstats, hg]
        rfl
      · have hpos : decide (0 < (colStats d).n_valid) = true := by
          rw [hd.colStats_eq]
          exact decide_eq_true (Nat.pos_of_ne_zero hlen)
        rw [if_pos hpos, List.flatMap_cons]

include hds in
theorem flatMap_sorted_pairs :
    ((ds.map colStats).filter fun s => decide (0 < s.n_valid)).flatMap (fun s => s.sorted_pairs) =
      pointsOf ds := by
  rw [flatMap_valid hds fun _ => rfl, List.flatMap_map]
  refine List.flatMap_congr fun d hd => ?_
  rw [(hds d hd).colStats_eq]

include hds in
theorem sum_n_valid :
    (((ds.map colStats).filter fun s => decide (0 < s.n_valid)).map fun s => s.n_valid).sum =
      (pointsOf ds).length := by
  rw [← flatMap_sorted_pairs hds, List.length_flatMap]
  refine congrArg List.sum (List.map_congr_left fun s hs => ?_)
  obtain ⟨d, hd, rfl⟩ := List.mem_map.mp (List.mem_of_mem_filter hs)
  have hlen := (hds d hd).length
  rw [(hds d hd).colStats_eq]
  show d.1.length = (d.1.zip d.2).length
  rw [List.length_zip]
  omega

include hds in
theorem values_pointsOf : (pointsOf ds).map Prod.snd = (ds.map Prod.snd).flatten := by
  rw [pointsOf, List.map_flatMap, ← List.flatMap_def]
  exact List.flatMap_congr fun d hd => List.map_snd_zip (hds d hd).length.ge

include hds in
theorem filterMap_extreme {f : List Number → Option Number} {g : ColStats → Option Number}
    (hg : ∀ d ∈ ds, g (colStats d) = f d.2) (hnone : ∀ n, g ⟨n, none, none, []⟩ = none) :
    ((ds.map colStats).filter fun s => decide (0 < s.n_valid)).filterMap g =
      (ds.map Prod.snd).filterMap f := by
  rw [List.filterMap_eq_flatMap_toList, flatMap_valid hds fun n => by rw [hnone]; rfl,
    ← List.filterMap_eq_flatMap_toList, List.filterMap_map, List.filterMap_map]
  exact List.filterMap_congr hg

variable (np : NumPy)

include hds in
/-- A column without values. -/
theorem colGlobal_of_nil (h : pointsOf ds = []) :
    colGlobal np (ds.map colStats) =
      { global_mean := none
        global_min := none
        global_max := none
        avg_slope := Float.Model.ofNat 0
        total_valid := 0 } := by
  have hsum := sum_n_valid hds
  rw [h, List.length_nil] at hsum
  exact if_pos hsum

include hds in
/-- **The statistics of a column** are those of the points of all clients. -/
theorem colGlobal_spec (h : pointsOf ds ≠ []) : ∃ lo hi,
    colGlobal np (ds.map colStats) =
      { global_mean := some (np.mean ((pointsOf ds).map Prod.snd))
        global_min := some lo
        global_max := some hi
        avg_slope := averageSlope np (pointsOf ds)
        total_valid := (pointsOf ds).length } ∧
      lo ∈ (pointsOf ds).map Prod.snd ∧ hi ∈ (pointsOf ds).map Prod.snd ∧
      ∀ x ∈ (pointsOf ds).map Prod.snd, lo ≤ x ∧ x ≤ hi := by
  have hsum := sum_n_valid hds
  have hne : ¬ (((ds.map colStats).filter fun s => decide (0 < s.n_valid)).map
      fun s => s.n_valid).sum = 0 := by
    rw [hsum, List.length_eq_zero_iff]
    exact h
  have hvalues := values_pointsOf hds
  have hnumber : ∀ x ∈ (ds.map Prod.snd).flatten, x.isNaN = false := by
    intro x hx
    obtain ⟨l, hl, hxl⟩ := List.mem_flatten.mp hx
    obtain ⟨d, hd, rfl⟩ := List.mem_map.mp hl
    exact (hds d hd).number x hxl
  obtain ⟨p, hp⟩ := List.exists_mem_of_ne_nil _ h
  have hx : p.2 ∈ (ds.map Prod.snd).flatten := hvalues ▸ List.mem_map_of_mem hp
  obtain ⟨lo, hlo, hlo_mem, hlo_le⟩ := extreme_of_extremes (R := fun a b => a ≤ b)
    (fun l hl x hx => npMin_spec hl hx) (fun _ _ _ => le_trans) rfl hnumber hx
  obtain ⟨hi, hhi, hhi_mem, hhi_le⟩ := extreme_of_extremes (R := fun a b => b ≤ a)
    (fun l hl x hx => npMax_spec hl hx) (fun _ _ _ hab hbc => le_trans hbc hab) rfl hnumber hx
  refine ⟨lo, hi, ?_, hvalues ▸ hlo_mem, hvalues ▸ hhi_mem,
    hvalues ▸ fun x hx => ⟨hlo_le x hx, hhi_le x hx⟩⟩
  have hmin := filterMap_extreme hds (g := fun s => s.min_val)
    (fun d hd => by rw [(hds d hd).colStats_eq]) fun _ => rfl
  have hmax := filterMap_extreme hds (g := fun s => s.max_val)
    (fun d hd => by rw [(hds d hd).colStats_eq]) fun _ => rfl
  refine (if_neg hne).trans ?_
  rw [flatMap_sorted_pairs hds, hmin, hmax, hlo, hhi, hsum]

end Global

/-! ## The tables and the statistics -/

section Tables

variable {C : Type}

theorem has_missing_iff {rows : ℕ} (c : Column rows) :
    c.missingStats.has_missing = true ↔ ∃ r, c.isnull r = true := by
  show decide (0 < (List.finRange rows).countP c.isnull) = true ↔ _
  rw [decide_eq_true_eq, List.countP_pos_iff]
  simp

namespace DataFrame

variable (X : DataFrame C)

theorem complete_iff : X.Complete ↔ X.non_numeric_has_missing = false := by
  rw [Bool.eq_false_iff, ne_eq, non_numeric_has_missing, List.any_eq_true]
  constructor
  · rintro h ⟨col, hcol, hmissing⟩
    obtain ⟨hmem, hkind⟩ := List.mem_filter.mp hcol
    obtain ⟨r, hr⟩ := (has_missing_iff _).mp hmissing
    cases hvalues : X.column col with
    | numeric values => simp [hvalues, Column.isNumeric] at hkind
    | other values =>
        rw [hvalues] at hr
        exact h col hmem values hvalues r (Option.isNone_iff_eq_none.mp hr)
  · intro h col hcol values hvalues r hnone
    have hkind : (!(X.column col).isNumeric) = true := by
      rw [hvalues]
      rfl
    refine h ⟨col, List.mem_filter.mpr ⟨hcol, hkind⟩, (has_missing_iff _).mpr ⟨r, ?_⟩⟩
    rw [hvalues]
    exact Option.isNone_iff_eq_none.mpr hnone

theorem localStats_of_missing (h : X.non_numeric_has_missing = true) : X.localStats = none :=
  if_pos h

theorem localStats_of_complete (h : X.non_numeric_has_missing = false) : X.localStats = some {
    numeric_cols := X.numeric_cols
    col_stats := Dict.table (fun col => colStats (validData (X.column col))) X.numeric_cols } := by
  rw [localStats, h]
  rfl

theorem mem_numeric_cols {col : C} : col ∈ X.numeric_cols ↔
    col ∈ X.columns ∧ ∃ values, X.column col = .numeric values := by
  rw [numeric_cols, List.mem_filter]
  refine and_congr_right fun _ => ?_
  cases X.column col <;> simp [Column.isNumeric]

end DataFrame

namespace Clients

variable [DecidableEq C] (T : Clients C)

/-- The clients whose values of a column the server sees. -/
def holders (col : C) : List (Fin T.N) :=
  (List.finRange T.N).filter fun j =>
    !(T.X j).non_numeric_has_missing && decide (col ∈ (T.X j).numeric_cols)

def data (col : C) : List (List ℕ × List Number) :=
  (T.holders col).map fun j => validData ((T.X j).column col)

/-- The valid points of a column, client by client. -/
def points (col : C) : List (ℕ × Number) := pointsOf (T.data col)

theorem mem_holders {col : C} {j : Fin T.N} : j ∈ T.holders col ↔
    (T.X j).Complete ∧ col ∈ (T.X j).columns ∧ ∃ values, (T.X j).column col = .numeric values := by
  rw [holders, List.mem_filter, Bool.and_eq_true, decide_eq_true_eq, Bool.not_eq_true',
    ← DataFrame.complete_iff, DataFrame.mem_numeric_cols]
  exact and_iff_right (List.mem_finRange j)

theorem properData {col : C} : ∀ d ∈ T.data col, ProperData d := by
  intro d hd
  obtain ⟨j, -, rfl⟩ := List.mem_map.mp hd
  exact properData_validData _

theorem isValid_iff {col : C} {x : Number} :
    T.IsValid col x ↔ x ∈ (T.points col).map Prod.snd := by
  rw [points, values_pointsOf T.properData, data, List.map_map, List.mem_flatten]
  constructor
  · rintro ⟨hx, j, hj, hcol, values, hvalues, r, rfl⟩
    refine ⟨(validData ((T.X j).column col)).2,
      List.mem_map_of_mem (T.mem_holders.mpr ⟨hj, hcol, values, hvalues⟩), ?_⟩
    rw [hvalues]
    exact List.mem_map_of_mem (mem_validRows.mpr hx)
  · rintro ⟨l, hl, hx⟩
    obtain ⟨j, hj, rfl⟩ := List.mem_map.mp hl
    obtain ⟨hcomplete, hcol, values, hvalues⟩ := T.mem_holders.mp hj
    have hx' : x ∈ (validData ((T.X j).column col)).2 := hx
    rw [hvalues] at hx'
    obtain ⟨r, hr, rfl⟩ := List.mem_map.mp hx'
    exact ⟨mem_validRows.mp hr, j, hcomplete, hcol, values, hvalues, r, rfl⟩

/-- What the server keeps of what the clients sent. -/
def localStats : List (LocalStats C) :=
  ((List.finRange T.N).map fun j => (T.X j).localStats).filterMap id

/-- The statistics that the server takes for a column. -/
theorem filterMap_localStats (col : C) :
    T.localStats.filterMap (fun s => find? s.col_stats col) = (T.data col).map colStats := by
  unfold localStats data holders
  induction List.finRange T.N with
  | nil => rfl
  | cons j js ih =>
      rw [List.map_cons, List.filterMap_cons, List.filter_cons]
      cases hmissing : (T.X j).non_numeric_has_missing with
      | true =>
          simp only [(T.X j).localStats_of_missing hmissing, id, Bool.not_true, Bool.false_and,
            Bool.false_eq_true, if_false]
          exact ih
      | false =>
          simp only [(T.X j).localStats_of_complete hmissing, id, Bool.not_false, Bool.true_and,
            List.filterMap_cons, Dict.find?_table, decide_eq_true_eq]
          by_cases hcol : col ∈ (T.X j).numeric_cols
          · simp only [if_pos hcol, List.map_cons]
            exact congrArg (colStats (validData ((T.X j).column col)) :: ·) ih
          · simp only [if_neg hcol]
            exact ih

/-- **What the server sends for a column** that a client with complete other columns has. -/
theorem find?_globalStats (np : NumPy) {col : C} {j : Fin T.N} (hj : j ∈ T.holders col) :
    find? (globalStats np T.localStats).col_stats col =
      some (colGlobal np ((T.data col).map colStats)) := by
  obtain ⟨hcomplete, hnumeric⟩ := T.mem_holders.mp hj
  have hcol : col ∈ (T.X j).numeric_cols := (T.X j).mem_numeric_cols.mpr hnumeric
  have hlocal := (T.X j).localStats_of_complete ((T.X j).complete_iff.mp hcomplete)
  have hmem : col ∈ (T.localStats.flatMap fun s => s.numeric_cols).dedup := by
    rw [List.mem_dedup, List.mem_flatMap]
    exact ⟨_, List.mem_filterMap.mpr ⟨_, List.mem_map_of_mem (List.mem_finRange j), hlocal⟩, hcol⟩
  have hne : (T.data col).map colStats ≠ [] := by
    rw [ne_eq, List.map_eq_nil_iff, data, List.map_eq_nil_iff]
    exact List.ne_nil_of_mem hj
  rw [globalStats]
  refine (Dict.find?_filterMap ?_ _ col).trans ?_
  · intro k e he
    dsimp only at he
    split_ifs at he
    rw [← Option.some.inj he]
  · rw [if_pos hmem, T.filterMap_localStats, if_neg (by simpa using hne)]
    rfl

/-! ## The filled columns -/

section Filled

variable (np : NumPy)

/-- The average slope and the mean of a column over all clients. -/
def slope (col : C) : Number := averageSlope np (T.points col)

def mean (col : C) : Number := np.mean ((T.points col).map Prod.snd)

/-- The condition on a column. -/
def ColumnFillable (col : C) {rows : ℕ} (values : Fin rows → Number) : Prop :=
  (∃ x, T.IsValid col x) → ∀ r, (values r).isNaN = true →
    Fillable values r (T.slope np col) (T.mean np col)

variable {np} {col : C} {rows : ℕ} {values : Fin rows → Number}

theorem fillColumn_of_valid {col_global : ColGlobal} {r : Fin rows}
    (h : (values r).isNaN = false) : fillColumn np values col_global r = values r := by
  rw [fillColumn, h]
  rfl

theorem fillColumn_of_missing {col_global : ColGlobal} {r : Fin rows}
    (h : (values r).isNaN = true) : fillColumn np values col_global r =
      (interpolated np (validData (.numeric values)) col_global r).getD nan := by
  rw [fillColumn, if_pos h]

theorem isNaN_nan : nan.isNaN = true := (isNaN_pack _).mpr rfl

variable (np) in
/-- A missing cell of a column with valid values. -/
theorem fillColumn_missing {lo hi : Number} {col_global : ColGlobal} {r : Fin rows}
    (hrows : rows < 2 ^ 63) (hlohi : lo ≤ hi) (hmean : col_global.global_mean = some (T.mean np col))
    (hmin : col_global.global_min = some lo) (hmax : col_global.global_max = some hi)
    (hslope : col_global.avg_slope = T.slope np col) (hr : (values r).isNaN = true) :
    ((fillColumn np values col_global r).isNaN = false ↔
        Fillable values r (T.slope np col) (T.mean np col)) ∧
      ((fillColumn np values col_global r).isNaN = false →
        lo ≤ fillColumn np values col_global r ∧ fillColumn np values col_global r ≤ hi) := by
  obtain ⟨x, hx, hfillable⟩ := ruleValue_isNaN_iff np hrows hr hmean
  have hcell : fillColumn np values col_global r = clip x lo hi := by
    rw [fillColumn_of_missing hr, interpolated, hx, hmin, hmax]
    rfl
  rw [hslope] at hfillable
  rw [hcell, ← hfillable]
  cases hnan : x.isNaN with
  | true =>
      have hstays : clip x lo hi = x := if_pos hnan
      rw [hstays, hnan]
      exact ⟨Iff.rfl, fun h => by cases h⟩
  | false =>
      have hbetween := clip_mem hnan hlohi
      exact ⟨iff_of_true (isNaN_left_of_le hbetween.2) rfl, fun _ => hbetween⟩

/-- A column without valid values on any client stays as it is. -/
theorem fillColumn_of_nil {r : Fin rows} (hnil : T.points col = [])
    (hall : ∀ k, (values k).isNaN = true) :
    fillColumn np values (colGlobal np ((T.data col).map colStats)) r = nan := by
  have hglobal := colGlobal_of_nil T.properData np hnil
  have hrule : ruleValue np (validData (.numeric values))
      (colGlobal np ((T.data col).map colStats)) r = none := by
    rw [ruleValue, findNearestValid_no_before fun k _ => hall k,
      findNearestValid_no_after fun k _ => hall k, hglobal]
  rw [fillColumn_of_missing (hall r), interpolated, hrule]
  rfl

/-- **A filled column** is imputed exactly where the condition holds. -/
theorem columnImputed_fill {j : Fin T.N} {values : Fin (T.X j).rows → Number}
    (hj : j ∈ T.holders col) (hvalues : (T.X j).column col = .numeric values) :
    T.ColumnImputed col values
        (fillColumn np values (colGlobal np ((T.data col).map colStats))) ↔
      T.ColumnFillable np col values := by
  obtain ⟨hcomplete, hcol, -⟩ := T.mem_holders.mp hj
  by_cases hnil : T.points col = []
  · -- no client has a valid value
    have hnone : ¬ ∃ x, T.IsValid col x := by
      rintro ⟨x, hx⟩
      rw [isValid_iff, hnil] at hx
      cases hx
    have hall : ∀ k, (values k).isNaN = true := fun k => Bool.eq_true_of_not_eq_false fun hk =>
      hnone ⟨values k, hk, j, hcomplete, hcol, values, hvalues, k, rfl⟩
    refine iff_of_true ⟨fun r hr => fillColumn_of_valid hr, fun h => absurd h hnone,
      fun r _ hfilled => ?_⟩ fun h => absurd h hnone
    rw [T.fillColumn_of_nil hnil hall, isNaN_nan] at hfilled
    cases hfilled
  · obtain ⟨lo, hi, hglobal, hlo, hhi, hbounds⟩ := colGlobal_spec T.properData np hnil
    have hlohi : lo ≤ hi := (hbounds hi hhi).1
    have hmean := congrArg ColGlobal.global_mean hglobal
    have hmin := congrArg ColGlobal.global_min hglobal
    have hmax := congrArg ColGlobal.global_max hglobal
    have hslope := congrArg ColGlobal.avg_slope hglobal
    have hcell := fun r (hr : (values r).isNaN = true) =>
      T.fillColumn_missing np (T.X j).rows_lt hlohi hmean hmin hmax hslope hr
    constructor
    · intro h hex r hr
      exact (hcell r hr).1.mp (h.complete hex r)
    · intro h
      refine ⟨fun r hr => fillColumn_of_valid hr, fun hex r => ?_, fun r hr hfilled => ?_⟩
      · cases hr : (values r).isNaN with
        | true => exact (hcell r hr).1.mpr (h hex r hr)
        | false => rw [fillColumn_of_valid hr, hr]
      · obtain ⟨hle, hge⟩ := (hcell r hr).2 hfilled
        exact ⟨lo, hi, T.isValid_iff.mpr hlo, T.isValid_iff.mpr hhi, hle, hge⟩

variable (np col) in
/-- A column without missing cells. -/
theorem columnImputed_self (h : ∀ r, (values r).isNaN = false) :
    T.ColumnImputed col values values ∧ T.ColumnFillable np col values :=
  ⟨⟨fun _ _ => rfl, fun _ r => h r, fun r hr => absurd hr (by simp [h r])⟩,
    fun _ r hr => absurd hr (by simp [h r])⟩

/-- **The table of a client** with complete other columns. -/
theorem imputed_transform {j : Fin T.N} (hcomplete : (T.X j).Complete) :
    T.Imputed j (transform np (T.X j) (globalStats np T.localStats)) ↔
      ∀ col ∈ (T.X j).columns, ∀ values, (T.X j).column col = .numeric values →
        T.ColumnFillable np col values := by
  have hflag := (T.X j).complete_iff.mp hcomplete
  have hcolumn : ∀ col ∈ (T.X j).columns, ∀ values, (T.X j).column col = .numeric values →
      ∃ filled, transform np (T.X j) (globalStats np T.localStats) col = .numeric filled ∧
        (T.ColumnImputed col values filled ↔ T.ColumnFillable np col values) := by
    intro col hcol values hvalues
    have hj : j ∈ T.holders col := T.mem_holders.mpr ⟨hcomplete, hcol, values, hvalues⟩
    cases hmissing : ((T.X j).column col).missingStats.has_missing with
    | true =>
        refine ⟨fillColumn np values (colGlobal np ((T.data col).map colStats)), ?_,
          T.columnImputed_fill hj hvalues⟩
        unfold transform
        rw [hflag, if_neg Bool.false_ne_true, hmissing, T.find?_globalStats np hj, hvalues]
        rfl
    | false =>
        have hvalid : ∀ r, (values r).isNaN = false := by
          intro r
          rw [Bool.eq_false_iff] at hmissing ⊢
          intro hr
          refine hmissing ((has_missing_iff _).mpr ⟨r, ?_⟩)
          rw [hvalues]
          exact hr
        obtain ⟨himputed, hfillable⟩ := T.columnImputed_self np col hvalid
        refine ⟨values, ?_, iff_of_true himputed hfillable⟩
        unfold transform
        rw [hflag, if_neg Bool.false_ne_true, hmissing, hvalues]
        rfl
  constructor
  · intro h col hcol values hvalues
    obtain ⟨filled, hfilled, hiff⟩ := hcolumn col hcol values hvalues
    obtain ⟨filled', hfilled', himputed⟩ := h.numeric col hcol values hvalues
    rw [hfilled] at hfilled'
    cases hfilled'
    exact hiff.mp himputed
  · intro h
    refine ⟨fun col hcol values hvalues => ?_, fun col hcol values hvalues => ?_⟩
    · unfold transform
      rw [hflag, if_neg Bool.false_ne_true, hvalues]
    · obtain ⟨filled, hfilled, hiff⟩ := hcolumn col hcol values hvalues
      exact ⟨filled, hfilled, hiff.mpr (h col hcol values hvalues)⟩

variable (np) in
/-- The parties come to the end. -/
theorem plays_fit (h : ∃ j, (T.X j).Complete) :
    Plays (together (fitServer np) fun j => fitTransformClient np (T.X j))
      (both () fun j => transform np (T.X j) (globalStats np T.localStats)) := by
  obtain ⟨j, hj⟩ := h
  have hne : ¬ T.localStats.isEmpty = true := by
    rw [List.isEmpty_iff]
    exact List.ne_nil_of_mem (List.mem_filterMap.mpr ⟨_, List.mem_map_of_mem (List.mem_finRange j),
      (T.X j).localStats_of_complete ((T.X j).complete_iff.mp hj)⟩)
  refine guests_to_host (v := fun j => (T.X j).localStats) (fun _ => rfl) ?_
  refine (congrArg (fun p => Exchanges (together p _) _) (if_neg hne)).mpr ?_
  exact host_to_guests (fun _ => rfl) (plays_ret _ _)

end Filled

end Clients

end Tables

/-! ## The whole run -/

/-- What imputed tables say of their missing cells. -/
theorem Clients.Imputes.fillable {C : Type} [DecidableEq C] {np : NumPy} {T : Clients C}
    (h : T.Imputes np) {j : Fin T.N} (hj : (T.X j).Complete) :
    ∀ col ∈ (T.X j).columns, ∀ values, (T.X j).column col = .numeric values →
      T.ColumnFillable np col values := by
  have himputed := (T.plays_fit np ⟨j, hj⟩).exists_runsTogether_iff.mp (h ⟨j, hj⟩) j hj
  exact (T.imputed_transform hj).mp himputed

/-- **When the tables are imputed**: exactly when in no missing cell of a column with valid values
the arithmetic of the rule gives NaN. -/
theorem imputes_iff {C : Type} [DecidableEq C] (np : NumPy) (T : Clients C) :
    T.Imputes np ↔ ∀ j, (T.X j).Complete → ∀ col ∈ (T.X j).columns, ∀ values,
      (T.X j).column col = .numeric values → T.ColumnFillable np col values := by
  constructor
  · intro h j hj
    exact h.fillable hj
  · intro h hex
    refine (T.plays_fit np hex).exists_runsTogether_iff.mpr fun j hj => ?_
    exact (T.imputed_transform hj).mpr (h j hj)

/-- The functions as loops over doubles; a quotient that is not positive does not occur. -/
def loops : NumPy where
  mean l := l.foldl (· + ·) (Float.Model.ofNat 0) / Float.Model.ofNat l.length
  ratio a b :=
    let q := Float.Model.ofNat a / Float.Model.ofNat b
    match q.unpack with
    | .finite .positive _ _ _ => q
    | _ => Float.Model.ofNat 1
  ratio_pos {a b} _ _ _ := by
    dsimp only
    split
    · rename_i m e h hq
      exact ⟨m, e, h, hq⟩
    · exact ⟨_, _, _, rfl⟩

def infinity : Number := Float.Model.pack (.infinity .positive)

/-- Infinity, a missing cell and one. -/
def gap : Fin 3 → Number := ![infinity, nan, Float.Model.ofNat 1]

def afterInfinity : Clients Unit where
  N := 1
  X := fun _ =>
    { rows := 3
      rows_lt := by norm_num
      columns := [()]
      columns_nodup := List.nodup_singleton ()
      column := fun _ => .numeric gap }

theorem valid_first : (gap ⟨0, by decide⟩).isNaN = false := by
  show infinity.isNaN = false
  rw [Bool.eq_false_iff, ne_eq, infinity, isNaN_pack]
  exact fun h => by cases h

theorem valid_last : (gap ⟨2, by decide⟩).isNaN = false := by
  show (Float.Model.ofNat 1).isNaN = false
  have hpositive : IsPositive (Float.Model.ofNat 1) := ⟨_, _, _, rfl⟩
  obtain ⟨m, e, h, hm⟩ := hpositive
  rw [Bool.eq_false_iff, ne_eq, FloatNaN.isNaN_iff, hm]
  exact fun h => by cases h

theorem missing_middle : (gap ⟨1, by decide⟩).isNaN = true := by
  show nan.isNaN = true
  exact Clients.isNaN_nan

theorem before_gap : Before gap ⟨1, by decide⟩ ⟨0, by decide⟩ where
  lt := by decide
  valid := valid_first
  gap := fun k h0 h1 => absurd (Fin.lt_def.mp h1) (Nat.not_lt.mpr h0)

theorem after_gap : After gap ⟨1, by decide⟩ ⟨2, by decide⟩ where
  lt := by decide
  valid := valid_last
  gap := fun k h1 h2 => absurd (Fin.lt_def.mp h2) (Nat.not_lt.mpr h1)

theorem complete_afterInfinity (j : Fin afterInfinity.N) : (afterInfinity.X j).Complete := by
  intro col hcol values hvalues
  cases hvalues

/-- The missing cell stays missing. -/
theorem not_imputes_afterInfinity : ¬ afterInfinity.Imputes loops := by
  intro h
  have hvalid : afterInfinity.IsValid () (gap ⟨0, by decide⟩) :=
    ⟨valid_first, ⟨0, Nat.one_pos⟩, complete_afterInfinity _, List.mem_cons_self, gap, rfl,
      ⟨0, by decide⟩, rfl⟩
  have hfillable : afterInfinity.ColumnFillable loops () gap :=
    h.fillable (complete_afterInfinity ⟨0, Nat.one_pos⟩) () List.mem_cons_self gap rfl
  have hfinite := (hfillable ⟨_, hvalid⟩ ⟨1, by decide⟩ missing_middle).between
    ⟨0, by decide⟩ ⟨2, by decide⟩ before_gap after_gap
  rw [Bool.eq_false_iff] at hfinite
  exact hfinite (isInf_iff.mpr ⟨.positive, unpack_pack_infinity .positive⟩)

end Fediux.Preprocessing.Interpolate
