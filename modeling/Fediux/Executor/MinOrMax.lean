import Fediux.Basic.Fallible
import Fediux.Executor.Statistics

set_option autoImplicit false

/-! # `MPCMinOrMax`

Each party finds the extreme value of its columns in plain (`PlainTextDataCompute`), from initial
values that are meant to be neutral. For each column the parties then compare their values in two
rounds, and the one that is left shares its value (`CipherTextDataCompute`). An auxiliary party
takes part with an initial value. `returns_iff` says when every party gets the extreme value of the
pooled rows.
-/

namespace Fediux.Statistics.MinOrMax

open Util (Str)
open OrderedMap (Entries find?)
open Replicated (Party)
open Compare (atParties)

inductive StatisticsType where
  | MAX
  | MIN
  deriving DecidableEq, Repr

/-! ## The extreme value of a party -/

/-- `std::numeric_limits<double>::min()`, the smallest positive normal number. -/
@[irreducible] def doubleMin : ℚ := 1 / 2 ^ 1022

/-- `std::numeric_limits<double>::max()`. -/
@[irreducible] def doubleMax : ℚ := (2 ^ 53 - 1) * 2 ^ 971

/-- `fillInitValue` by the type of its argument. -/
def initInt32 : StatisticsType → ℤ
  | .MAX => -2 ^ 31
  | .MIN => 2 ^ 31 - 1

def initInt64 : StatisticsType → ℤ
  | .MAX => -2 ^ 63
  | .MIN => 2 ^ 63 - 1

def initDouble : StatisticsType → ℚ
  | .MAX => doubleMin
  | .MIN => doubleMax

/-- A round of the loop of `minOrMax`. -/
def keep {α : Type} [LE α] [DecidableLE α] (type : StatisticsType) (val x : α) : α :=
  match type with
  | .MAX => if val ≤ x then x else val
  | .MIN => if x ≤ val then x else val

def minOrMax {α : Type} [LE α] [DecidableLE α] (type : StatisticsType) (array : List α)
    (val : α) : α :=
  array.foldl (keep type) val

def fillChunkResult (type : StatisticsType) (cur_val new_val : ℚ) : ℚ :=
  match type with
  | .MIN => if new_val < cur_val then new_val else cur_val
  | .MAX => if cur_val < new_val then new_val else cur_val

/-- `m / d` to the nearest integer, ties to even. -/
def roundEven (m d : ℕ) : ℕ :=
  if 2 * (m % d) < d ∨ (2 * (m % d) = d ∧ m / d % 2 = 0) then m / d else m / d + 1

/-- `static_cast<double>` of an integer: 53 bits are kept. -/
def toDouble (n : ℤ) : ℚ :=
  let unit := 2 ^ (n.natAbs.log2 - 52)
  ((n.sign * (roundEven n.natAbs unit * unit : ℕ) : ℤ) : ℚ)

/-- The result behind a chunk. Arrow integers other than `INT32` and `INT64` are passed over. -/
def chunkResult (M : Memory) (type : StatisticsType) (col_type : Option ColumnDtype)
    (t : ArrowType) (col_result : ℚ) (chunk : List t.Cell) : Except Fault ℚ :=
  let integers : Except Fault ℚ :=
    match t, chunk with
    | .integer true .w32, chunk =>
        let val := minOrMax type (chunk.map (BitVec.toInt (n := 32))) (initInt32 type)
        .ok (fillChunkResult type col_result (toDouble val))
    | .integer true .w64, chunk =>
        let val := minOrMax type (chunk.map (BitVec.toInt (n := 64))) (initInt64 type)
        .ok (fillChunkResult type col_result (toDouble val))
    | _, _ => .ok col_result
  match col_type with
  | none => .error .nullPointer
  | some .INTEGER => integers
  | some .LONG => integers
  | some .DOUBLE =>
      match chunk.mapM (readDouble M t) with
      | some array =>
          .ok (fillChunkResult type col_result (minOrMax type array (initDouble type)))
      | none => .error .outOfRange
  | some _ => .error (.failed 1)

def columnResult (M : Memory) (type : StatisticsType) (table : Table)
    (col_dtype : Entries Str ColumnDtype) (col_name : Str) : Except Fault ℚ :=
  match GetColumnByName table col_name with
  | none => .error (.failed 1)
  | some c =>
      c.chunks.foldlM (chunkResult M type (find? col_dtype col_name) c.type) (initDouble type)

def PlainTextDataCompute (M : Memory) (type : StatisticsType) (table : Table)
    (columns : List Str) (col_dtype : Entries Str ColumnDtype) : Except Fault (List ℚ) :=
  columns.mapM (columnResult M type table col_dtype)

/-- `MPCTask::MakeAuxiliaryComputeData`, whose return code is not read. -/
def MakeAuxiliaryComputeData (type : StatisticsType) (shape : List ℕ) : List ℚ :=
  match shape with
  | [_, col_size] => List.replicate col_size (initDouble type)
  | _ => []

/-- A party with a table, or an auxiliary one with the shape that the launcher sent. -/
inductive Input where
  | table (t : Table) (col_dtype : Entries Str ColumnDtype)
  | auxiliary (shape : List ℕ)

def colData (M : Memory) (type : StatisticsType) (columns : List Str) :
    Input → Except Fault (List ℚ)
  | .table t col_dtype => PlainTextDataCompute M type t columns col_dtype
  | .auxiliary shape => .ok (MakeAuxiliaryComputeData type shape)

/-! ## The joint phase -/

/-- The numbers that `f64<D16>` holds. -/
def InRange (x : ℚ) : Prop := |x| < 2 ^ 47

instance : DecidablePred InRange := fun x => inferInstanceAs (Decidable (|x| < 2 ^ 47))

/-- The scaled number, cut toward zero. -/
def fixed (x : ℚ) : ℤ := if 0 ≤ x then ⌊x * 2 ^ 16⌋ else ⌈x * 2 ^ 16⌉

/-- The fixed-point number of a double. -/
def rounded (x : ℚ) : ℚ := fixed x / 2 ^ 16

/-- The parties of the list with their values, the others without. -/
def provide (ps : List Party) (v : Party → I64) (p : Party) : Option I64 :=
  if p ∈ ps then some (v p) else none

/-- Fixed-point numbers and the joint operations on them: `MPC_Compare` with `revealAll`, and
`createShares` with `revealAll`. They are right for numbers in range. -/
structure Engine where
  Runtime : Type
  encode : ℚ → I64
  compare : Runtime → (Party → Option I64) → Except Fault ((Party → Bool) × Runtime)
  shareAndReveal : Runtime → (Party → Option I64) → Except Fault ((Party → ℚ) × Runtime)
  compare_inRange : ∀ (r : Runtime) (lo hi : Party) (x : Party → ℚ), lo < hi →
    InRange (x lo) → InRange (x hi) → ∃ r',
      compare r (provide [lo, hi] fun p => encode (x p)) =
        .ok (fun _ => decide (fixed (x lo) < fixed (x hi)), r')
  shareAndReveal_inRange : ∀ (r : Runtime) (p : Party) (x : Party → ℚ), InRange (x p) →
    ∃ r', shareAndReveal r (provide [p] fun p => encode (x p)) =
      .ok (fun _ => rounded (x p), r')

section

variable (E : Engine)

/-- The two rounds of comparisons, and the value of the party that is left. -/
def tournament (r : E.Runtime) (toCompare toShare : Party → I64) :
    Except Fault ((Party → ℚ) × E.Runtime) := do
  -- party 0 against party 1
  let (cmp_result, r) ← E.compare r (provide [0, 1] toCompare)
  let smaller_party (p : Party) : Party := if cmp_result p then 0 else 1
  -- the winner against party 2
  let (cmp_result, r) ← E.compare r fun p => provide [smaller_party p, 2] toCompare p
  let smallest_party (p : Party) : Party := if cmp_result p then smaller_party p else 2
  E.shareAndReveal r fun p => provide [smallest_party p] toShare p

def minValueOfAllParty (r : E.Runtime) (local_min : Party → ℚ) :
    Except Fault ((Party → ℚ) × E.Runtime) :=
  tournament E r (fun p => E.encode (local_min p)) fun p => E.encode (local_min p)

/-- The comparisons are of the negated values. -/
def maxValueOfAllParty (r : E.Runtime) (local_max : Party → ℚ) :
    Except Fault ((Party → ℚ) × E.Runtime) :=
  tournament E r (fun p => E.encode (-1 * local_max p)) fun p => E.encode (local_max p)

def valueOfAllParty (type : StatisticsType) (r : E.Runtime) (col_result : Party → ℚ) :
    Except Fault ((Party → ℚ) × E.Runtime) :=
  match type with
  | .MIN => minValueOfAllParty E r col_result
  | .MAX => maxValueOfAllParty E r col_result

/-- The loop of `CipherTextDataCompute` at the three parties: the results by column. -/
def CipherTextDataCompute (type : StatisticsType) (r : E.Runtime) :
    List ℚ → List ℚ → List ℚ → Except Fault (List (Party → ℚ) × E.Runtime)
  | [], [], [] => .ok ([], r)
  | v0 :: vs0, v1 :: vs1, v2 :: vs2 => do
      let (result, r) ← valueOfAllParty E type r (atParties v0 v1 v2)
      let (results, r) ← CipherTextDataCompute type r vs0 vs1 vs2
      return (result :: results, r)
  | _, _, _ => .error .diverged

/-- The run at the three parties: the results by party. -/
def run (M : Memory) (r : E.Runtime) (type : StatisticsType) (columns : List Str)
    (inputs : Party → Input) : Except Fault (Party → List ℚ) := do
  let data0 ← colData M type columns (inputs 0)
  let data1 ← colData M type columns (inputs 1)
  let data2 ← colData M type columns (inputs 2)
  let (results, _) ← CipherTextDataCompute E type r data0 data1 data2
  return fun p => results.map fun result => result p

end

/-! ## Fixed-point numbers -/

theorem fixed_mono {x y : ℚ} (h : x ≤ y) : fixed x ≤ fixed y := by
  have hscaled : x * 2 ^ 16 ≤ y * 2 ^ 16 := mul_le_mul_of_nonneg_right h (by positivity)
  unfold fixed
  split
  · rw [if_pos (by linarith)]
    exact Int.floor_le_floor hscaled
  · split
    · -- cut upwards to at most zero, and downwards to at least zero
      have hlow : ⌈x * 2 ^ 16⌉ ≤ 0 := Int.ceil_le.mpr (by push_cast; linarith)
      have hhigh : 0 ≤ ⌊y * 2 ^ 16⌋ := Int.floor_nonneg.mpr (by linarith)
      exact hlow.trans hhigh
    · exact Int.ceil_le_ceil hscaled

theorem fixed_neg (x : ℚ) : fixed (-x) = -fixed x := by
  unfold fixed
  rcases lt_trichotomy x 0 with h | rfl | h
  · rw [if_pos (by linarith), if_neg (by linarith), neg_mul, Int.floor_neg]
  · simp
  · rw [if_neg (by linarith), if_pos h.le, neg_mul, Int.ceil_neg]

theorem fixed_intCast (n : ℤ) : fixed (n : ℚ) = n * 2 ^ 16 := by
  have hcast : (n : ℚ) * 2 ^ 16 = ((n * 2 ^ 16 : ℤ) : ℚ) := by push_cast; rfl
  unfold fixed
  rw [hcast]
  split
  · exact Int.floor_intCast _
  · exact Int.ceil_intCast _

/-- A number that is not negative in fixed point. -/
theorem fixed_nonneg_iff (x : ℚ) : 0 ≤ fixed x ↔ -1 / 2 ^ 16 < x := by
  unfold fixed
  split
  · rename_i h
    constructor
    · intro _
      linarith
    · intro _
      exact Int.floor_nonneg.mpr (by linarith)
  · rw [← Int.sub_one_lt_iff, Int.lt_ceil]
    constructor
    · intro h
      push_cast at h
      linarith
    · intro h
      push_cast
      linarith

theorem doubleMin_pos : 0 < doubleMin := by
  unfold doubleMin
  positivity

theorem doubleMin_lt : doubleMin < 1 / 2 ^ 16 := by
  unfold doubleMin
  exact one_div_lt_one_div_of_lt (by positivity) (pow_lt_pow_right₀ one_lt_two (by decide))

theorem fixed_doubleMin : fixed doubleMin = 0 := by
  unfold fixed
  rw [if_pos doubleMin_pos.le, Int.floor_eq_zero_iff]
  constructor
  · exact mul_nonneg doubleMin_pos.le (by positivity)
  · calc
      doubleMin * 2 ^ 16 < 1 / 2 ^ 16 * 2 ^ 16 :=
        mul_lt_mul_of_pos_right doubleMin_lt (by positivity)
      _ = 1 := by norm_num

theorem abs_fixed_lt {x : ℚ} (h : InRange x) : |fixed x| < 2 ^ 63 := by
  have habs := abs_lt.mp h
  rw [abs_lt]
  rcases le_or_gt 0 x with hx | hx
  · have hnonneg : 0 ≤ fixed x := (fixed_nonneg_iff x).mpr (by linarith)
    have hlt : fixed x < 2 ^ 63 := by
      rw [fixed, if_pos hx, Int.floor_lt]
      push_cast
      linarith
    omega
  · have hneg : fixed x ≤ fixed 0 := fixed_mono hx.le
    have hzero : fixed 0 = 0 := by simp [fixed]
    have hlt : -2 ^ 63 < fixed x := by
      rw [fixed, if_neg hx.not_ge, Int.lt_ceil]
      push_cast
      linarith
    omega

/-! ## Maxima as minima -/

/-- The order in which the better value is the smaller one. -/
def oriented {α : Type} [Neg α] (type : StatisticsType) (x : α) : α :=
  match type with
  | .MAX => -x
  | .MIN => x

theorem fixed_oriented (type : StatisticsType) (x : ℚ) :
    fixed (oriented type x) = oriented type (fixed x) := by
  cases type with
  | MAX => exact fixed_neg x
  | MIN => rfl

theorem oriented_injective {α : Type} [InvolutiveNeg α] {type : StatisticsType} :
    Function.Injective (oriented type : α → α) := by
  cases type with
  | MAX => exact neg_injective
  | MIN => exact Function.injective_id

section Keep

variable {α : Type} [LinearOrder α] {type : StatisticsType}

theorem keep_eq_or (a x : α) : keep type a x = a ∨ keep type a x = x := by
  cases type with
  | MAX => exact (ite_eq_or_eq (a ≤ x) x a).symm
  | MIN => exact (ite_eq_or_eq (x ≤ a) x a).symm

theorem minOrMax_cons (x : α) (l : List α) (a : α) :
    minOrMax type (x :: l) a = minOrMax type l (keep type a x) := rfl

theorem minOrMax_append (l l' : List α) (a : α) :
    minOrMax type (l ++ l') a = minOrMax type l' (minOrMax type l a) := List.foldl_append

theorem minOrMax_mem (l : List α) (a : α) : minOrMax type l a ∈ a :: l := by
  induction l generalizing a with
  | nil => exact List.mem_cons_self
  | cons x l ih =>
      rw [minOrMax_cons]
      rcases List.mem_cons.mp (ih (keep type a x)) with h | h
      · rcases keep_eq_or a x with hkeep | hkeep
        · rw [h, hkeep]
          exact List.mem_cons_self
        · rw [h, hkeep]
          exact List.mem_cons_of_mem _ List.mem_cons_self
      · exact List.mem_cons_of_mem _ (List.mem_cons_of_mem _ h)

variable [AddCommGroup α] [IsOrderedAddMonoid α]

theorem oriented_keep (a x : α) :
    oriented type (keep type a x) = min (oriented type a) (oriented type x) := by
  cases type with
  | MAX =>
      show -(if a ≤ x then x else a) = min (-a) (-x)
      rw [min_neg_neg, max_def]
  | MIN =>
      show (if x ≤ a then x else a) = min a x
      rw [min_comm, min_def]

theorem keep_of_le {a x : α} (h : oriented type x ≤ oriented type a) : keep type a x = x := by
  refine @oriented_injective _ _ type _ _ ?_
  rw [oriented_keep, min_eq_right h]

theorem oriented_minOrMax_le {l : List α} {a x : α} (h : x ∈ a :: l) :
    oriented type (minOrMax type l a) ≤ oriented type x := by
  induction l generalizing a x with
  | nil => rw [List.mem_singleton.mp h]; exact le_rfl
  | cons y l ih =>
      rw [minOrMax_cons]
      have hfirst := ih (a := keep type a y) List.mem_cons_self
      rw [oriented_keep] at hfirst
      rcases List.mem_cons.mp h with rfl | h
      · exact hfirst.trans (min_le_left _ _)
      · rcases List.mem_cons.mp h with rfl | h
        · exact hfirst.trans (min_le_right _ _)
        · exact ih (List.mem_cons_of_mem _ h)

/-- A list has its extreme value. -/
theorem exists_least (type : StatisticsType) {l : List α} (h : l ≠ []) :
    ∃ m ∈ l, ∀ v ∈ l, oriented type m ≤ oriented type v := by
  obtain ⟨a, l, rfl⟩ := List.exists_cons_of_ne_nil h
  exact ⟨minOrMax type l a, minOrMax_mem l a, fun v hv => oriented_minOrMax_le hv⟩

end Keep

theorem fillChunkResult_eq (type : StatisticsType) (a x : ℚ) :
    fillChunkResult type a x = keep type a x := by
  refine @oriented_injective _ _ type _ _ ?_
  rw [oriented_keep]
  cases type with
  | MAX =>
      show -(if a < x then x else a) = min (-a) (-x)
      rw [min_neg_neg, max_def_lt]
  | MIN =>
      show (if x < a then x else a) = min a x
      rw [min_comm, min_def_lt]

/-- Keeping a value and then the best of a list. -/
theorem keep_minOrMax (type : StatisticsType) (cur s : ℚ) (l : List ℚ) :
    keep type cur (minOrMax type l s) = minOrMax type (s :: l) cur := by
  refine @oriented_injective _ _ type _ _ ?_
  induction l generalizing s cur with
  | nil => rfl
  | cons x l ih =>
      rw [minOrMax_cons, ih, minOrMax_cons, minOrMax_cons, minOrMax_cons]
      congr 2
      refine @oriented_injective _ _ type _ _ ?_
      rw [oriented_keep, oriented_keep, oriented_keep, oriented_keep, min_assoc]

/-! ## Integers as doubles -/

theorem toDouble_of_lt {n : ℤ} (h : n.natAbs < 2 ^ 53) : toDouble n = n := by
  have hlog : n.natAbs.log2 - 52 = 0 := by
    by_cases hzero : n.natAbs = 0
    · rw [hzero]
      rfl
    · have := (Nat.log2_lt hzero).mpr h
      omega
  have hround : roundEven n.natAbs 1 = n.natAbs := by
    unfold roundEven
    rw [Nat.mod_one, if_pos (.inl one_pos), Nat.div_one]
  unfold toDouble
  rw [hlog]
  dsimp only
  rw [pow_zero, hround, mul_one, Int.sign_mul_natAbs]

theorem cast_keep (type : StatisticsType) (a x : ℤ) :
    ((keep type a x : ℤ) : ℚ) = keep type (a : ℚ) x := by
  cases type with
  | MAX =>
      simp only [keep, Int.cast_le]
      split <;> rfl
  | MIN =>
      simp only [keep, Int.cast_le]
      split <;> rfl

theorem cast_minOrMax (type : StatisticsType) (l : List ℤ) (a : ℤ) :
    ((minOrMax type l a : ℤ) : ℚ) = minOrMax type (l.map (↑)) (a : ℚ) := by
  induction l generalizing a with
  | nil => rfl
  | cons x l ih => rw [minOrMax_cons, ih, cast_keep, List.map_cons, minOrMax_cons]

/-- The best of integers that are doubles, from an initial value that is not better. -/
theorem toDouble_minOrMax {type : StatisticsType} {l : List ℤ} {init : ℤ}
    (hexact : ∀ x ∈ l, x.natAbs < 2 ^ 53)
    (hinit : ∀ x ∈ l, oriented type x ≤ oriented type init)
    (hdouble : ∀ x ∈ l, oriented type (x : ℚ) ≤ oriented type (toDouble init)) :
    toDouble (minOrMax type l init) = minOrMax type (l.map (↑)) (toDouble init) := by
  cases l with
  | nil => rfl
  | cons x l =>
      rw [List.map_cons, minOrMax_cons, minOrMax_cons, keep_of_le (hinit x List.mem_cons_self),
        keep_of_le (hdouble x List.mem_cons_self), ← cast_minOrMax]
      exact toDouble_of_lt (hexact _ (minOrMax_mem l x))

/-! ## What a party brings -/

/-- `INT32`, `INT64` and `DOUBLE`. -/
def Supported : ArrowType → Prop
  | .integer true .w32 => True
  | .integer true .w64 => True
  | .double => True
  | _ => False

/-- What an empty chunk contributes. -/
def sentinel (type : StatisticsType) : ArrowType → ℚ
  | .integer true .w32 => toDouble (initInt32 type)
  | .integer true .w64 => toDouble (initInt64 type)
  | _ => initDouble type

/-- What the chunks contribute. -/
def contributions (type : StatisticsType) (c : ArrowColumn) : List ℚ :=
  c.chunks.flatMap fun chunk => sentinel type c.type :: chunk.map c.type.value

theorem toDouble_initInt32 (type : StatisticsType) :
    toDouble (initInt32 type) = (initInt32 type : ℚ) := by
  refine toDouble_of_lt ?_
  cases type with
  | MAX => decide
  | MIN => decide

theorem toDouble_initInt64_max : toDouble (initInt64 .MAX) = -2 ^ 63 := by
  decide +kernel

/-- The largest integer is rounded up. -/
theorem toDouble_initInt64_min : toDouble (initInt64 .MIN) = 2 ^ 63 := by
  decide +kernel

theorem natAbs_lt_of_inRange {n : ℤ} (h : InRange n) : n.natAbs < 2 ^ 47 := by
  have habs : |n| < 2 ^ 47 := by
    unfold InRange at h
    exact_mod_cast h
  rw [abs_lt] at habs
  omega

theorem oriented_cast (type : StatisticsType) (n : ℤ) :
    oriented type (n : ℚ) = ((oriented type n : ℤ) : ℚ) := by
  cases type with
  | MAX => exact (Int.cast_neg n).symm
  | MIN => rfl

/-- The branch of an integer array, from an initial value that no cell beats. -/
theorem fillChunkResult_integers {n : ℕ} {type : StatisticsType} {init : ℤ} (cur : ℚ)
    {cells : List (BitVec n)} (hrange : ∀ b ∈ cells, InRange (b.toInt : ℚ))
    (hinit : ∀ b ∈ cells, oriented type b.toInt ≤ oriented type init)
    (hdouble : ∀ b ∈ cells, oriented type (b.toInt : ℚ) ≤ oriented type (toDouble init)) :
    fillChunkResult type cur (toDouble (minOrMax type (cells.map BitVec.toInt) init)) =
      minOrMax type (toDouble init :: cells.map fun b => (b.toInt : ℚ)) cur := by
  rw [toDouble_minOrMax, fillChunkResult_eq, keep_minOrMax, List.map_map]
  · rfl
  · intro x hx
    obtain ⟨b, hb, rfl⟩ := List.mem_map.mp hx
    have := natAbs_lt_of_inRange (hrange b hb)
    omega
  · intro x hx
    obtain ⟨b, hb, rfl⟩ := List.mem_map.mp hx
    exact hinit b hb
  · intro x hx
    obtain ⟨b, hb, rfl⟩ := List.mem_map.mp hx
    exact hdouble b hb

theorem oriented_int32_le (type : StatisticsType) (b : BitVec 32) :
    oriented type b.toInt ≤ oriented type (initInt32 type) := by
  cases type with
  | MAX =>
      have h := BitVec.le_toInt b
      show -b.toInt ≤ -(-2 ^ 31)
      omega
  | MIN =>
      have h := BitVec.toInt_lt (x := b)
      show b.toInt ≤ 2 ^ 31 - 1
      omega

theorem oriented_int64_le (type : StatisticsType) (b : BitVec 64) :
    oriented type b.toInt ≤ oriented type (initInt64 type) := by
  cases type with
  | MAX =>
      have h := BitVec.le_toInt b
      show -b.toInt ≤ -(-2 ^ 63)
      omega
  | MIN =>
      have h := BitVec.toInt_lt (x := b)
      show b.toInt ≤ 2 ^ 63 - 1
      omega

theorem oriented_int64_le_double {type : StatisticsType} {q : ℚ} (h : InRange q) :
    oriented type q ≤ oriented type (toDouble (initInt64 type)) := by
  have habs := abs_lt.mp h
  cases type with
  | MAX =>
      rw [toDouble_initInt64_max]
      show -q ≤ -(-2 ^ 63)
      linarith
  | MIN =>
      rw [toDouble_initInt64_min]
      show q ≤ 2 ^ 63
      linarith

/-- A chunk whose values are in range. -/
theorem chunkResult_eq (M : Memory) (type : StatisticsType) {dtype : ColumnDtype} {t : ArrowType}
    (hsupported : Supported t) (hdeclares : Declares dtype t) (cur : ℚ) {chunk : List t.Cell}
    (hrange : ∀ x ∈ chunk, InRange (t.value x)) :
    chunkResult M type (some dtype) t cur chunk =
      .ok (minOrMax type (sentinel type t :: chunk.map t.value) cur) := by
  match t, dtype with
  | .double, .DOUBLE =>
      unfold chunkResult
      rw [mapM_readDouble]
      dsimp only
      rw [fillChunkResult_eq, keep_minOrMax]
      rfl
  | .integer true .w32, dtype =>
      have hresult := fillChunkResult_integers cur hrange (fun b _ => oriented_int32_le type b)
        fun b _ => by
          rw [toDouble_initInt32, oriented_cast, oriented_cast]
          exact Int.cast_le.mpr (oriented_int32_le type b)
      match dtype with
      | .INTEGER => exact congrArg Except.ok hresult
      | .LONG => exact congrArg Except.ok hresult
  | .integer true .w64, dtype =>
      have hresult := fillChunkResult_integers cur hrange (fun b _ => oriented_int64_le type b)
        fun b hb => oriented_int64_le_double (hrange b hb)
      match dtype with
      | .INTEGER => exact congrArg Except.ok hresult
      | .LONG => exact congrArg Except.ok hresult

theorem foldlM_chunkResult {M : Memory} {type : StatisticsType} {dtype : ColumnDtype}
    {t : ArrowType} (hsupported : Supported t) (hdeclares : Declares dtype t)
    {chunks : List (List t.Cell)} (hrange : ∀ x ∈ chunks.flatten, InRange (t.value x)) (cur : ℚ) :
    chunks.foldlM (chunkResult M type (some dtype) t) cur = .ok (minOrMax type
      (chunks.flatMap fun chunk => sentinel type t :: chunk.map t.value) cur) := by
  induction chunks generalizing cur with
  | nil => rfl
  | cons chunk chunks ih =>
      have hchunk := chunkResult_eq M type hsupported hdeclares cur
        fun x hx => hrange x (List.mem_append_left _ hx)
      rw [Fallible.foldlM_cons_of_ok hchunk, List.flatMap_cons, minOrMax_append]
      exact ih (fun x hx => hrange x (List.mem_append_right _ hx)) _

namespace Input

/-- The values of a column at a party. -/
def values (column : Str) : Input → List ℚ
  | table t _ => columnValues t column
  | auxiliary _ => []

/-- A table has the columns with fitting types; an auxiliary party has their number. -/
def Fits (columns : List Str) : Input → Prop
  | table t col_dtype => ∀ column ∈ columns, ∃ c dtype, GetColumnByName t column = some c ∧
      find? col_dtype column = some dtype ∧ Declares dtype c.type ∧ Supported c.type
  | auxiliary shape => ∃ rows, shape = [rows, columns.length]

/-- A column of type `INT32` with a chunk. -/
def Int32Chunk (column : Str) : Input → Prop
  | table t _ => ∃ c, GetColumnByName t column = some c ∧ c.type = .integer true .w32 ∧ c.chunks ≠ []
  | auxiliary _ => False

/-- The value that a party brings for a column. -/
def localValue (type : StatisticsType) (column : Str) : Input → ℚ
  | table t _ =>
      match GetColumnByName t column with
      | some c => minOrMax type (contributions type c) (initDouble type)
      | none => initDouble type
  | auxiliary _ => initDouble type

variable {t : Table} {col_dtype : Entries Str ColumnDtype} {column : Str} {c : ArrowColumn}

theorem values_table (hc : GetColumnByName t column = some c) :
    (table t col_dtype).values column = c.chunks.flatten.map c.type.value := by
  rw [values, columnValues, hc]
  rfl

theorem values_table_none (hc : GetColumnByName t column = none) :
    (table t col_dtype).values column = [] := by
  rw [values, columnValues, hc]

theorem localValue_table (type : StatisticsType) (hc : GetColumnByName t column = some c) :
    (table t col_dtype).localValue type column =
      minOrMax type (contributions type c) (initDouble type) := by
  rw [localValue, hc]

theorem localValue_table_none (type : StatisticsType) (hc : GetColumnByName t column = none) :
    (table t col_dtype).localValue type column = initDouble type := by
  rw [localValue, hc]

end Input

variable {type : StatisticsType} {columns : List Str} {column : Str} {input : Input}

theorem colData_eq (M : Memory) (type : StatisticsType) (hfits : input.Fits columns)
    (hrange : ∀ column ∈ columns, ∀ v ∈ input.values column, InRange v) :
    colData M type columns input = .ok (columns.map fun column => input.localValue type column) := by
  cases input with
  | table t col_dtype =>
      refine Fallible.mapM_of_ok fun column hcolumn => ?_
      obtain ⟨c, dtype, hc, hdtype, hdeclares, hsupported⟩ := hfits column hcolumn
      have hcells : ∀ x ∈ c.chunks.flatten, InRange (c.type.value x) := by
        intro x hx
        refine hrange column hcolumn _ ?_
        rw [Input.values_table hc]
        exact List.mem_map_of_mem hx
      rw [columnResult, hc, hdtype, Input.localValue_table type hc]
      exact foldlM_chunkResult hsupported hdeclares hcells _
  | auxiliary shape =>
      obtain ⟨rows, rfl⟩ := hfits
      show Except.ok (List.replicate columns.length (initDouble type)) = _
      rw [← List.map_const']
      rfl

/-- A party brings nothing worse than any of its values, or than the initial value. -/
theorem oriented_localValue_le {v : ℚ} (h : v ∈ input.values column ∨ v = initDouble type) :
    oriented type (input.localValue type column) ≤ oriented type v := by
  cases input with
  | auxiliary shape =>
      rcases h with h | rfl
      · cases h
      · exact le_refl (oriented type (initDouble type))
  | table t col_dtype =>
      cases hc : GetColumnByName t column with
      | none =>
          rw [Input.values_table_none hc] at h
          rw [Input.localValue_table_none type hc, h.resolve_left List.not_mem_nil]
      | some c =>
          rw [Input.values_table hc] at h
          rw [Input.localValue_table type hc]
          refine oriented_minOrMax_le ?_
          rcases h with h | rfl
          · obtain ⟨x, hx, rfl⟩ := List.mem_map.mp h
            obtain ⟨chunk, hchunk, hx⟩ := List.mem_flatten.mp hx
            refine List.mem_cons_of_mem _ (List.mem_flatMap.mpr ⟨chunk, hchunk, ?_⟩)
            exact List.mem_cons_of_mem _ (List.mem_map_of_mem hx)
          · exact List.mem_cons_self

/-- Where the value of a party comes from. -/
theorem localValue_cases (type : StatisticsType) (column : Str) (input : Input) :
    input.localValue type column = initDouble type ∨
      input.localValue type column ∈ input.values column ∨
      ∃ t col_dtype c, input = .table t col_dtype ∧ GetColumnByName t column = some c ∧
        c.chunks ≠ [] ∧ input.localValue type column = sentinel type c.type := by
  cases input with
  | auxiliary shape => exact .inl rfl
  | table t col_dtype =>
      cases hc : GetColumnByName t column with
      | none => exact .inl (Input.localValue_table_none type hc)
      | some c =>
          rw [Input.localValue_table type hc, Input.values_table hc]
          rcases List.mem_cons.mp (minOrMax_mem (contributions type c) (initDouble type)) with h | h
          · exact .inl h
          · -- a chunk contributes its sentinel or a value
            obtain ⟨chunk, hchunk, h⟩ := List.mem_flatMap.mp h
            rcases List.mem_cons.mp h with h | h
            · exact .inr (.inr ⟨t, col_dtype, c, rfl, hc, List.ne_nil_of_mem hchunk, h⟩)
            · refine .inr (.inl ?_)
              obtain ⟨x, hx, h⟩ := List.mem_map.mp h
              rw [← h]
              exact List.mem_map_of_mem (List.mem_flatten_of_mem hchunk hx)

/-! ## The party that is left -/

section Joint

variable {E : Engine}

/-- Where comparing goes by a key, the party that is left has the smallest one. -/
theorem tournament_spec {toCompare toShare : Party → I64} (key : Party → ℤ) {out : Party → ℚ}
    (hcompare : ∀ r lo hi, lo < hi → ∃ r', E.compare r (provide [lo, hi] toCompare) =
      .ok (fun _ => decide (key lo < key hi), r'))
    (hshare : ∀ r p, ∃ r', E.shareAndReveal r (provide [p] toShare) = .ok (fun _ => out p, r'))
    (r : E.Runtime) : ∃ w r', tournament E r toCompare toShare = .ok (fun _ => out w, r') ∧
      ∀ p, key w ≤ key p := by
  obtain ⟨r1, h1⟩ := hcompare r 0 1 (by decide)
  let smaller : Party := if decide (key 0 < key 1) then 0 else 1
  have hsmaller : smaller < 2 ∧ key smaller ≤ key 0 ∧ key smaller ≤ key 1 := by
    show (if decide (key 0 < key 1) then (0 : Party) else 1) < 2 ∧ _
    by_cases h : key 0 < key 1
    · simp only [smaller, h, decide_true, if_true]
      exact ⟨by decide, le_rfl, h.le⟩
    · simp only [smaller, h, decide_false, Bool.false_eq_true, if_false]
      exact ⟨by decide, not_lt.mp h, le_rfl⟩
  obtain ⟨r2, h2⟩ := hcompare r1 smaller 2 hsmaller.1
  let smallest : Party := if decide (key smaller < key 2) then smaller else 2
  obtain ⟨r3, h3⟩ := hshare r2 smallest
  refine ⟨smallest, r3, ?_, ?_⟩
  · unfold tournament
    rw [h1]
    show (do let (cmp_result, r) ← E.compare r1 (provide [smaller, 2] toCompare); _) = _
    rw [h2]
    exact h3
  · have hsmallest : key smallest ≤ key smaller ∧ key smallest ≤ key 2 := by
      show key (if decide (key smaller < key 2) then smaller else 2) ≤ _ ∧ _
      by_cases h : key smaller < key 2
      · simp only [smallest, h, decide_true, if_true]
        exact ⟨le_rfl, h.le⟩
      · simp only [smallest, h, decide_false, Bool.false_eq_true, if_false]
        exact ⟨not_lt.mp h, le_rfl⟩
    intro p
    fin_cases p
    · exact hsmallest.1.trans hsmaller.2.1
    · exact hsmallest.1.trans hsmaller.2.2
    · exact hsmallest.2

/-- The value of a party is the best of the three in fixed point. -/
def Best (type : StatisticsType) (value : Party → ℚ) (w : Party) : Prop :=
  ∀ p, fixed (oriented type (value w)) ≤ fixed (oriented type (value p))

theorem inRange_neg {x : ℚ} (h : InRange x) : InRange (-1 * x) := by
  unfold InRange at *
  rwa [neg_one_mul, abs_neg]

theorem valueOfAllParty_spec (type : StatisticsType) {value : Party → ℚ} (hrange : ∀ p, InRange (value p))
    (r : E.Runtime) : ∃ w r', valueOfAllParty E type r value =
      .ok (fun _ => rounded (value w), r') ∧ Best type value w := by
  have hshare := fun r p => E.shareAndReveal_inRange r p value (hrange p)
  cases type with
  | MIN =>
      exact tournament_spec (fun p => fixed (value p))
        (fun r lo hi h => E.compare_inRange r lo hi value h (hrange lo) (hrange hi)) hshare r
  | MAX =>
      obtain ⟨w, r', hrun, hbest⟩ := tournament_spec (fun p => fixed (-1 * value p))
        (fun r lo hi h => E.compare_inRange r lo hi (fun p => -1 * value p) h
          (inRange_neg (hrange lo)) (inRange_neg (hrange hi))) hshare r
      refine ⟨w, r', hrun, fun p => ?_⟩
      have h := hbest p
      rwa [neg_one_mul, neg_one_mul] at h

/-- All columns, where each column ends in a result that stands in `R`. -/
theorem CipherTextDataCompute_spec {R : Str → (Party → ℚ) → Prop} {value : Party → Str → ℚ}
    (h : ∀ column ∈ columns, ∀ r, ∃ result r',
      valueOfAllParty E type r (fun p => value p column) = .ok (result, r') ∧ R column result)
    (r : E.Runtime) : ∃ results r', CipherTextDataCompute E type r (columns.map (value 0))
      (columns.map (value 1)) (columns.map (value 2)) = .ok (results, r') ∧
        List.Forall₂ R columns results := by
  induction columns generalizing r with
  | nil => exact ⟨[], r, rfl, .nil⟩
  | cons column columns ih =>
      obtain ⟨result, r1, hresult, hR⟩ := h column List.mem_cons_self r
      obtain ⟨results, r2, hresults, hRs⟩ :=
        ih (fun c hc => h c (List.mem_cons_of_mem _ hc)) r1
      refine ⟨result :: results, r2, ?_, .cons hR hRs⟩
      rw [List.map_cons, List.map_cons, List.map_cons, CipherTextDataCompute,
        Compare.atParties_self fun p => value p column, hresult]
      show (do let (results, r) ← CipherTextDataCompute E type r1 _ _ _; _) = _
      rw [hresults]
      rfl

/-- The run on inputs that fit. -/
theorem run_spec {M : Memory} {inputs : Party → Input} {R : Str → (Party → ℚ) → Prop}
    (hfits : ∀ p, (inputs p).Fits columns)
    (hrange : ∀ p, ∀ column ∈ columns, ∀ v ∈ (inputs p).values column, InRange v)
    (h : ∀ column ∈ columns, ∀ r, ∃ result r', valueOfAllParty E type r
      (fun p => (inputs p).localValue type column) = .ok (result, r') ∧ R column result)
    (r : E.Runtime) : ∃ results, run E M r type columns inputs =
      .ok (fun p => results.map fun result => result p) ∧ List.Forall₂ R columns results := by
  obtain ⟨results, r', hresults, hR⟩ := CipherTextDataCompute_spec h r
  refine ⟨results, ?_, hR⟩
  have hdata := fun p => colData_eq M type (hfits p) (hrange p)
  unfold run
  rw [hdata 0, hdata 1, hdata 2]
  show (do let (results, _) ← CipherTextDataCompute E type r _ _ _; _) = _
  rw [hresults]
  rfl

end Joint

/-! ## An engine that cuts off -/

/-- Numbers out of range become the smallest integer, as the conversion of x86 has it. -/
def hardwareEncode (x : ℚ) : I64 :=
  if InRange x then BitVec.ofInt 64 (fixed x) else BitVec.intMin 64

/-- What comes back of a number. -/
def hardwareValue (x : ℚ) : ℚ := (hardwareEncode x).toInt / 2 ^ 16

/-- The values that are provided, by party. -/
def provided (input : Party → Option I64) : List I64 := ([0, 1, 2] : List Party).filterMap input

theorem provided_pair {lo hi : Party} (h : lo < hi) (v : Party → I64) :
    provided (provide [lo, hi] v) = [v lo, v hi] := by
  fin_cases lo <;> fin_cases hi <;> first | rfl | exact absurd h (by decide)

theorem provided_single (p : Party) (v : Party → I64) : provided (provide [p] v) = [v p] := by
  fin_cases p <;> rfl

def hardwareCompare (input : Party → Option I64) : Except Fault (Party → Bool) :=
  match provided input with
  | [a, b] => .ok fun _ => decide (a.toInt < b.toInt)
  | _ => .error .diverged

def hardwareShareAndReveal (input : Party → Option I64) : Except Fault (Party → ℚ) :=
  match provided input with
  | [a] => .ok fun _ => a.toInt / 2 ^ 16
  | _ => .error .diverged

theorem hardwareCompare_pair {lo hi : Party} (h : lo < hi) (v : Party → I64) :
    hardwareCompare (provide [lo, hi] v) =
      .ok fun _ => decide ((v lo).toInt < (v hi).toInt) := by
  rw [hardwareCompare, provided_pair h]

theorem hardwareShareAndReveal_single (p : Party) (v : Party → I64) :
    hardwareShareAndReveal (provide [p] v) = .ok fun _ => (v p).toInt / 2 ^ 16 := by
  rw [hardwareShareAndReveal, provided_single]

theorem toInt_hardwareEncode {x : ℚ} (h : InRange x) : (hardwareEncode x).toInt = fixed x := by
  have habs := abs_lt.mp (abs_fixed_lt h)
  rw [hardwareEncode, if_pos h]
  refine BitVec.toInt_ofInt_eq_self (by decide) ?_ ?_
  · exact habs.1.le
  · exact habs.2

def hardware : Engine where
  Runtime := Unit
  encode := hardwareEncode
  compare r input := return (← hardwareCompare input, r)
  shareAndReveal r input := return (← hardwareShareAndReveal input, r)
  compare_inRange r lo hi x h hlo hhi := by
    refine ⟨r, ?_⟩
    rw [hardwareCompare_pair h, toInt_hardwareEncode hlo, toInt_hardwareEncode hhi]
    rfl
  shareAndReveal_inRange r p x hp := by
    refine ⟨r, ?_⟩
    rw [hardwareShareAndReveal_single, toInt_hardwareEncode hp]
    rfl

/-- A number that is too large gets the smallest integer, and wins. -/
theorem hardware_min_spec (r : Unit) (value : Party → ℚ) : ∃ w r',
    valueOfAllParty hardware .MIN r value =
      .ok (fun _ => hardwareValue (value w), r') ∧
    ∀ p, (hardwareEncode (value w)).toInt ≤ (hardwareEncode (value p)).toInt := by
  refine tournament_spec (E := hardware) (fun p => (hardwareEncode (value p)).toInt)
    (fun r lo hi h => ⟨r, ?_⟩) (fun r p => ⟨r, ?_⟩) r
  · show (do return (← hardwareCompare _, r)) = _
    rw [hardwareCompare_pair h]
    rfl
  · show (do return (← hardwareShareAndReveal _, r)) = _
    rw [hardwareShareAndReveal_single]
    rfl

theorem hardwareEncode_of_not_inRange {x : ℚ} (h : ¬ InRange x) :
    (hardwareEncode x).toInt = -2 ^ 63 := by
  rw [hardwareEncode, if_neg h]
  decide

/-! ## What an initial value does -/

theorem inRange_int32 : InRange (2 ^ 31 - 1) := by decide +kernel

theorem le_doubleMax : 2 ^ 63 ≤ doubleMax := by
  unfold doubleMax
  calc
    (2 : ℚ) ^ 63 ≤ 2 ^ 971 := pow_le_pow_right₀ one_le_two (by decide)
    _ ≤ (2 ^ 53 - 1) * 2 ^ 971 := le_mul_of_one_le_left (by positivity) (by norm_num)

theorem not_inRange_of_le {x : ℚ} (h : 2 ^ 63 ≤ x) : ¬ InRange x := by
  intro hx
  have habs := (abs_lt.mp hx).2
  linarith

/-- The initial values of a minimum: only that of `INT32` is in range. -/
theorem sentinel_min (t : ArrowType) :
    (t = .integer true .w32 ∧ sentinel .MIN t = 2 ^ 31 - 1) ∨
      (t ≠ .integer true .w32 ∧ 2 ^ 63 ≤ sentinel .MIN t) := by
  match t with
  | .integer true .w32 =>
      refine .inl ⟨rfl, ?_⟩
      rw [sentinel, toDouble_initInt32]
      norm_num [initInt32]
  | .integer true .w64 => exact .inr ⟨by decide, toDouble_initInt64_min.ge⟩
  | .integer true .w8 => exact .inr ⟨by decide, le_doubleMax⟩
  | .integer true .w16 => exact .inr ⟨by decide, le_doubleMax⟩
  | .integer false _ => exact .inr ⟨by simp, le_doubleMax⟩
  | .double => exact .inr ⟨by decide, le_doubleMax⟩

/-- Those of a maximum: an integer one is negative. -/
theorem sentinel_max (t : ArrowType) : sentinel .MAX t ≤ 0 ∨ sentinel .MAX t = doubleMin := by
  match t with
  | .integer true .w32 =>
      refine .inl ?_
      rw [sentinel, toDouble_initInt32]
      norm_num [initInt32]
  | .integer true .w64 =>
      refine .inl ?_
      rw [sentinel, toDouble_initInt64_max]
      norm_num
  | .integer true .w8 => exact .inr rfl
  | .integer true .w16 => exact .inr rfl
  | .integer false _ => exact .inr rfl
  | .double => exact .inr rfl

theorem doubleMin_le_localMax (column : Str) (input : Input) :
    doubleMin ≤ input.localValue .MAX column :=
  neg_le_neg_iff.mp (@oriented_localValue_le .MAX column input doubleMin (.inr rfl))

theorem localMin_le {v : ℚ} (h : v ∈ input.values column) : input.localValue .MIN column ≤ v :=
  @oriented_localValue_le .MIN column input v (.inl h)

theorem localMax_cases (column : Str) (input : Input) :
    input.localValue .MAX column ∈ input.values column ∨
      input.localValue .MAX column = doubleMin := by
  rcases localValue_cases .MAX column input with h | h | ⟨_, _, c, _, _, _, h⟩
  · exact .inr h
  · exact .inl h
  · rcases sentinel_max c.type with hneg | hmin
    · have hpos := doubleMin_pos.trans_le (doubleMin_le_localMax column input)
      exact absurd (h ▸ hpos) hneg.not_gt
    · exact .inr (h.trans hmin)

theorem localMin_le_of_int32Chunk (h : input.Int32Chunk column) :
    input.localValue .MIN column ≤ 2 ^ 31 - 1 := by
  cases input with
  | auxiliary shape => cases h
  | table t col_dtype =>
      obtain ⟨c, hc, htype, hchunks⟩ := h
      obtain ⟨chunk, chunks, heq⟩ := List.exists_cons_of_ne_nil hchunks
      have hmem : sentinel .MIN c.type ∈ contributions .MIN c := by
        rw [contributions, heq, List.flatMap_cons]
        exact List.mem_append_left _ List.mem_cons_self
      have hle : oriented .MIN (minOrMax .MIN (contributions .MIN c) (initDouble .MIN)) ≤ _ :=
        oriented_minOrMax_le (List.mem_cons_of_mem _ hmem)
      rw [Input.localValue_table .MIN hc]
      rcases sentinel_min c.type with ⟨_, hsentinel⟩ | ⟨hne, _⟩
      · exact hle.trans hsentinel.le
      · exact absurd htype hne

theorem values_le_of_int32 {t : Table} {col_dtype : Entries Str ColumnDtype} {c : ArrowColumn}
    (hc : GetColumnByName t column = some c) (htype : c.type = .integer true .w32) {v : ℚ}
    (hv : v ∈ (Input.table t col_dtype).values column) : v ≤ 2 ^ 31 - 1 := by
  rw [Input.values_table hc] at hv
  obtain ⟨x, _, rfl⟩ := List.mem_map.mp hv
  obtain ⟨name, type, chunks⟩ := c
  cases htype
  have h : ((BitVec.toInt (n := 32) x : ℤ) : ℚ) ≤ ((2 ^ 31 - 1 : ℤ) : ℚ) :=
    Int.cast_le.mpr (oriented_int32_le .MIN x)
  exact h.trans_eq (by norm_num)

/-- Where the least value of a party comes from. -/
theorem localMin_cases (hrange : ∀ v ∈ input.values column, InRange v) :
    input.localValue .MIN column ∈ input.values column ∨
      (input.values column = [] ∧ input.Int32Chunk column ∧
        input.localValue .MIN column = 2 ^ 31 - 1) ∨
      (input.values column = [] ∧ ¬ input.Int32Chunk column ∧
        2 ^ 63 ≤ input.localValue .MIN column) := by
  have hlarge : 2 ^ 63 ≤ input.localValue .MIN column → input.values column = [] ∧
      ¬ input.Int32Chunk column := by
    intro hle
    refine ⟨List.eq_nil_iff_forall_not_mem.mpr fun v hv => ?_, fun h => ?_⟩
    · exact not_inRange_of_le (hle.trans (localMin_le hv)) (hrange v hv)
    · have h' := localMin_le_of_int32Chunk h
      linarith
  rcases localValue_cases .MIN column input with h | h | ⟨t, col_dtype, c, rfl, hc, hchunks, h⟩
  · have hle : 2 ^ 63 ≤ input.localValue .MIN column := h ▸ le_doubleMax
    exact .inr (.inr ⟨(hlarge hle).1, (hlarge hle).2, hle⟩)
  · exact .inl h
  · rcases sentinel_min c.type with ⟨htype, hsentinel⟩ | ⟨_, hsentinel⟩
    · rw [hsentinel] at h
      cases hvalues : (Input.table t col_dtype).values column with
      | nil => exact .inr (.inl ⟨rfl, ⟨c, hc, htype, hchunks⟩, h⟩)
      | cons v vs =>
          -- the value is not above the sentinel, and not below it
          have hv : v ∈ (Input.table t col_dtype).values column := hvalues ▸ List.mem_cons_self
          have hge := localMin_le hv
          have hle := values_le_of_int32 hc htype hv
          have heq : v = (Input.table t col_dtype).localValue .MIN column := by linarith
          exact .inl (heq ▸ List.mem_cons_self)
    · have hle := hsentinel.trans_eq h.symm
      exact .inr (.inr ⟨(hlarge hle).1, (hlarge hle).2, hle⟩)

/-! ## The results -/

def pooledValues (inputs : Party → Input) (column : Str) : List ℚ :=
  (inputs 0).values column ++ (inputs 1).values column ++ (inputs 2).values column

theorem mem_pooledValues {inputs : Party → Input} {v : ℚ} :
    v ∈ pooledValues inputs column ↔ ∃ p, v ∈ (inputs p).values column := by
  rw [pooledValues, List.mem_append, List.mem_append]
  constructor
  · rintro ((h | h) | h)
    · exact ⟨0, h⟩
    · exact ⟨1, h⟩
    · exact ⟨2, h⟩
  · rintro ⟨p, h⟩
    fin_cases p
    · exact .inl (.inl h)
    · exact .inl (.inr h)
    · exact .inr h

/-- The greatest or the least of the values. -/
def Extreme (type : StatisticsType) (values : List ℚ) (m : ℚ) : Prop :=
  m ∈ values ∧ ∀ v ∈ values,
    match type with
    | .MAX => v ≤ m
    | .MIN => m ≤ v

/-- The result for these values: their maximum or minimum as a fixed-point number. -/
def Right (type : StatisticsType) (values : List ℚ) (result : ℚ) : Prop :=
  ∃ m, Extreme type values m ∧ result = rounded m

/-- Whatever happens to numbers out of range, every party gets the right result for every column. -/
def Returns (M : Memory) (type : StatisticsType) (columns : List Str) (inputs : Party → Input) :
    Prop :=
  ∀ (E : Engine) (r : E.Runtime), ∃ results, run E M r type columns inputs = .ok results ∧
    ∀ p, List.Forall₂ (fun column result => Right type (pooledValues inputs column) result)
      columns (results p)

/-- The initial values do no harm: for a maximum some value is above `-2 ^ -16`, and for a minimum
each party has a row, or an `INT32` column with a chunk while some value is below
`2 ^ 31 - 1 + 2 ^ -16`. -/
def Neutral (type : StatisticsType) (inputs : Party → Input) (column : Str) : Prop :=
  match type with
  | .MAX => ∃ v ∈ pooledValues inputs column, -1 / 2 ^ 16 < v
  | .MIN => ∀ p, (inputs p).values column ≠ [] ∨ ((inputs p).Int32Chunk column ∧
      ∃ v ∈ pooledValues inputs column, v < 2 ^ 31 - 1 + 1 / 2 ^ 16)

theorem extreme_iff {values : List ℚ} {m : ℚ} : Extreme type values m ↔
    m ∈ values ∧ ∀ v ∈ values, oriented type m ≤ oriented type v := by
  cases type with
  | MAX => simp only [Extreme, oriented, neg_le_neg_iff]
  | MIN => rfl

theorem rounded_eq_iff {x y : ℚ} : rounded x = rounded y ↔ fixed x = fixed y := by
  unfold rounded
  rw [div_left_inj' (by positivity), Int.cast_inj]

/-- The best value of the parties is the right result when no party brings a better one than there
is. -/
theorem right_iff_of_best {value : Party → ℚ} {w : Party} {inputs : Party → Input}
    (hne : pooledValues inputs column ≠ []) (hbest : Best type value w)
    (hle : ∀ p, ∀ v ∈ (inputs p).values column, oriented type (value p) ≤ oriented type v) :
    Right type (pooledValues inputs column) (rounded (value w)) ↔
      ∀ p, ∃ v ∈ pooledValues inputs column,
        fixed (oriented type v) ≤ fixed (oriented type (value p)) := by
  constructor
  · rintro ⟨m, hm, hresult⟩ p
    refine ⟨m, hm.1, ?_⟩
    rw [fixed_oriented, ← rounded_eq_iff.mp hresult, ← fixed_oriented]
    exact hbest p
  · intro h
    obtain ⟨m, hm, hleast⟩ := exists_least type hne
    refine ⟨m, extreme_iff.mpr ⟨hm, hleast⟩, rounded_eq_iff.mpr ?_⟩
    refine @oriented_injective _ _ type _ _ ?_
    rw [← fixed_oriented, ← fixed_oriented]
    refine le_antisymm ?_ ?_
    · obtain ⟨p, hp⟩ := mem_pooledValues.mp hm
      exact (hbest p).trans (fixed_mono (hle p m hp))
    · obtain ⟨v, hv, hvw⟩ := h w
      exact (fixed_mono (hleast v hv)).trans hvw

section Columns

variable {inputs : Party → Input}

theorem inRange_doubleMin : InRange doubleMin := by
  unfold InRange
  have hlt := doubleMin_lt
  rw [abs_of_pos doubleMin_pos]
  linarith

theorem inRange_localMax (hrange : ∀ v ∈ input.values column, InRange v) :
    InRange (input.localValue .MAX column) := by
  rcases localMax_cases column input with h | h
  · exact hrange _ h
  · exact h ▸ inRange_doubleMin

theorem fixed_lt_iff (v : ℚ) :
    fixed v ≤ fixed (2 ^ 31 - 1) ↔ v < 2 ^ 31 - 1 + 1 / 2 ^ 16 := by
  have hbound : fixed (2 ^ 31 - 1 : ℚ) = (2 ^ 31 - 1) * 2 ^ 16 := by
    have h := fixed_intCast (2 ^ 31 - 1)
    norm_num at h ⊢
    exact h
  rw [hbound]
  rcases le_or_gt 0 v with hv | hv
  · rw [fixed, if_pos hv, ← Int.lt_add_one_iff, Int.floor_lt]
    push_cast
    constructor
    · intro h
      linarith
    · intro h
      linarith
  · have hneg : fixed v ≤ fixed 0 := fixed_mono hv.le
    have hzero : fixed 0 = 0 := by simp [fixed]
    constructor
    · intro _
      linarith
    · intro _
      omega

/-- A maximum. -/
theorem neutral_max_iff : Neutral .MAX inputs column ↔ ∀ p, ∃ v ∈ pooledValues inputs column,
    fixed (oriented .MAX v) ≤ fixed (oriented .MAX ((inputs p).localValue .MAX column)) := by
  have hflip : ∀ x y : ℚ, fixed (oriented .MAX x) ≤ fixed (oriented .MAX y) ↔
      fixed y ≤ fixed x := by
    intro x y
    show fixed (-x) ≤ fixed (-y) ↔ _
    rw [fixed_neg, fixed_neg, neg_le_neg_iff]
  simp only [hflip]
  constructor
  · rintro ⟨v, hv, hpos⟩ p
    rcases localMax_cases column (inputs p) with h | h
    · exact ⟨_, mem_pooledValues.mpr ⟨p, h⟩, le_rfl⟩
    · refine ⟨v, hv, ?_⟩
      rw [h, fixed_doubleMin]
      exact (fixed_nonneg_iff v).mpr hpos
  · intro h
    obtain ⟨v, hv, hle⟩ := h 0
    refine ⟨v, hv, (fixed_nonneg_iff v).mp ?_⟩
    calc
      0 = fixed doubleMin := fixed_doubleMin.symm
      _ ≤ fixed ((inputs 0).localValue .MAX column) :=
        fixed_mono (doubleMin_le_localMax column (inputs 0))
      _ ≤ fixed v := hle

/-- A minimum, where all numbers are in range. -/
theorem neutral_min_iff (hrange : ∀ p, ∀ v ∈ (inputs p).values column, InRange v) :
    Neutral .MIN inputs column ↔ (∀ p, InRange ((inputs p).localValue .MIN column)) ∧
      ∀ p, ∃ v ∈ pooledValues inputs column,
        fixed v ≤ fixed ((inputs p).localValue .MIN column) := by
  constructor
  · intro h
    constructor
    · intro p
      rcases localMin_cases (hrange p) with hmem | ⟨_, _, heq⟩ | ⟨hnil, hchunk, _⟩
      · exact hrange p _ hmem
      · exact heq ▸ inRange_int32
      · rcases h p with hne | ⟨hchunk', _⟩
        · exact absurd hnil hne
        · exact absurd hchunk' hchunk
    · intro p
      rcases localMin_cases (hrange p) with hmem | ⟨hnil, _, heq⟩ | ⟨hnil, hchunk, _⟩
      · exact ⟨_, mem_pooledValues.mpr ⟨p, hmem⟩, le_rfl⟩
      · obtain ⟨_, v, hv, hlt⟩ := (h p).resolve_left fun hne => hne hnil
        exact ⟨v, hv, heq ▸ (fixed_lt_iff v).mpr hlt⟩
      · rcases h p with hne | ⟨hchunk', _⟩
        · exact absurd hnil hne
        · exact absurd hchunk' hchunk
  · rintro ⟨hin, hbetter⟩ p
    rcases localMin_cases (hrange p) with hmem | ⟨_, hchunk, heq⟩ | ⟨_, _, hlarge⟩
    · exact .inl (List.ne_nil_of_mem hmem)
    · obtain ⟨v, hv, hle⟩ := hbetter p
      exact .inr ⟨hchunk, v, hv, (fixed_lt_iff v).mp (heq ▸ hle)⟩
    · exact absurd (hin p) (not_inRange_of_le hlarge)

/-- A column whose numbers are in range: the result is right when the initial values do no
harm. -/
theorem right_iff_neutral {w : Party}
    (hrange : ∀ p, ∀ v ∈ (inputs p).values column, InRange v)
    (hlocal : ∀ p, InRange ((inputs p).localValue type column))
    (hrows : pooledValues inputs column ≠ [])
    (hbest : Best type (fun p => (inputs p).localValue type column) w) :
    Right type (pooledValues inputs column) (rounded ((inputs w).localValue type column)) ↔
      Neutral type inputs column := by
  have hright := right_iff_of_best hrows hbest fun p v hv => oriented_localValue_le (.inl hv)
  cases type with
  | MAX => rw [hright, neutral_max_iff]
  | MIN =>
      rw [hright, neutral_min_iff hrange]
      exact (and_iff_right hlocal).symm

theorem inRange_localValue (hrange : ∀ p, ∀ v ∈ (inputs p).values column, InRange v)
    (hneutral : Neutral type inputs column) (p : Party) :
    InRange ((inputs p).localValue type column) := by
  cases type with
  | MAX => exact inRange_localMax (hrange p)
  | MIN => exact ((neutral_min_iff hrange).mp hneutral).1 p

/-- With a number out of range the engine that cuts off gives a result that no value has. -/
theorem neutral_of_hardware {w : Party}
    (hrange : ∀ p, ∀ v ∈ (inputs p).values column, InRange v)
    (hrows : pooledValues inputs column ≠ [])
    (hleast : ∀ p, (hardwareEncode ((inputs w).localValue .MIN column)).toInt ≤
      (hardwareEncode ((inputs p).localValue .MIN column)).toInt)
    (hright : Right .MIN (pooledValues inputs column)
      (hardwareValue ((inputs w).localValue .MIN column))) :
    Neutral .MIN inputs column := by
  have hlocal : ∀ p, InRange ((inputs p).localValue .MIN column) := by
    intro p
    by_contra hout
    have hle := hleast p
    rw [hardwareEncode_of_not_inRange hout] at hle
    obtain ⟨m, hm, hresult⟩ := hright
    rw [hardwareValue, rounded, div_left_inj' (by positivity), Int.cast_inj] at hresult
    -- the result is the smallest integer, which is no number in range
    obtain ⟨q, hq⟩ := mem_pooledValues.mp hm.1
    have habs := (abs_lt.mp (abs_fixed_lt (hrange q m hq))).1
    omega
  have hencode := fun p => toInt_hardwareEncode (hlocal p)
  rw [hardwareValue, hencode w] at hright
  refine (right_iff_neutral hrange hlocal hrows (w := w) fun p => ?_).mp hright
  have hle := hleast p
  rwa [hencode w, hencode p] at hle

variable {M : Memory}

/-- The results of a run stand in whatever the columns' results stand in. -/
theorem result_of_returns {E : Engine} {R : Str → (Party → ℚ) → Prop}
    (hfits : ∀ p, (inputs p).Fits columns)
    (hrange : ∀ p, ∀ column ∈ columns, ∀ v ∈ (inputs p).values column, InRange v)
    (hR : ∀ column ∈ columns, ∀ r, ∃ result r', valueOfAllParty E type r
      (fun p => (inputs p).localValue type column) = .ok (result, r') ∧ R column result)
    (r : E.Runtime) (h : Returns M type columns inputs) (hcolumn : column ∈ columns) :
    ∃ result, R column result ∧ Right type (pooledValues inputs column) (result 0) := by
  obtain ⟨results, hrun, hresults⟩ := run_spec (M := M) hfits hrange hR r
  obtain ⟨results', hrun', hright⟩ := h E r
  cases hrun.symm.trans hrun'
  have hright0 := List.forall₂_map_right_iff.mp (hright 0)
  obtain ⟨i, hi, rfl⟩ := List.getElem_of_mem hcolumn
  have hi' : i < results.length := hresults.length_eq ▸ hi
  exact ⟨results[i], hresults.get hi hi', hright0.get hi hi'⟩

theorem neutral_of_returns (hfits : ∀ p, (inputs p).Fits columns)
    (hrange : ∀ p, ∀ column ∈ columns, ∀ v ∈ (inputs p).values column, InRange v)
    (hrows : ∀ column ∈ columns, pooledValues inputs column ≠ [])
    (h : Returns M type columns inputs) : ∀ column ∈ columns, Neutral type inputs column := by
  intro column hcolumn
  have hcells := fun p => hrange p column hcolumn
  cases type with
  | MAX =>
      have hlocal := fun column hcolumn p => inRange_localMax (hrange p column hcolumn)
      obtain ⟨_, ⟨w, rfl, hbest⟩, hright⟩ := result_of_returns (E := hardware)
        (R := fun column result => ∃ w,
          result = (fun _ => rounded ((inputs w).localValue .MAX column)) ∧
            Best .MAX (fun p => (inputs p).localValue .MAX column) w) hfits hrange
        (fun column hcolumn r => by
          obtain ⟨w, r', hrun, hbest⟩ :=
            valueOfAllParty_spec (E := hardware) .MAX (hlocal column hcolumn) r
          exact ⟨_, r', hrun, w, rfl, hbest⟩) () h hcolumn
      exact (right_iff_neutral hcells (hlocal column hcolumn) (hrows column hcolumn)
        hbest).mp hright
  | MIN =>
      obtain ⟨_, ⟨w, rfl, hleast⟩, hright⟩ := result_of_returns (E := hardware)
        (R := fun column result => ∃ w,
          result = (fun _ => hardwareValue ((inputs w).localValue .MIN column)) ∧
            ∀ p, (hardwareEncode ((inputs w).localValue .MIN column)).toInt ≤
              (hardwareEncode ((inputs p).localValue .MIN column)).toInt) hfits hrange
        (fun column _ r => by
          obtain ⟨w, r', hrun, hleast⟩ :=
            hardware_min_spec r fun p => (inputs p).localValue .MIN column
          exact ⟨_, r', hrun, w, rfl, hleast⟩) () h hcolumn
      exact neutral_of_hardware hcells (hrows column hcolumn) hleast hright

theorem returns_of_neutral (hfits : ∀ p, (inputs p).Fits columns)
    (hrange : ∀ p, ∀ column ∈ columns, ∀ v ∈ (inputs p).values column, InRange v)
    (hrows : ∀ column ∈ columns, pooledValues inputs column ≠ [])
    (hneutral : ∀ column ∈ columns, Neutral type inputs column) :
    Returns M type columns inputs := by
  intro E r
  obtain ⟨results, hrun, hresults⟩ := run_spec (E := E) (M := M)
    (R := fun column result => ∃ v, result = (fun _ => v) ∧
      Right type (pooledValues inputs column) v) hfits hrange
    (fun column hcolumn r => by
      have hcells := fun p => hrange p column hcolumn
      have hlocal := inRange_localValue hcells (hneutral column hcolumn)
      obtain ⟨w, r', hvalue, hbest⟩ := valueOfAllParty_spec (E := E) type hlocal r
      exact ⟨_, r', hvalue, _, rfl, (right_iff_neutral hcells hlocal (hrows column hcolumn)
        hbest).mpr (hneutral column hcolumn)⟩) r
  refine ⟨_, hrun, fun p => List.forall₂_map_right_iff.mpr (hresults.imp ?_)⟩
  rintro column _ ⟨v, rfl, hright⟩
  exact hright

end Columns

/-! ## Parties with one row -/

/-- A table with the one value in the column `x`. -/
def int64Input (v : I64) : Input :=
  .table [{ name := ['x'], type := .integer true .w64, chunks := [[v]] }] [(['x'], .LONG)]

theorem fits_int64Input (v : I64) : (int64Input v).Fits [['x']] := by
  intro column hcolumn
  rw [List.mem_singleton.mp hcolumn]
  exact ⟨_, .LONG, rfl, rfl, trivial, trivial⟩

theorem values_int64Input (v : I64) : (int64Input v).values ['x'] = [(v.toInt : ℚ)] := rfl

/-- Two parties have a row, the third is auxiliary. -/
def twoRows (v0 v1 : I64) : Party → Input :=
  atParties (int64Input v0) (int64Input v1) (.auxiliary [2, 1])

theorem fits_twoRows (v0 v1 : I64) (p : Party) : (twoRows v0 v1 p).Fits [['x']] := by
  fin_cases p
  · exact fits_int64Input v0
  · exact fits_int64Input v1
  · exact ⟨2, rfl⟩

theorem pooled_twoRows (v0 v1 : I64) :
    pooledValues (twoRows v0 v1) ['x'] = [(v0.toInt : ℚ), (v1.toInt : ℚ)] := rfl

theorem inRange_twoRows (v0 v1 : I64) (h0 : InRange (v0.toInt : ℚ)) (h1 : InRange (v1.toInt : ℚ))
    (p : Party) : ∀ column ∈ [(['x'] : Str)], ∀ v ∈ (twoRows v0 v1 p).values column, InRange v := by
  intro column hcolumn v hv
  rw [List.mem_singleton.mp hcolumn] at hv
  have hmem : v ∈ pooledValues (twoRows v0 v1) ['x'] := mem_pooledValues.mpr ⟨p, hv⟩
  rw [pooled_twoRows] at hmem
  rcases List.mem_cons.mp hmem with rfl | hmem
  · exact h0
  · rw [List.mem_singleton.mp hmem]
    exact h1

end Fediux.Statistics.MinOrMax
