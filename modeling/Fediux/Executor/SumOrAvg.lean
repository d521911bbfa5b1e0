import Fediux.Basic.Fallible
import Fediux.Executor.Statistics

set_option autoImplicit false

/-! # `MPCSumOrAvg`

Each party adds up its columns in plain (`PlainTextDataCompute`), then the parties add the sums and
the counts as shares and open them (`CipherTextDataCompute`). Doubles and fixed-point numbers are
exact. `computes_iff` says when the parties report the sum or the average of the pooled rows.
-/

namespace Fediux.Statistics.SumOrAvg

open Util (Str)
open OrderedMap (Entries find?)
open Replicated
open Compare (atParties)

/-! ## The sums of a party -/

/-- `Value(j)` of the signed array of the width of the cell. `UINT8` shares the branch of `INT8`,
and so on; all other types are read as `Int64Array`. -/
def readInteger (M : Memory) : (t : ArrowType) → t.Cell → ℤ
  | .integer _ _, c => BitVec.toInt c
  | .double, c => (M.toBits c).toInt

/-- The values of a chunk as the declared type reads them. -/
def readChunk (M : Memory) (col_type : Option ColumnDtype) (t : ArrowType) (chunk : List t.Cell) :
    Except Fault (List ℚ) :=
  match col_type with
  | none => .error .nullPointer
  | some .INTEGER => .ok (chunk.map fun c => (readInteger M t c : ℚ))
  | some .LONG => .ok (chunk.map fun c => (readInteger M t c : ℚ))
  | some .DOUBLE =>
      match chunk.mapM (readDouble M t) with
      | some values => .ok values
      | none => .error .outOfRange
  | some _ => .error (.failed 1)

structure Totals where
  sum : ℚ
  count : ℚ

def addChunk (M : Memory) (col_type : Option ColumnDtype) (t : ArrowType) (acc : Totals)
    (chunk : List t.Cell) : Except Fault Totals := do
  let values ← readChunk M col_type t chunk
  return { sum := values.foldl (· + ·) acc.sum, count := acc.count + chunk.length }

def columnTotals (M : Memory) (table : Table) (all_type : Entries Str ColumnDtype)
    (column : Str) : Except Fault Totals :=
  match GetColumnByName table column with
  | none => .error (.failed 1)
  | some c => c.chunks.foldlM (addChunk M (find? all_type column) c.type) ⟨0, 0⟩

def PlainTextDataCompute (M : Memory) (table : Table) (columns : List Str)
    (all_type : Entries Str ColumnDtype) : Except Fault (List Totals) :=
  columns.mapM (columnTotals M table all_type)

/-! ## The joint phase -/

/-- `sf64Matrix<D16>` with one column. -/
abbrev Sf64Matrix := List (Share ℚ)

/-- The calls of aby3 on fixed-point numbers. In `createShares` a party provides a column or takes
part as a remote party, with a share matrix of the given number of rows. -/
structure Sh3Fixed where
  Runtime : Type
  createShares : Runtime → (Party → Option (List ℚ)) → (Party → ℕ) →
    Except Fault ((Party → Sf64Matrix) × Runtime)
  reveal : Runtime → Party → (Party → Sf64Matrix) → List ℚ × Runtime
  createShares_shares : ∀ (r : Runtime) (input : Party → Option (List ℚ)) (rows : Party → ℕ)
    (p : Party) (xs : List ℚ), input p = some xs → (∀ q, q ≠ p → input q = none) →
    (∀ q, rows q = xs.length) → ∃ m r', createShares r input rows = .ok (m, r') ∧ Shares m xs
  reveal_shares : ∀ (r : Runtime) (p : Party) (m : Party → Sf64Matrix) (xs : List ℚ),
    Shares m xs → (reveal r p m).1 = xs

/-- A double that an exact division gives. -/
inductive Real64 where
  | number (q : ℚ)
  | infinity (negative : Bool)
  | nan
  deriving DecidableEq, Repr

def Real64.div (a b : ℚ) : Real64 :=
  if b ≠ 0 then .number (a / b)
  else if a = 0 then .nan
  else .infinity (decide (a < 0))

section

variable (E : Sh3Fixed)

/-- A round of the loop: party `i` shares its column. -/
def shareRound (r : E.Runtime) (cols : Party → List ℚ) (i : Party) :
    Except Fault ((Party → Sf64Matrix) × E.Runtime) :=
  E.createShares r (fun p => if p = i then some (cols p) else none) fun p => (cols p).length

def addShares (a b : Party → Sf64Matrix) (p : Party) : Sf64Matrix :=
  List.zipWith Share.add (a p) (b p)

/-- The three columns, shared and added. -/
def shareAndAdd (r : E.Runtime) (cols : Party → List ℚ) :
    Except Fault ((Party → Sf64Matrix) × E.Runtime) := do
  let (sh0, r) ← shareRound E r cols 0
  let (sh1, r) ← shareRound E r cols 1
  let (sh2, r) ← shareRound E r cols 2
  return (addShares (addShares sh0 sh1) sh2, r)

/-- The loop in which each party in turn opens the column. -/
def revealToEach (r : E.Runtime) (m : Party → Sf64Matrix) : (Party → List ℚ) × E.Runtime :=
  let (v0, r) := E.reveal r 0 m
  let (v1, r) := E.reveal r 1 m
  let (v2, r) := E.reveal r 2 m
  (atParties v0 v1 v2, r)

/-- `CipherTextDataCompute`: the results at the three parties. `use_mpc_div_` is always false. -/
def CipherTextDataCompute (r : E.Runtime) (avg_result : Bool) (totals : Party → List Totals) :
    Except Fault (Party → List Real64) := do
  let (sh_all_sum, r) ← shareAndAdd E r fun p => (totals p).map Totals.sum
  let (sh_all_count, r) ← shareAndAdd E r fun p => (totals p).map Totals.count
  let (plaintext_sum, r) := revealToEach E r sh_all_sum
  if avg_result then
    let (plaintext_count, _) := revealToEach E r sh_all_count
    return fun p => List.zipWith Real64.div (plaintext_sum p) (plaintext_count p)
  else return fun p => (plaintext_sum p).map .number

/-- `run` at the three parties. -/
def run (M : Memory) (r : E.Runtime) (avg_result : Bool) (tables : Party → Table)
    (columns : List Str) (all_type : Party → Entries Str ColumnDtype) :
    Except Fault (Party → List Real64) := do
  let totals0 ← PlainTextDataCompute M (tables 0) columns (all_type 0)
  let totals1 ← PlainTextDataCompute M (tables 1) columns (all_type 1)
  let totals2 ← PlainTextDataCompute M (tables 2) columns (all_type 2)
  CipherTextDataCompute E r avg_result (atParties totals0 totals1 totals2)

end

/-! ## What the code reads -/

theorem toInt_le_toNat {w : ℕ} (b : BitVec w) : b.toInt ≤ b.toNat := by
  rw [BitVec.toInt_eq_msb_cond]
  split
  · exact Int.sub_le_self _ (Int.natCast_nonneg _)
  · exact le_rfl

theorem toInt_eq_toNat_iff {w : ℕ} (b : BitVec w) :
    (b.toInt : ℚ) = (b.toNat : ℚ) ↔ b.msb = false := by
  rw [← Int.cast_natCast, Int.cast_inj]
  have hpos : 0 < 2 ^ w := Nat.two_pow_pos w
  rw [BitVec.toInt_eq_msb_cond]
  cases b.msb with
  | false => simp
  | true =>
      -- the reading is lower by `2 ^ w`
      rw [if_pos rfl]
      constructor
      · intro h
        omega
      · intro h
        cases h

/-- A cell as the code reads it under a fitting declared type. -/
def read : (t : ArrowType) → t.Cell → ℚ
  | .integer _ _, c => (BitVec.toInt c : ℚ)
  | .double, c => c

/-- An unsigned cell has its top bit clear. -/
def Small : (t : ArrowType) → t.Cell → Prop
  | .integer false _, c => BitVec.msb c = false
  | _, _ => True

theorem read_le_value (t : ArrowType) (c : t.Cell) : read t c ≤ t.value c := by
  match t, c with
  | .double, c => exact le_rfl
  | .integer true width, c => exact le_rfl
  | .integer false width, c => exact Int.cast_le.mpr (toInt_le_toNat (w := width.bits) c)

theorem read_eq_value_iff (t : ArrowType) (c : t.Cell) : read t c = t.value c ↔ Small t c := by
  match t, c with
  | .double, c => exact ⟨fun _ => trivial, fun _ => rfl⟩
  | .integer true width, c => exact ⟨fun _ => trivial, fun _ => rfl⟩
  | .integer false width, c => exact toInt_eq_toNat_iff (w := width.bits) c

theorem readChunk_of_declares {M : Memory} {dtype : ColumnDtype} {t : ArrowType}
    (h : Declares dtype t) (chunk : List t.Cell) :
    readChunk M (some dtype) t chunk = .ok (chunk.map (read t)) := by
  match t, dtype with
  | .integer _ _, .INTEGER => rfl
  | .integer _ _, .LONG => rfl
  | .double, .DOUBLE =>
      rw [readChunk, mapM_readDouble]
      rfl

/-- The readings of a column at one party. -/
def columnReads (table : Table) (column : Str) : List ℚ :=
  match GetColumnByName table column with
  | some c => c.chunks.flatten.map (read c.type)
  | none => []

def totalsOf (table : Table) (column : Str) : Totals where
  sum := (columnReads table column).sum
  count := (columnValues table column).length

theorem foldl_add_eq (a : ℚ) (l : List ℚ) : l.foldl (· + ·) a = a + l.sum := by
  induction l generalizing a with
  | nil => simp
  | cons x l ih => rw [List.foldl_cons, ih, List.sum_cons, add_assoc]

theorem foldlM_addChunk {M : Memory} {dtype : ColumnDtype} {t : ArrowType} (h : Declares dtype t)
    (acc : Totals) (chunks : List (List t.Cell)) :
    chunks.foldlM (addChunk M (some dtype) t) acc =
      .ok ⟨acc.sum + (chunks.flatten.map (read t)).sum, acc.count + chunks.flatten.length⟩ := by
  induction chunks generalizing acc with
  | nil => simp [pure, Except.pure]
  | cons chunk chunks ih =>
      have hstep : addChunk M (some dtype) t acc chunk =
          .ok ⟨acc.sum + (chunk.map (read t)).sum, acc.count + chunk.length⟩ := by
        rw [addChunk, readChunk_of_declares h, ← foldl_add_eq]
        rfl
      rw [Fallible.foldlM_cons_of_ok hstep, ih, List.flatten_cons, List.map_append, List.sum_append,
        List.length_append, Nat.cast_add, add_assoc, add_assoc]

theorem columnTotals_of_accepted {M : Memory} {table : Table} {all_type : Entries Str ColumnDtype}
    {column : Str} (h : Accepted table all_type column) :
    columnTotals M table all_type column = .ok (totalsOf table column) := by
  obtain ⟨c, dtype, hc, hdtype, hdeclares⟩ := h
  have hfold := foldlM_addChunk (M := M) hdeclares ⟨0, 0⟩ c.chunks
  unfold columnTotals totalsOf columnReads columnValues
  rw [hc, hdtype]
  dsimp only
  rw [hfold, ArrowColumn.values, List.length_map, zero_add, zero_add]

/-! ## The joint phase on totals -/

section Joint

variable {E : Sh3Fixed}

theorem shareRound_shares (r : E.Runtime) {cols : Party → List ℚ} {n : ℕ}
    (hlength : ∀ p, (cols p).length = n) (i : Party) :
    ∃ m r', shareRound E r cols i = .ok (m, r') ∧ Shares m (cols i) := by
  refine E.createShares_shares r _ _ i (cols i) (if_pos rfl) (fun q hq => if_neg hq) fun q => ?_
  rw [hlength, hlength]

theorem shareAndAdd_shares (r : E.Runtime) (cols : Party → List ℚ) {n : ℕ}
    (hlength : ∀ p, (cols p).length = n) :
    ∃ m r', shareAndAdd E r cols = .ok (m, r') ∧
      Shares m (List.zipWith (· + ·) (List.zipWith (· + ·) (cols 0) (cols 1)) (cols 2)) := by
  obtain ⟨m0, r0, h0, hm0⟩ := shareRound_shares r hlength 0
  obtain ⟨m1, r1, h1, hm1⟩ := shareRound_shares r0 hlength 1
  obtain ⟨m2, r2, h2, hm2⟩ := shareRound_shares r1 hlength 2
  refine ⟨addShares (addShares m0 m1) m2, r2, ?_, (hm0.add hm1).add hm2⟩
  unfold shareAndAdd
  rw [h0]
  show (do let (sh1, r) ← shareRound E r0 cols 1; _) = _
  rw [h1]
  show (do let (sh2, r) ← shareRound E r1 cols 2; _) = _
  rw [h2]
  rfl

theorem revealToEach_shares (r : E.Runtime) {m : Party → Sf64Matrix} {xs : List ℚ}
    (h : Shares m xs) : (revealToEach E r m).1 = fun _ => xs := by
  show atParties (E.reveal r 0 m).1 _ _ = _
  rw [E.reveal_shares _ 0 m xs h, E.reveal_shares _ 1 m xs h, E.reveal_shares _ 2 m xs h]
  exact Compare.atParties_self fun _ => xs

/-- The sum over the parties. -/
def overParties (f : Party → ℚ) : ℚ := f 0 + f 1 + f 2

/-- The entry of a column with these totals. -/
def report (avg_result : Bool) (totals : Party → Totals) : Real64 :=
  if avg_result then
    .div (overParties fun p => (totals p).sum) (overParties fun p => (totals p).count)
  else .number (overParties fun p => (totals p).sum)

theorem zipWith_add_columns (columns : List Str) (f : Party → Str → ℚ) :
    List.zipWith (· + ·) (List.zipWith (· + ·) (columns.map (f 0)) (columns.map (f 1)))
      (columns.map (f 2)) = columns.map fun c => overParties fun p => f p c := by
  rw [List.zipWith_map, List.zipWith_self, List.zipWith_map, List.zipWith_self]
  rfl

theorem CipherTextDataCompute_eq (r : E.Runtime) (avg_result : Bool) (columns : List Str)
    (totals : Party → Str → Totals) :
    CipherTextDataCompute E r avg_result (fun p => columns.map (totals p)) =
      .ok fun _ => columns.map fun c => report avg_result fun p => totals p c := by
  obtain ⟨ms, r1, hsum, hms⟩ := shareAndAdd_shares (n := columns.length) r
    (fun p => (columns.map (totals p)).map Totals.sum) fun p => by simp
  obtain ⟨mc, r2, hcount, hmc⟩ := shareAndAdd_shares (n := columns.length) r1
    (fun p => (columns.map (totals p)).map Totals.count) fun p => by simp
  simp only [List.map_map] at hms hmc
  rw [zipWith_add_columns columns fun p => Totals.sum ∘ totals p] at hms
  rw [zipWith_add_columns columns fun p => Totals.count ∘ totals p] at hmc
  unfold CipherTextDataCompute
  rw [hsum]
  show (do let (sh_all_count, r) ← shareAndAdd E r1 _; _) = _
  rw [hcount]
  cases avg_result with
  | true =>
      show Except.ok (fun p => List.zipWith Real64.div ((revealToEach E r2 ms).1 p)
        ((revealToEach E _ mc).1 p)) = _
      rw [revealToEach_shares _ hms, revealToEach_shares _ hmc]
      simp only [List.zipWith_map, List.zipWith_self]
      rfl
  | false =>
      show Except.ok (fun p => ((revealToEach E r2 ms).1 p).map Real64.number) = _
      rw [revealToEach_shares _ hms]
      simp only [List.map_map]
      rfl

end Joint

/-! ## The results -/

section Results

variable {E : Sh3Fixed} {M : Memory} {avg_result : Bool} {tables : Party → Table}
  {columns : List Str} {all_type : Party → Entries Str ColumnDtype}

/-- The entry of a column that has these totals. -/
def entry (avg_result : Bool) (tables : Party → Table) (column : Str) : Real64 :=
  report avg_result fun p => totalsOf (tables p) column

theorem run_eq (r : E.Runtime)
    (h : ∀ p, ∀ column ∈ columns, Accepted (tables p) (all_type p) column) :
    run E M r avg_result tables columns all_type =
      .ok fun _ => columns.map (entry avg_result tables) := by
  have hplain : ∀ p, PlainTextDataCompute M (tables p) columns (all_type p) =
      .ok (columns.map (totalsOf (tables p))) :=
    fun p => Fallible.mapM_of_ok fun column hcolumn => columnTotals_of_accepted (h p column hcolumn)
  unfold run
  rw [hplain 0, hplain 1, hplain 2]
  show CipherTextDataCompute E r avg_result (atParties _ _ _) = _
  rw [Compare.atParties_self fun p => columns.map (totalsOf (tables p))]
  exact CipherTextDataCompute_eq r avg_result columns fun p => totalsOf (tables p)

/-- The entry of a column with these values over all rows: their sum, or their average, which is
there only for a row. -/
def Right (avg_result : Bool) (values : List ℚ) (entry : Real64) : Prop :=
  if avg_result then values ≠ [] ∧ entry = .number (values.sum / values.length)
  else entry = .number values.sum

/-- Every party gets the right entry for every column. -/
def Computes (E : Sh3Fixed) (M : Memory) (r : E.Runtime) (avg_result : Bool)
    (tables : Party → Table) (columns : List Str) (all_type : Party → Entries Str ColumnDtype) :
    Prop :=
  ∃ result, run E M r avg_result tables columns all_type = .ok result ∧
    ∀ p, List.Forall₂ (fun column e => Right avg_result (pooled tables column) e) columns (result p)

/-- No unsigned cell has its top bit set, and for an average every column has a row. -/
structure Readable (avg_result : Bool) (tables : Party → Table) (columns : List Str) : Prop where
  small : ∀ column ∈ columns, ∀ p c, GetColumnByName (tables p) column = some c →
    ∀ x ∈ c.chunks.flatten, Small c.type x
  rows : avg_result = true → ∀ column ∈ columns, pooled tables column ≠ []

/-- The readings of the pooled rows. -/
def pooledReads (tables : Party → Table) (column : Str) : List ℚ :=
  columnReads (tables 0) column ++ columnReads (tables 1) column ++ columnReads (tables 2) column

theorem columnReads_le (table : Table) (column : Str) :
    List.Forall₂ (· ≤ ·) (columnReads table column) (columnValues table column) := by
  unfold columnReads columnValues
  cases GetColumnByName table column with
  | none => exact .nil
  | some c =>
      show List.Forall₂ (· ≤ ·) (c.chunks.flatten.map (read c.type))
        (c.chunks.flatten.map c.type.value)
      rw [List.forall₂_map_left_iff, List.forall₂_map_right_iff, List.forall₂_same]
      exact fun x _ => read_le_value c.type x

theorem columnReads_eq_iff (table : Table) (column : Str) :
    columnReads table column = columnValues table column ↔
      ∀ c, GetColumnByName table column = some c → ∀ x ∈ c.chunks.flatten, Small c.type x := by
  unfold columnReads columnValues
  cases GetColumnByName table column with
  | none => simp
  | some c =>
      show c.chunks.flatten.map (read c.type) = c.chunks.flatten.map c.type.value ↔ _
      rw [List.map_inj_left]
      simp only [read_eq_value_iff, Option.some.injEq, forall_eq']

theorem pooledReads_le (tables : Party → Table) (column : Str) :
    List.Forall₂ (· ≤ ·) (pooledReads tables column) (pooled tables column) :=
  List.rel_append (List.rel_append (columnReads_le _ _) (columnReads_le _ _)) (columnReads_le _ _)

theorem pooledReads_eq_iff (tables : Party → Table) (column : Str) :
    pooledReads tables column = pooled tables column ↔
      ∀ p, columnReads (tables p) column = columnValues (tables p) column := by
  have hlength := fun p => (columnReads_le (tables p) column).length_eq
  unfold pooledReads pooled
  constructor
  · intro h
    obtain ⟨h01, h2⟩ := List.append_inj' h (hlength 2)
    obtain ⟨h0, h1⟩ := List.append_inj' h01 (hlength 1)
    intro p
    fin_cases p
    · exact h0
    · exact h1
    · exact h2
  · intro h
    rw [h 0, h 1, h 2]

/-- Readings below the values add up to the same sum only when all are equal. -/
theorem sum_eq_iff_of_le {xs ys : List ℚ} (h : List.Forall₂ (· ≤ ·) xs ys) :
    xs.sum = ys.sum ↔ xs = ys := by
  constructor
  · intro hsum
    induction h with
    | nil => rfl
    | @cons x y xs ys hxy h ih =>
        have hle : xs.sum ≤ ys.sum := h.sum_le_sum
        rw [List.sum_cons, List.sum_cons] at hsum
        have hx : x = y := by linarith
        rw [hx, ih (by linarith)]
  · exact fun h => h ▸ rfl

theorem overParties_sum (tables : Party → Table) (column : Str) :
    (overParties fun p => (totalsOf (tables p) column).sum) = (pooledReads tables column).sum := by
  rw [pooledReads, List.sum_append, List.sum_append]
  rfl

theorem overParties_count (tables : Party → Table) (column : Str) :
    (overParties fun p => (totalsOf (tables p) column).count) = (pooled tables column).length := by
  rw [pooled, List.length_append, List.length_append, Nat.cast_add, Nat.cast_add]
  rfl

theorem div_count {a : ℚ} {values : List ℚ} (h : values ≠ []) :
    Real64.div a values.length = .number (a / values.length) := by
  have hne : (values.length : ℚ) ≠ 0 := Nat.cast_ne_zero.mpr (List.length_eq_zero_iff.not.mpr h)
  exact if_pos hne

/-- The entry of one column. -/
theorem right_entry_iff (column : Str) :
    Right avg_result (pooled tables column) (entry avg_result tables column) ↔
      pooledReads tables column = pooled tables column ∧
        (avg_result = true → pooled tables column ≠ []) := by
  unfold Right entry report
  rw [overParties_sum, overParties_count, ← sum_eq_iff_of_le (pooledReads_le tables column)]
  cases avg_result with
  | false => simp
  | true =>
      simp only [if_true, true_implies]
      rw [and_comm]
      refine and_congr_left fun hrows => ?_
      have hne : ((pooled tables column).length : ℚ) ≠ 0 :=
        Nat.cast_ne_zero.mpr (List.length_eq_zero_iff.not.mpr hrows)
      rw [div_count hrows, Real64.number.injEq, div_left_inj' hne]

theorem computes_iff_right (r : E.Runtime)
    (h : ∀ p, ∀ column ∈ columns, Accepted (tables p) (all_type p) column) :
    Computes E M r avg_result tables columns all_type ↔ ∀ column ∈ columns,
      Right avg_result (pooled tables column) (entry avg_result tables column) := by
  unfold Computes
  rw [run_eq r h]
  simp only [Except.ok.injEq, exists_eq_left', List.forall₂_map_right_iff, List.forall₂_same,
    forall_const]

/-- **When the sums and averages are right**: when no unsigned cell of the columns has its top bit
set, and for an average every column has a row. -/
theorem computes_iff (r : E.Runtime)
    (h : ∀ p, ∀ column ∈ columns, Accepted (tables p) (all_type p) column) :
    Computes E M r avg_result tables columns all_type ↔ Readable avg_result tables columns := by
  rw [computes_iff_right r h]
  constructor
  · intro hright
    refine ⟨fun column hcolumn p => ?_, fun havg column hcolumn => ?_⟩
    · have hreads := ((right_entry_iff column).mp (hright column hcolumn)).1
      exact (columnReads_eq_iff _ _).mp ((pooledReads_eq_iff tables column).mp hreads p)
    · exact ((right_entry_iff column).mp (hright column hcolumn)).2 havg
  · intro hreadable column hcolumn
    refine (right_entry_iff column).mpr ⟨?_, fun havg => hreadable.rows havg column hcolumn⟩
    refine (pooledReads_eq_iff tables column).mpr fun p => ?_
    exact (columnReads_eq_iff _ _).mpr (hreadable.small column hcolumn p)

end Results

/-! ## Three parties with one column -/

def clearShares (input : Party → Option (List ℚ)) (rows : Party → ℕ) :
    Except Fault (Party → Sf64Matrix) :=
  match ([0, 1, 2] : List Party).find? fun p => (input p).isSome with
  | none => .error .diverged
  | some p =>
      if ∀ q, rows q = ((input p).getD []).length then
        .ok fun q => ((input p).getD []).map fun x => owned p x q
      else .error .shape

theorem clearShares_eq {input : Party → Option (List ℚ)} {rows : Party → ℕ} {p : Party}
    {xs : List ℚ} (hp : input p = some xs) (hrest : ∀ q, q ≠ p → input q = none)
    (hrows : ∀ q, rows q = xs.length) :
    clearShares input rows = .ok fun q => xs.map fun x => owned p x q := by
  have hfind : (([0, 1, 2] : List Party).find? fun p => (input p).isSome) = some p := by
    fin_cases p <;> simp_all
  unfold clearShares
  rw [hfind]
  dsimp only
  rw [hp, Option.getD_some, if_pos hrows]

/-- Sharing without masks. -/
def clear : Sh3Fixed where
  Runtime := Unit
  createShares r input rows := return (← clearShares input rows, r)
  reveal r p m := (openRows p m, r)
  createShares_shares r input rows p xs hp hrest hrows := by
    refine ⟨_, r, ?_, shares_owned p xs⟩
    rw [clearShares_eq hp hrest hrows]
    rfl
  reveal_shares _ p _ _ h := h.openRows p

def x : Str := ['x']

/-- Party 0 has these bytes in the column, the others have no rows. -/
def byteTables (bytes : List (BitVec 8)) (p : Party) : Table :=
  [{ name := x, type := .integer false .w8, chunks := if p = 0 then [bytes] else [] }]

theorem accepted_bytes (bytes : List (BitVec 8)) (p : Party) :
    ∀ column ∈ [x], Accepted (byteTables bytes p) [(x, .INTEGER)] column := by
  intro column hcolumn
  rw [List.mem_singleton.mp hcolumn]
  exact ⟨_, .INTEGER, rfl, rfl, trivial⟩

/-- The average of the bytes 100 and 50. -/
theorem computes_smallBytes :
    Computes clear zeroBits () true (byteTables [100, 50]) [x] fun _ => [(x, .INTEGER)] := by
  refine (computes_iff (E := clear) () (accepted_bytes [100, 50])).mpr ⟨?_, fun _ column hcolumn => ?_⟩
  · intro column hcolumn p c hc cell hcell
    rw [List.mem_singleton.mp hcolumn] at hc
    fin_cases p
    · cases hc
      have hsmall : ∀ b ∈ ([100, 50] : List (BitVec 8)), b.msb = false := by decide
      exact hsmall cell hcell
    · cases hc
      cases hcell
    · cases hc
      cases hcell
  · rw [List.mem_singleton.mp hcolumn]
    decide

/-- The byte 200 is read as -56. -/
theorem not_computes_byte200 :
    (∀ p, ∀ column ∈ [x], Accepted (byteTables [200] p) [(x, .INTEGER)] column) ∧
      ¬ Computes clear zeroBits () false (byteTables [200]) [x] fun _ => [(x, .INTEGER)] := by
  refine ⟨accepted_bytes [200], fun h => ?_⟩
  have hright := (computes_iff_right (E := clear) () (accepted_bytes [200])).mp h x List.mem_cons_self
  have hreads := ((right_entry_iff x).mp hright).1
  revert hreads
  decide

end Fediux.Statistics.SumOrAvg
