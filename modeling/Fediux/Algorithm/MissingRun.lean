import Fediux.Algorithm.MissingExecute

set_option autoImplicit false

/-! # What a run of the missing-value task leaves in the tables

For columns of integers `execute` replaces the missing and the abnormal cells of all three parties
by one value, the maximum, the minimum or the truncated average of the valid cells of the three
columns together, as long as the differences of the local extremes and the sum fit into 64 bits.
The valid cells and the other columns keep their contents (`execute_imputes`).
-/

namespace Fediux.Algorithm.MissingProcess

open Util (Str)
open Replicated (Party)
open Compare (atParties)
open Strto (readInt)

/-! ## What the code is for -/

/-- The values of `Replace_Type`. -/
inductive ReplaceType where
  | MAX
  | MIN
  | AVG
  deriving DecidableEq

namespace ReplaceType

def text : ReplaceType → Str
  | MAX => "MAX".toList
  | MIN => "MIN".toList
  | AVG => "AVG".toList

/-- The value that stands for cells that are missing beside these ones. -/
def IsValue : ReplaceType → List Int64 → Int64 → Prop
  | MAX, xs, v => v ∈ xs ∧ ∀ x ∈ xs, x.toInt ≤ v.toInt
  | MIN, xs, v => v ∈ xs ∧ ∀ x ∈ xs, v.toInt ≤ x.toInt
  | AVG, xs, v => v.toInt = (xs.map Int64.toInt).sum.tdiv xs.length

end ReplaceType

/-- A column that a party goes through: its name and type in `col_and_dtype_`, and its place in the
table. -/
structure Entry where
  name : Str
  dtype : ℕ
  col_index : ℕ
  column : Column

/-- The numbers of a column, with `none` for a missing or abnormal one. -/
def cells (both_index : List ℕ) : Column → List (Option Int64)
  | .string chunks => chunks.flatten.map fun cell => cell.bind (strTo int64)
  | .int64 chunks => chunks.flatten.mapIdx fun i slot =>
      if both_index.contains i then none else some slot.value
  | .float64 _ => []

/-- The numbers that the scan takes. It takes all that a database column stores. -/
def scanned : Column → List Int64
  | .string chunks => chunks.flatten.filterMap fun cell => cell.bind (strTo int64)
  | .int64 chunks => chunks.flatten.map Slot.value
  | .float64 _ => []

namespace Entry

def cells (L : Local) (e : Entry) : List (Option Int64) :=
  MissingProcess.cells (L.db_both_index e.name) e.column

/-- The valid numbers of the column. -/
def valid (L : Local) (e : Entry) : List Int64 := (e.cells L).reduceOption

/-- The column with the value in the place of the missing and abnormal cells. -/
def imputed (L : Local) (e : Entry) (v : Int64) : Column :=
  newArray int64 ((e.cells L).map fun cell => cell.getD v)

end Entry

/-- The valid numbers of the three parties. -/
def pooled (L : Party → Local) (row : Party → Entry) : List Int64 :=
  (row 0).valid (L 0) ++ (row 1).valid (L 1) ++ (row 2).valid (L 2)

/-- A column as its source promises it: texts from a CSV file, or numbers from a database, which
stores 0 for the missing and abnormal ones and notes their positions. -/
inductive Readable (use_db : Bool) (both_index : List ℕ) : Column → Prop where
  | csv (chunks : List (List (Option Str))) (csv : use_db = false) (counted : Counted chunks) :
      Readable use_db both_index (.string chunks)
  | db (chunks : List (List (Slot Int64))) (db : use_db = true) (counted : Counted chunks)
      (nodup : both_index.Nodup) (inside : ∀ i ∈ both_index, i < chunks.flatten.length)
      (nulls : ∀ i slot, chunks.flatten[i]? = some slot → slot.isNull = true → i ∈ both_index)
      (zero : ∀ i ∈ both_index, ∀ slot, chunks.flatten[i]? = some slot → slot.value = 0) :
      Readable use_db both_index (.int64 chunks)

/-- What the scan makes of these numbers. -/
def totals (xs : List Int64) : Totals Int64 :=
  xs.foldl (Totals.take int64Number) (initial int64Number)

/-- No difference of two of the numbers leaves 64 bits. -/
def FitsApart (x : Party → Int64) : Prop :=
  ∀ p q, -2 ^ 63 ≤ (x p).toInt - (x q).toInt ∧ (x p).toInt - (x q).toInt < 2 ^ 63

/-- When the joint steps find the value. What a database column stores for a missing cell must not
be beyond all valid numbers. -/
def ReplaceType.Fits (xs : Party → List Int64) (pool : List Int64) : ReplaceType → Prop
  | MAX => (∀ p, ∀ x ∈ xs p, ∃ y ∈ pool, x.toInt ≤ y.toInt) ∧ FitsApart fun p => (totals (xs p)).max
  | MIN => (∀ p, ∀ x ∈ xs p, ∃ y ∈ pool, y.toInt ≤ x.toInt) ∧ FitsApart fun p => (totals (xs p)).min
  | AVG => (pool.map fun x => x.toInt.natAbs).sum < 2 ^ 63

/-! ## The numbers that are compared -/

/-- A fold that keeps the element with the greatest key ends with one. -/
theorem foldl_best {α : Type} (key : α → ℤ) (init : α) (xs : List α) :
    let best := xs.foldl (fun best x => if key best < key x then x else best) init
    best ∈ init :: xs ∧ ∀ x ∈ init :: xs, key x ≤ key best := by
  induction xs generalizing init with
  | nil => simp
  | cons x xs ih =>
      obtain ⟨hmem, hle⟩ := ih (if key init < key x then x else init)
      simp only [List.foldl_cons, List.mem_cons, forall_eq_or_imp] at hmem hle ⊢
      by_cases h : key init < key x
      · simp only [h, if_true] at hmem hle ⊢
        refine ⟨Or.inr hmem, ?_, hle⟩
        have hx := hle.1
        omega
      · simp only [h, if_false] at hmem hle ⊢
        refine ⟨hmem.imp_right Or.inr, hle.1, ?_, hle.2⟩
        have hinit := hle.1
        omega

theorem msb_sub_of_fits {a b : I64}
    (h : -2 ^ 63 ≤ a.toInt - b.toInt ∧ a.toInt - b.toInt < 2 ^ 63) :
    (a - b).msb = decide (a.toInt < b.toInt) := by
  have hsub : a + b * -1 = a - b := by ring
  have hbit := (Compare.msb_sub_eq_iff 0 a b).mpr h
  simpa only [hsub, Compare.fixedValue_lt] using hbit

theorem champion_id {x : Party → Int64} (h : FitsApart x) (p : Party) :
    (x p).toInt ≤ (x (champion id fun p => (x p).toBitVec)).toInt := by
  have hp : p = 0 ∨ p = 1 ∨ p = 2 := by decide +revert
  unfold champion
  simp only [id, msb_sub_of_fits (h _ _), decide_eq_true_eq]
  rcases hp with rfl | rfl | rfl <;> split_ifs <;> simp only [Int64.toInt] <;> omega

theorem champion_not {x : Party → Int64} (h : FitsApart x) (p : Party) :
    (x (champion not fun p => (x p).toBitVec)).toInt ≤ (x p).toInt := by
  have hp : p = 0 ∨ p = 1 ∨ p = 2 := by decide +revert
  unfold champion
  simp only [msb_sub_of_fits (h _ _), Bool.not_eq_true', decide_eq_false_iff_not]
  rcases hp with rfl | rfl | rfl <;> split_ifs <;> simp only [Int64.toInt] <;> omega

/-- The best one of the numbers that the parties have found is the best one of the pool. -/
theorem best_of_pool {key : Int64 → ℤ} (hkey : Function.Injective key) (worst : Int64)
    (hworst : ∀ x, key worst ≤ key x) {xs : Party → List Int64} {pool : List Int64}
    {found : Party → Int64}
    (hfound : ∀ p, found p ∈ worst :: xs p ∧ ∀ x ∈ worst :: xs p, key x ≤ key (found p))
    (hpool : ∀ y ∈ pool, ∃ p, y ∈ xs p) (hne : pool ≠ [])
    (hbelow : ∀ p, ∀ x ∈ xs p, ∃ y ∈ pool, key x ≤ key y) {q : Party}
    (hq : ∀ p, key (found p) ≤ key (found q)) :
    found q ∈ pool ∧ ∀ y ∈ pool, key y ≤ key (found q) := by
  have hle : ∀ y ∈ pool, key y ≤ key (found q) := by
    intro y hy
    obtain ⟨p, hp⟩ := hpool y hy
    calc
      key y ≤ key (found p) := (hfound p).2 y (List.mem_cons_of_mem _ hp)
      _ ≤ key (found q) := hq p
  have hreached : ∃ y ∈ pool, key (found q) ≤ key y := by
    rcases List.mem_cons.mp (hfound q).1 with hworse | hmem
    · obtain ⟨y, hy⟩ := List.exists_mem_of_ne_nil pool hne
      exact ⟨y, hy, hworse ▸ hworst y⟩
    · exact hbelow q _ hmem
  obtain ⟨y, hy, hyq⟩ := hreached
  have heq : found q = y := hkey (le_antisymm hyq (hle y hy))
  exact ⟨heq ▸ hy, hle⟩

/-! ## The scan -/

section Scanning

variable {T : Type} (N : Number T)

theorem max_foldl_take (xs : List T) (t : Totals T) :
    (xs.foldl (Totals.take N) t).max =
      xs.foldl (fun best x => if N.lt best x then x else best) t.max := by
  induction xs generalizing t with
  | nil => rfl
  | cons x xs ih => exact ih (t.take N x)

theorem min_foldl_take (xs : List T) (t : Totals T) :
    (xs.foldl (Totals.take N) t).min =
      xs.foldl (fun best x => if N.lt x best then x else best) t.min := by
  induction xs generalizing t with
  | nil => rfl
  | cons x xs ih => exact ih (t.take N x)

theorem sum_foldl_take (xs : List T) (t : Totals T) :
    (xs.foldl (Totals.take N) t).sum = xs.foldl N.add t.sum := by
  induction xs generalizing t with
  | nil => rfl
  | cons x xs ih => exact ih (t.take N x)

variable (S : Scalar T)

/-- A cell with a text that is not a number. -/
def isAbnormal (cell : Option Str) : Bool := cell.any fun text => (strTo S text).isNone

/-- The indices of these cells, counted from `start`. -/
def abnormalFrom (start : ℕ) (chunk : List (Option Str)) : List ℕ :=
  ((chunk.zipIdx start).filter fun cell => isAbnormal S cell.1).map Prod.snd

theorem mem_abnormalFrom (chunk : List (Option Str)) (j : ℕ) :
    j ∈ abnormalFrom S 0 chunk ↔
      ∃ text, chunk[j]? = some (some text) ∧ strTo S text = none := by
  unfold abnormalFrom
  simp only [List.mem_map, List.mem_filter, Prod.exists, List.mem_zipIdx_iff_getElem?]
  constructor
  · rintro ⟨cell, i, ⟨hcell, habnormal⟩, rfl⟩
    cases cell with
    | none => cases habnormal
    | some text => exact ⟨text, hcell, by simpa [isAbnormal] using habnormal⟩
  · rintro ⟨text, htext, hnone⟩
    exact ⟨some text, j, ⟨htext, by simp [isAbnormal, hnone]⟩, rfl⟩

theorem length_abnormalFrom (start : ℕ) (chunk : List (Option Str)) :
    (abnormalFrom S start chunk).length = chunk.countP (isAbnormal S) := by
  have hsecond : (chunk.zipIdx start).map Prod.fst = chunk := by simp
  conv_rhs => rw [← hsecond]
  rw [abnormalFrom, List.length_map, List.countP_map, List.countP_eq_length_filter]
  rfl

theorem length_flatten_abnormalFrom (chunks : List (List (Option Str))) :
    (chunks.map (abnormalFrom S 0)).flatten.length = chunks.flatten.countP (isAbnormal S) := by
  induction chunks with
  | nil => rfl
  | cons chunk chunks ih =>
      rw [List.map_cons, List.flatten_cons, List.length_append, ih, length_abnormalFrom,
        List.flatten_cons, List.countP_append]

theorem foldl_scanCell (chunk : List (Option Str)) (start : ℕ) (t : Totals T) (found : List ℕ) :
    (chunk.zipIdx start).foldl (scanCell N) (t, found) =
      ((chunk.filterMap fun cell => cell.bind (strTo N.scalar)).foldl (Totals.take N) t,
        found ++ abnormalFrom N.scalar start chunk) := by
  induction chunk generalizing start t found with
  | nil => simp [abnormalFrom]
  | cons cell chunk ih =>
      rw [List.zipIdx_cons, List.foldl_cons]
      cases cell with
      | none => simp [scanCell, ih, abnormalFrom, isAbnormal]
      | some text =>
          cases htext : strTo N.scalar text with
          | none => simp [scanCell, ih, abnormalFrom, isAbnormal, htext]
          | some x => simp [scanCell, ih, abnormalFrom, isAbnormal, htext]

theorem scanChunks_eq (chunks : List (List (Option Str))) (t : Totals T) :
    scanChunks N t chunks =
      ((chunks.flatten.filterMap fun cell => cell.bind (strTo N.scalar)).foldl (Totals.take N) t,
        chunks.map (abnormalFrom N.scalar 0)) := by
  induction chunks generalizing t with
  | nil => rfl
  | cons chunk chunks ih =>
      rw [scanChunks, scanChunk, foldl_scanCell]
      simp only [ih, List.nil_append, List.flatten_cons, List.filterMap_append,
        List.foldl_append, List.map_cons]

/-- Every cell is null, abnormal or valid. -/
theorem length_eq_null_add_abnormal_add_valid (xs : List (Option Str)) :
    xs.length = xs.countP Option.isNone + xs.countP (isAbnormal S) +
      (xs.filterMap fun cell => cell.bind (strTo S)).length := by
  induction xs with
  | nil => rfl
  | cons cell xs ih =>
      cases cell with
      | none =>
          simp [isAbnormal]
          omega
      | some text =>
          cases htext : strTo S text with
          | none =>
              simp [isAbnormal, htext]
              omega
          | some x =>
              simp [isAbnormal, htext]
              omega

end Scanning

/-! ## A column that can be read -/

theorem length_cells {use_db : Bool} {both_index : List ℕ} {column : Column}
    (h : Readable use_db both_index column) :
    (cells both_index column).length = column.length := by
  cases h with
  | csv chunks => exact List.length_map ..
  | db chunks => exact List.length_mapIdx ..

/-- The indices of a list in `range n`, without repetition, are as many as the list is long. -/
theorem countP_range_contains {indices : List ℕ} (hnodup : indices.Nodup) {n : ℕ}
    (hinside : ∀ i ∈ indices, i < n) : (List.range n).countP indices.contains = indices.length := by
  rw [List.countP_eq_length_filter]
  apply List.Perm.length_eq
  rw [List.perm_ext_iff_of_nodup (List.nodup_range.filter _) hnodup]
  intro i
  simp only [List.mem_filter, List.mem_range, List.contains_iff_mem]
  exact ⟨And.right, fun h => ⟨hinside i h, h⟩⟩

theorem length_reduceOption_mapIdx {α β : Type} (f : α → β) (xs : List α) {indices : List ℕ}
    (hnodup : indices.Nodup) (hinside : ∀ i ∈ indices, i < xs.length) :
    (xs.mapIdx fun i x => if indices.contains i then none else some (f x)).reduceOption.length +
      indices.length = xs.length := by
  have hnone : (xs.mapIdx fun i x => if indices.contains i then none else some (f x)).countP
      Option.isNone = indices.length := by
    calc
      _ = (xs.zipIdx.map Prod.snd).countP indices.contains := by
        rw [List.mapIdx_eq_zipIdx_map, List.countP_map, List.countP_map]
        apply List.countP_congr
        intro x _
        by_cases h : x.2 ∈ indices <;> simp [h]
      _ = (List.range xs.length).countP indices.contains := by
        rw [List.zipIdx_map_snd, List.range_eq_range']
      _ = indices.length := countP_range_contains hnodup hinside
  have hlength := List.length_eq_reduceOption_length_add_filter_none
    (l := xs.mapIdx fun i x => if indices.contains i then none else some (f x))
  rw [List.length_mapIdx, ← List.countP_eq_length_filter, hnone] at hlength
  exact hlength.symm

theorem sum_reduceOption (xs : List (Option Int64)) :
    (xs.reduceOption.map Int64.toInt).sum = (xs.map fun x => x.elim 0 Int64.toInt).sum := by
  induction xs with
  | nil => rfl
  | cons x xs ih => cases x <;> simp [List.reduceOption_cons_of_some, ih]

theorem reduceOption_map {α β : Type} (f : α → Option β) (xs : List α) :
    (xs.map f).reduceOption = xs.filterMap f := by
  rw [List.reduceOption, List.filterMap_map]
  rfl

/-- The scan takes the valid numbers, and the other ones do not change the sum. -/
theorem Readable.scanned {L : Local} {e : Entry}
    (h : Readable L.use_db (L.db_both_index e.name) e.column) :
    (∀ y ∈ e.valid L, y ∈ scanned e.column) ∧
      ((MissingProcess.scanned e.column).map Int64.toInt).sum =
        ((e.valid L).map Int64.toInt).sum := by
  obtain ⟨name, dtype, col_index, column⟩ := e
  cases h with
  | csv chunks =>
      have hvalid : Entry.valid L ⟨name, dtype, col_index, .string chunks⟩ =
          MissingProcess.scanned (.string chunks) := reduceOption_map ..
      rw [hvalid]
      exact ⟨fun _ => id, rfl⟩
  | db chunks db counted nodup inside nulls zero =>
      constructor
      · intro y hy
        have hmem : some y ∈ cells (L.db_both_index name) (.int64 chunks) :=
          List.reduceOption_mem_iff.mp hy
        obtain ⟨i, hi, hcell⟩ := List.mem_mapIdx.mp hmem
        by_cases hindex : (L.db_both_index name).contains i
        · rw [if_pos hindex] at hcell
          cases hcell
        · rw [if_neg hindex] at hcell
          rw [← Option.some.inj hcell]
          exact List.mem_map_of_mem (List.getElem_mem hi)
      · show _ = ((cells (L.db_both_index name) (.int64 chunks)).reduceOption.map Int64.toInt).sum
        rw [sum_reduceOption, MissingProcess.scanned, cells]
        apply congrArg List.sum
        apply List.ext_getElem?
        intro i
        simp only [List.getElem?_map, List.getElem?_mapIdx, Option.map_map]
        cases hslot : chunks.flatten[i]? with
        | none => rfl
        | some slot =>
            by_cases hindex : i ∈ L.db_both_index name
            · simp [hindex, zero i hindex slot hslot]
            · simp [hindex]

theorem uint32_of_lt {a b : ℤ} {n : ℕ} (h : a = n + b) (hn : n < 2 ^ 32) : uint32 (a - b) = n := by
  have hsub : a - b = n := by omega
  rw [uint32, hsub]
  omega

theorem firstChunks_length {α : Type} (chunks : List α) :
    firstChunks chunks.length chunks = .ok chunks := by
  rw [firstChunks, if_pos (le_refl _), List.take_length]

/-- What the joint steps and the replacement need of a scan. -/
structure Scan.Right (s : Scan Int64) (L : Local) (e : Entry) : Prop where
  totals : s.totals = MissingProcess.totals (scanned e.column)
  count : s.count = (e.valid L).length
  newValues : ∀ v, newValues int64 e.column v s.abnormal_index L.use_db (L.db_both_index e.name) =
    .ok ((e.cells L).map fun cell => cell.getD v)

theorem scan_csv {L : Local} {e : Entry} {chunks : List (List (Option Str))}
    (hcolumn : e.column = .string chunks) (use_db : L.use_db = false) (counted : Counted chunks)
    (hlength : e.column.length = L.table.num_rows) (hsmall : L.table.num_rows < 2 ^ 32)
    (hchunk : int64Number.chunk_num L.table e.column = chunks.length) (hsome : chunks ≠ []) :
    ∃ s, scan int64Number L e.name e.column = .ok s ∧ s.Right L e := by
  have hvalid : e.valid L = chunks.flatten.filterMap fun cell => cell.bind (strTo int64) := by
    rw [Entry.valid, Entry.cells, hcolumn]
    exact reduceOption_map ..
  have hnamed : List.Forall₂ (fun chunk abnormal => ∀ j, j ∈ abnormal ↔
      ∃ text, chunk[j]? = some (some text) ∧ strTo int64 text = none) chunks
        (chunks.map (abnormalFrom int64 0)) :=
    List.forall₂_map_right_iff.mpr (List.forall₂_same.mpr fun chunk _ j =>
      mem_abnormalFrom int64 chunk j)
  have hrows : chunks.flatten.length = L.table.num_rows := by
    rw [← hlength, hcolumn, Column.length]
  have hcount := length_eq_null_add_abnormal_add_valid int64 chunks.flatten
  rw [hcolumn] at hchunk
  refine ⟨{
    totals := totals (scanned (.string chunks))
    count := uint32 (L.table.num_rows - chunks.flatten.countP Option.isNone -
      (chunks.map (abnormalFrom int64 0)).flatten.length)
    abnormal_index := chunks.map (abnormalFrom int64 0) }, ?_, ?_, ?_, fun v => ?_⟩
  · simp only [hcolumn, scan, use_db, Bool.false_eq_true, if_false, hchunk, firstChunks_length,
      scanChunks_eq, bind, Except.bind, pure, Except.pure]
    rfl
  · rw [hcolumn]
  · rw [hvalid]
    refine uint32_of_lt ?_ ?_
    · rw [length_flatten_abnormalFrom]
      omega
    · omega
  · simp only [hcolumn, MissingProcess.newValues, use_db, Bool.false_eq_true, if_false]
    rw [Entry.cells, hcolumn, cells, List.map_map]
    exact (buildFromStrings_eq_iff int64 hnamed (int64.to_string v) v).mpr
      ⟨⟨hsome, counted⟩, fun _ => value_to_string_int64 v⟩

theorem scan_db {L : Local} {e : Entry} {chunks : List (List (Slot Int64))}
    (hcolumn : e.column = .int64 chunks) (use_db : L.use_db = true) (counted : Counted chunks)
    (nodup : (L.db_both_index e.name).Nodup)
    (inside : ∀ i ∈ L.db_both_index e.name, i < chunks.flatten.length)
    (hlength : e.column.length = L.table.num_rows) (hsmall : L.table.num_rows < 2 ^ 32)
    (hchunk : int64Number.chunk_num L.table e.column = chunks.length) (hsome : chunks ≠ []) :
    ∃ s, scan int64Number L e.name e.column = .ok s ∧ s.Right L e := by
  have hrows : chunks.flatten.length = L.table.num_rows := by
    rw [← hlength, hcolumn, Column.length]
  have hcells : e.cells L = chunks.flatten.mapIdx fun i slot =>
      if (L.db_both_index e.name).contains i then none else some slot.value := by
    rw [Entry.cells, hcolumn, cells]
  have hcount : (e.valid L).length + (L.db_both_index e.name).length = chunks.flatten.length := by
    rw [Entry.valid, hcells]
    exact length_reduceOption_mapIdx Slot.value chunks.flatten nodup inside
  rw [hcolumn] at hchunk
  refine ⟨{
    totals := totals (scanned (.int64 chunks))
    count := uint32 (L.table.num_rows - (L.db_both_index e.name).length)
    abnormal_index := List.replicate chunks.length [] }, ?_, ?_, ?_, fun v => ?_⟩
  · have hfold : totals (scanned (.int64 chunks)) = chunks.flatten.foldl
        (fun t slot => t.take int64Number slot.value) (initial int64Number) :=
      List.foldl_map ..
    have hofColumn : int64Number.scalar.ofColumn (.int64 chunks) = some chunks := rfl
    simp only [hcolumn, scan, use_db, if_true, hchunk, hofColumn, firstChunks_length, hfold, bind,
      Except.bind, pure, Except.pure]
  · rw [hcolumn]
  · refine uint32_of_lt ?_ ?_ <;> omega
  · have hexpected : ((e.cells L).map fun cell => cell.getD v) = chunks.flatten.mapIdx
        fun i slot => if (L.db_both_index e.name).contains i then v else slot.value := by
      rw [hcells]
      apply List.ext_getElem?
      intro i
      simp only [List.getElem?_map, List.getElem?_mapIdx, Option.map_map]
      congr 1
      funext slot
      by_cases hindex : i ∈ L.db_both_index e.name <;> simp [hindex]
    rw [hexpected, hcolumn, use_db]
    exact (buildFromNumbers_eq_iff int64 inside (int64.to_string v) v).mpr
      ⟨⟨hsome, counted⟩, fun _ => value_to_string_int64 v⟩

/-! ## The value of a column -/

theorem totals_max (xs : List Int64) :
    (totals xs).max ∈ Int64.minValue :: xs ∧
      ∀ x ∈ Int64.minValue :: xs, x.toInt ≤ (totals xs).max.toInt := by
  have hfold : (totals xs).max =
      xs.foldl (fun best x => if best.toInt < x.toInt then x else best) Int64.minValue := by
    rw [totals, max_foldl_take]
    simp only [int64Number, decide_eq_true_eq, Int64.lt_iff_toInt_lt]
    rfl
  rw [hfold]
  exact foldl_best Int64.toInt Int64.minValue xs

theorem totals_min (xs : List Int64) :
    (totals xs).min ∈ Int64.maxValue :: xs ∧
      ∀ x ∈ Int64.maxValue :: xs, -x.toInt ≤ -(totals xs).min.toInt := by
  have hfold : (totals xs).min =
      xs.foldl (fun best x => if -best.toInt < -x.toInt then x else best) Int64.maxValue := by
    rw [totals, min_foldl_take]
    simp only [int64Number, decide_eq_true_eq, Int64.lt_iff_toInt_lt, neg_lt_neg_iff]
    rfl
  rw [hfold]
  exact foldl_best (fun x => -x.toInt) Int64.maxValue xs

/-- The sum wraps around. -/
theorem totals_sum (xs : List Int64) :
    (totals xs).sum.toBitVec = BitVec.ofInt 64 (xs.map Int64.toInt).sum := by
  have hfold : ∀ start : Int64, (xs.foldl (fun x y => x + y) start).toBitVec =
      start.toBitVec + BitVec.ofInt 64 (xs.map Int64.toInt).sum := by
    induction xs with
    | nil => simp
    | cons x xs ih =>
        intro start
        have hx : BitVec.ofInt 64 x.toInt = x.toBitVec := BitVec.ofInt_toInt
        rw [List.foldl_cons, ih, List.map_cons, List.sum_cons, BitVec.ofInt_add, hx,
          Int64.toBitVec_add, add_assoc]
  rw [totals, sum_foldl_take]
  exact (hfold 0).trans (zero_add _)

/-- How the numbers of a row of columns are scanned: the valid ones are among them, and the other
ones do not count. -/
structure Scanned (xs ys : Party → List Int64) : Prop where
  valid : ∀ p, ∀ y ∈ ys p, y ∈ xs p
  sum : ∀ p, ((xs p).map Int64.toInt).sum = ((ys p).map Int64.toInt).sum

namespace Scanned

variable {xs ys : Party → List Int64}

theorem exists_of_mem_pool (h : Scanned xs ys) :
    ∀ y ∈ ys 0 ++ ys 1 ++ ys 2, ∃ p, y ∈ xs p := by
  intro y hy
  rcases List.mem_append.mp hy with hy | hy
  · rcases List.mem_append.mp hy with hy | hy
    · exact ⟨0, h.valid 0 y hy⟩
    · exact ⟨1, h.valid 1 y hy⟩
  · exact ⟨2, h.valid 2 y hy⟩

theorem isValue_max (h : Scanned xs ys) (hne : ys 0 ++ ys 1 ++ ys 2 ≠ [])
    (hfits : ReplaceType.MAX.Fits xs (ys 0 ++ ys 1 ++ ys 2)) :
    ReplaceType.MAX.IsValue (ys 0 ++ ys 1 ++ ys 2)
      (totals (xs (champion id fun p => (totals (xs p)).max.toBitVec))).max :=
  best_of_pool (fun _ _ => Int64.toInt_inj.mp) Int64.minValue (fun x => x.le_toInt)
    (fun p => totals_max (xs p)) h.exists_of_mem_pool hne hfits.1 (champion_id hfits.2)

theorem isValue_min (h : Scanned xs ys) (hne : ys 0 ++ ys 1 ++ ys 2 ≠ [])
    (hfits : ReplaceType.MIN.Fits xs (ys 0 ++ ys 1 ++ ys 2)) :
    ReplaceType.MIN.IsValue (ys 0 ++ ys 1 ++ ys 2)
      (totals (xs (champion not fun p => (totals (xs p)).min.toBitVec))).min := by
  have hkey : Function.Injective fun x : Int64 => -x.toInt :=
    fun x y hxy => Int64.toInt_inj.mp (neg_injective hxy)
  have hworst : ∀ x : Int64, -Int64.maxValue.toInt ≤ -x.toInt := fun x => by
    have hx := x.toInt_le
    omega
  have hbest := best_of_pool hkey _ hworst (fun p => totals_min (xs p)) h.exists_of_mem_pool hne
    (fun p x hx => (hfits.1 p x hx).imp fun y hy => ⟨hy.1, neg_le_neg hy.2⟩)
    (fun p => neg_le_neg (champion_not hfits.2 p))
  exact ⟨hbest.1, fun y hy => neg_le_neg_iff.mp (hbest.2 y hy)⟩

end Scanned

/-- A sum of integers is no farther from zero than the sum of their distances. -/
theorem natAbs_sum_le (ns : List ℤ) : ns.sum.natAbs ≤ (ns.map Int.natAbs).sum := by
  induction ns with
  | nil => simp
  | cons n ns ih =>
      rw [List.sum_cons, List.map_cons, List.sum_cons]
      exact (Int.natAbs_add_le n ns.sum).trans (Nat.add_le_add_left ih _)

/-- The quotient is cut toward zero. -/
theorem quotient_eq {s : ℤ} {n : ℕ} (hs : s.natAbs < 2 ^ 63) (hn : 0 < n) (hn' : n < 2 ^ 63) :
    ∃ v, quotient int64Number [BitVec.ofInt 64 s, BitVec.ofInt 64 n] = .ok v ∧
      v.toInt = s.tdiv n := by
  have hsum : (Int64.ofBitVec (BitVec.ofInt 64 s)).toInt = s := by
    show (BitVec.ofInt 64 s).toInt = s
    rw [BitVec.toInt_ofInt]
    exact Int.bmod_eq_of_le (by omega) (by omega)
  have hcount : (Int64.ofBitVec (BitVec.ofInt 64 n)).toInt = n := by
    show (BitVec.ofInt 64 n).toInt = n
    rw [BitVec.toInt_ofInt]
    exact Int.bmod_eq_of_le (by omega) (by omega)
  have hzero : Int64.ofBitVec (BitVec.ofInt 64 n) ≠ 0 := fun h => by
    rw [h] at hcount
    have hz : (0 : Int64).toInt = 0 := rfl
    omega
  have hdiv : int64Number.div (int64Number.decode (BitVec.ofInt 64 s))
      (int64Number.decode (BitVec.ofInt 64 n)) =
        some (Int64.ofBitVec (BitVec.ofInt 64 s) / Int64.ofBitVec (BitVec.ofInt 64 n)) :=
    if_neg hzero
  refine ⟨Int64.ofBitVec (BitVec.ofInt 64 s) / Int64.ofBitVec (BitVec.ofInt 64 n),
    by simp only [quotient, hdiv], ?_⟩
  have hle : (s.tdiv n).natAbs ≤ s.natAbs := by
    rw [Int.natAbs_tdiv]
    exact Nat.div_le_self _ _
  rw [Int64.toInt_div, hsum, hcount]
  exact Int.bmod_eq_of_le (by omega) (by omega)

section Values

variable (E : Engine)

theorem encodeAll_int64 (x : Party → Int64) :
    encodeAll int64Number x = .ok fun p => (x p).toBitVec :=
  forParties_ok fun _ => rfl

theorem extreme_eq (wins : Bool → Bool) (r : E.Runtime) (x : Party → Int64) :
    ∃ r', extreme E int64Number wins r x =
      .ok (fun _ => x (champion wins fun p => (x p).toBitVec), r') := by
  obtain ⟨r', hrounds⟩ := tournament_eq E wins r fun p => (x p).toBitVec
  unfold extreme
  rw [encodeAll_int64]
  simp only [bind, Except.bind, hrounds, inMpc, Except.mapError]
  exact ⟨r', rfl⟩

theorem average_eq (r : E.Runtime) {s : Party → Scan Int64} {xs ys : Party → List Int64}
    (hscan : Scanned xs ys) (htotals : ∀ p, (s p).totals = totals (xs p))
    (hcount : ∀ p, (s p).count = (ys p).length) (hsmall : ∀ p, (ys p).length < 2 ^ 32)
    (hne : ys 0 ++ ys 1 ++ ys 2 ≠ []) (hfits : ReplaceType.AVG.Fits xs (ys 0 ++ ys 1 ++ ys 2)) :
    ∃ v r', average E int64Number r s = .ok (fun _ => v, r') ∧
      ReplaceType.AVG.IsValue (ys 0 ++ ys 1 ++ ys 2) v := by
  have hsum : ∀ p, (s p).totals.sum.toBitVec = BitVec.ofInt 64 ((ys p).map Int64.toInt).sum := by
    intro p
    rw [htotals, totals_sum, hscan.sum]
  have hofCount : ∀ p, (int64Number.ofCount (s p).count).toBitVec =
      BitVec.ofInt 64 ((ys p).length : ℤ) := by
    intro p
    rw [hcount, BitVec.ofInt_natCast]
    rfl
  obtain ⟨r', hrun⟩ := sumAndReveal_eq E r (fun p => (s p).totals.sum.toBitVec)
    fun p => (int64Number.ofCount (s p).count).toBitVec
  simp only [hsum, hofCount, ← BitVec.ofInt_add] at hrun
  -- the sums of the parties are those of the pool
  have hpoolSum : ((ys 0).map Int64.toInt).sum + ((ys 1).map Int64.toInt).sum +
      ((ys 2).map Int64.toInt).sum = ((ys 0 ++ ys 1 ++ ys 2).map Int64.toInt).sum := by
    simp [add_assoc]
  have hpoolLength : ((ys 0).length : ℤ) + (ys 1).length + (ys 2).length =
      ((ys 0 ++ ys 1 ++ ys 2).length : ℕ) := by
    simp [add_assoc]
  rw [hpoolSum, hpoolLength] at hrun
  have habs : ((ys 0 ++ ys 1 ++ ys 2).map Int64.toInt).sum.natAbs < 2 ^ 63 := by
    refine lt_of_le_of_lt (natAbs_sum_le _) ?_
    rw [List.map_map]
    exact hfits
  have hlength : (ys 0 ++ ys 1 ++ ys 2).length < 2 ^ 63 := by
    have h0 := hsmall 0
    have h1 := hsmall 1
    have h2 := hsmall 2
    simp only [List.length_append]
    omega
  obtain ⟨v, hquotient, hv⟩ := quotient_eq habs (List.length_pos_iff.mpr hne) hlength
  refine ⟨v, r', ?_, hv⟩
  unfold average
  simp only [encodeAll_int64, bind, Except.bind, hsum, hofCount, hrun, inMpc, Except.mapError]
  rw [forParties_ok fun _ => hquotient]
  rfl

/-- The joint steps find the value of the type. -/
theorem columnValue_eq (type : ReplaceType) (r : E.Runtime) {s : Party → Scan Int64}
    {xs ys : Party → List Int64} (hscan : Scanned xs ys)
    (htotals : ∀ p, (s p).totals = totals (xs p)) (hcount : ∀ p, (s p).count = (ys p).length)
    (hsmall : ∀ p, (ys p).length < 2 ^ 32) (hne : ys 0 ++ ys 1 ++ ys 2 ≠ [])
    (hfits : type.Fits xs (ys 0 ++ ys 1 ++ ys 2)) :
    ∃ v r', columnValue E int64Number type.text r s = .ok (some fun _ => v, r') ∧
      type.IsValue (ys 0 ++ ys 1 ++ ys 2) v := by
  cases type with
  | MAX =>
      obtain ⟨r', hrun⟩ := extreme_eq E id r fun p => (s p).totals.max
      simp only [htotals] at hrun
      refine ⟨_, r', ?_, hscan.isValue_max hne hfits⟩
      simp only [columnValue, ReplaceType.text, if_true, htotals, hrun, bind, Except.bind, pure,
        Except.pure]
  | MIN =>
      obtain ⟨r', hrun⟩ := extreme_eq E not r fun p => (s p).totals.min
      simp only [htotals] at hrun
      have hmax : "MIN".toList ≠ "MAX".toList := by decide
      refine ⟨_, r', ?_, hscan.isValue_min hne hfits⟩
      simp only [columnValue, ReplaceType.text, if_true, if_neg hmax, htotals, hrun, bind,
        Except.bind, pure, Except.pure]
  | AVG =>
      obtain ⟨v, r', hrun, hv⟩ := average_eq E r hscan htotals hcount hsmall hne hfits
      have hmax : "AVG".toList ≠ "MAX".toList := by decide
      have hmin : "AVG".toList ≠ "MIN".toList := by decide
      refine ⟨v, r', ?_, hv⟩
      simp only [columnValue, ReplaceType.text, if_true, if_neg hmax, if_neg hmin, hrun, bind,
        Except.bind, pure, Except.pure]

end Values

/-! ## A column at the three parties -/

/-- The table of the party has the column, in as many chunks as are counted. -/
structure Entry.Placed (L : Local) (e : Entry) : Prop where
  find : L.table.find e.name = some e.col_index
  column : L.table.columns[e.col_index]? = some (e.name, e.column)
  readable : Readable L.use_db (L.db_both_index e.name) e.column
  chunk_num : int64Number.chunk_num L.table e.column = e.column.chunk_num
  some_chunk : e.column.chunk_num ≠ 0
  num_rows : L.table.num_rows < 2 ^ 32

namespace Entry.Placed

variable {L : Local} {e : Entry}

theorem length_column (h : e.Placed L) : e.column.length = L.table.num_rows :=
  L.table.length_columns _ (List.mem_of_getElem? h.column)

theorem length_valid (h : e.Placed L) : (e.valid L).length ≤ L.table.num_rows := by
  calc
    (e.valid L).length ≤ (e.cells L).length := List.reduceOption_length_le _
    _ = e.column.length := length_cells h.readable
    _ = L.table.num_rows := h.length_column

/-- What the party scans. -/
theorem scanNamed_eq (h : e.Placed L) :
    ∃ s, scanNamed int64Number L e.name = .ok (some (e.col_index, s)) ∧ s.Right L e := by
  have hscan : ∃ s, scan int64Number L e.name e.column = .ok s ∧ s.Right L e := by
    have hchunk := h.chunk_num
    have hsome := h.some_chunk
    cases hcolumn : e.column with
    | string chunks =>
        have hreadable := h.readable
        rw [hcolumn] at hreadable hchunk hsome
        cases hreadable with
        | csv _ csv counted =>
            have hne : chunks ≠ [] := fun hnil => hsome (congrArg List.length hnil)
            have hright := scan_csv hcolumn csv counted h.length_column h.num_rows
              (by rw [hcolumn, hchunk]; rfl) hne
            rwa [hcolumn] at hright
    | int64 chunks =>
        have hreadable := h.readable
        rw [hcolumn] at hreadable hchunk hsome
        cases hreadable with
        | db _ db counted nodup inside nulls zero =>
            have hne : chunks ≠ [] := fun hnil => hsome (congrArg List.length hnil)
            have hright := scan_db hcolumn db counted nodup inside h.length_column h.num_rows
              (by rw [hcolumn, hchunk]; rfl) hne
            rwa [hcolumn] at hright
    | float64 chunks =>
        have hreadable := h.readable
        rw [hcolumn] at hreadable
        cases hreadable
  obtain ⟨s, hs, hright⟩ := hscan
  refine ⟨s, ?_, hright⟩
  simp only [scanNamed, h.find, h.column, hs, bind, Except.bind, pure, Except.pure]

/-- What the party puts into its table. -/
theorem replace_eq (h : e.Placed L) {s : Scan Int64} (hs : s.Right L e) (v : Int64) :
    ∃ table, L.replace int64Number e.name e.col_index s v = .ok { L with table := table } ∧
      table.num_rows = L.table.num_rows ∧
      table.columns = L.table.columns.set e.col_index (e.name, e.imputed L v) := by
  have hfits : (newArray int64 ((e.cells L).map fun cell => cell.getD v)).length =
        L.table.num_rows ∧ e.col_index < L.table.columns.length := by
    refine ⟨?_, (List.getElem?_eq_some_iff.mp h.column).1⟩
    rw [length_newArray, List.length_map, Entry.cells, length_cells h.readable, h.length_column]
  have hset : ∃ table, L.table.SetColumn e.col_index e.name
        (newArray int64 ((e.cells L).map fun cell => cell.getD v)) = .ok table ∧
      table.num_rows = L.table.num_rows ∧
      table.columns = L.table.columns.set e.col_index (e.name, e.imputed L v) :=
    ⟨_, dif_pos hfits, rfl, rfl⟩
  obtain ⟨table, htable, hsame⟩ := hset
  have hscalar : int64Number.scalar = int64 := rfl
  refine ⟨table, ?_, hsame⟩
  simp only [Local.replace, hscalar, replaceValue, h.column, hs.newValues v, htable, bind,
    Except.bind, pure, Except.pure]

end Entry.Placed

section Columns

variable (E : Engine) (type : ReplaceType)

/-- All three parties get the same value for the column. -/
theorem processColumn_eq {L : Party → Local} (r : E.Runtime) {row : Party → Entry}
    (hplaced : ∀ p, (row p).Placed (L p)) (hne : pooled L row ≠ [])
    (hfits : type.Fits (fun p => scanned (row p).column) (pooled L row)) :
    ∃ (v : Int64) (table : Party → Table) (r' : E.Runtime),
      processColumn E int64Number type.text (fun p => (row p).name) L r =
          .ok (fun p => { L p with table := table p }, r') ∧
        type.IsValue (pooled L row) v ∧
        ∀ p, (table p).num_rows = (L p).table.num_rows ∧ (table p).columns =
          (L p).table.columns.set (row p).col_index ((row p).name, (row p).imputed (L p) v) := by
  choose s hs hright using fun p => (hplaced p).scanNamed_eq
  have hscanned : Scanned (fun p => scanned (row p).column) fun p => (row p).valid (L p) :=
    ⟨fun p => (hplaced p).readable.scanned.1, fun p => (hplaced p).readable.scanned.2⟩
  have hsmall : ∀ p, ((row p).valid (L p)).length < 2 ^ 32 := fun p =>
    lt_of_le_of_lt (hplaced p).length_valid (hplaced p).num_rows
  obtain ⟨v, r', hvalue, hv⟩ := columnValue_eq E type r hscanned (fun p => (hright p).totals)
    (fun p => (hright p).count) hsmall hne hfits
  choose table htable hsame using fun p => (hplaced p).replace_eq (hright p) v
  have hscans := forParties_ok (f := fun p =>
    inColumn (scanNamed int64Number (L p) (row p).name)) fun p => by rw [hs p]; rfl
  have hreplaced := forParties_ok (f := fun p => inColumn ((L p).replace int64Number (row p).name
    (row p).col_index (s p) v)) fun p => by rw [htable p]; rfl
  refine ⟨v, table, r', ?_, hv, hsame⟩
  have hself := Compare.atParties_self fun p => ((row p).col_index, s p)
  unfold processColumn
  rw [hscans]
  simp only [bind, Except.bind, hself, hvalue, hreplaced]
  rfl

end Columns

/-! ## The run -/

/-- The columns that the three parties list, with one row for each place in the lists. -/
structure Prepared (type : ReplaceType) (L : Party → Local) (rows : List (Party → Entry)) :
    Prop where
  dtype : ∀ row ∈ rows, (row 0).dtype = 1 ∨ (row 0).dtype = 3
  names : ∀ p, (rows.map fun row => (row p).name).Nodup
  placed : ∀ row ∈ rows, ∀ p, (row p).Placed (L p)
  /-- The new column has one chunk, and the chunks are counted in the first column. -/
  first_column : ∀ p, ∀ row ∈ rows, (row p).col_index = 0 →
    ∀ other ∈ rows, (other p).column.chunk_num = 1
  valid : ∀ row ∈ rows, pooled L row ≠ []
  fits : ∀ row ∈ rows, type.Fits (fun p => scanned (row p).column) (pooled L row)

/-- The table has the value of each listed column in the place of its missing and abnormal cells,
and is otherwise the table of the party. -/
structure Imputed (L : Local) (columns : List (Entry × Int64)) (table : Table) : Prop where
  num_rows : table.num_rows = L.table.num_rows
  listed : ∀ c ∈ columns, table.columns[c.1.col_index]? = some (c.1.name, c.1.imputed L c.2)
  other : ∀ i, (∀ c ∈ columns, c.1.col_index ≠ i) → table.columns[i]? = L.table.columns[i]?

section Run

theorem find_eq (table : Table) (name : Str) :
    table.find name = (table.columns.map Prod.fst).findIdx? fun n => n = name := by
  rw [Table.find, List.findIdx?_map]
  rfl

/-- A column of the same name in the place of an old one does not change where names are found. -/
theorem find_of_set {table table' : Table} {i : ℕ} {name : Str} {column column' : Column}
    (hold : table.columns[i]? = some (name, column))
    (hnew : table'.columns = table.columns.set i (name, column')) :
    table'.find = table.find := by
  funext n
  have hname : (table.columns.map Prod.fst)[i]? = some name := by
    rw [List.getElem?_map, hold]
    rfl
  obtain ⟨hi, hget⟩ := List.getElem?_eq_some_iff.mp hname
  have hnames : table'.columns.map Prod.fst = table.columns.map Prod.fst := by
    rw [hnew, List.map_set]
    show (table.columns.map Prod.fst).set i name = _
    rw [← hget, List.set_getElem_self]
  rw [find_eq, find_eq, hnames]

/-- A column that is not replaced stays where it is. -/
theorem Entry.Placed.of_set {L : Local} {e : Entry} (h : e.Placed L) {done : Entry}
    {column : Column} {table : Table} (hdone : done.Placed L) (hname : done.name ≠ e.name)
    (hfirst : done.col_index = 0 → e.column.chunk_num = 1) (hcolumn : column.chunk_num = 1)
    (hrows : table.num_rows = L.table.num_rows)
    (hset : table.columns = L.table.columns.set done.col_index (done.name, column)) :
    e.Placed { L with table := table } := by
  have hindex : done.col_index ≠ e.col_index := fun heq => by
    have hsame := hdone.column
    rw [heq, h.column] at hsame
    exact hname (congrArg Prod.fst (Option.some.inj hsame)).symm
  constructor
  · show table.find e.name = _
    rw [find_of_set hdone.column hset]
    exact h.find
  · show table.columns[e.col_index]? = _
    rw [hset, List.getElem?_set_ne hindex]
    exact h.column
  · exact h.readable
  · have hold := h.chunk_num
    simp only [int64Number, List.head?_eq_getElem?] at hold ⊢
    rw [hset]
    by_cases hzero : done.col_index = 0
    · have hlength := (List.getElem?_eq_some_iff.mp hdone.column).1
      rw [hzero] at hlength ⊢
      rw [List.getElem?_set_self hlength, hfirst hzero]
      exact hcolumn
    · rw [List.getElem?_set_ne hzero]
      exact hold
  · exact h.some_chunk
  · show table.num_rows < 2 ^ 32
    rw [hrows]
    exact h.num_rows

theorem chunk_num_imputed (L : Local) (e : Entry) (v : Int64) : (e.imputed L v).chunk_num = 1 := rfl

variable (E : Engine) (type : ReplaceType)

theorem Prepared.name_ne {type : ReplaceType} {L : Party → Local} {row other : Party → Entry}
    {rows : List (Party → Entry)} (h : Prepared type L (row :: rows)) (hother : other ∈ rows)
    (p : Party) : (row p).name ≠ (other p).name := fun heq =>
  (List.nodup_cons.mp (h.names p)).1 (List.mem_map.mpr ⟨other, hother, heq.symm⟩)

/-- After a column the others can still be processed. -/
theorem Prepared.tail {type : ReplaceType} {L : Party → Local} {row : Party → Entry}
    {rows : List (Party → Entry)} (h : Prepared type L (row :: rows)) {v : Int64}
    {table : Party → Table}
    (hsame : ∀ p, (table p).num_rows = (L p).table.num_rows ∧ (table p).columns =
      (L p).table.columns.set (row p).col_index ((row p).name, (row p).imputed (L p) v)) :
    Prepared type (fun p => { L p with table := table p }) rows where
  dtype other hother := h.dtype other (List.mem_cons_of_mem _ hother)
  names p := (List.nodup_cons.mp (h.names p)).2
  placed other hother p :=
    (h.placed other (List.mem_cons_of_mem _ hother) p).of_set
      (h.placed row (List.mem_cons_self ..) p) (h.name_ne hother p)
      (fun hzero => h.first_column p row (List.mem_cons_self ..) hzero other
        (List.mem_cons_of_mem _ hother)) (chunk_num_imputed (L p) (row p) v)
      (hsame p).1 (hsame p).2
  first_column p other hother hzero another hanother :=
    h.first_column p other (List.mem_cons_of_mem _ hother) hzero another
      (List.mem_cons_of_mem _ hanother)
  valid other hother := h.valid other (List.mem_cons_of_mem _ hother)
  fits other hother := h.fits other (List.mem_cons_of_mem _ hother)

/-- A column and the others together. -/
theorem Imputed.cons {L : Local} {e : Entry} {v : Int64} {table table' : Table}
    {columns : List (Entry × Int64)} (hplaced : e.Placed L)
    (hrows : table.num_rows = L.table.num_rows)
    (hset : table.columns = L.table.columns.set e.col_index (e.name, e.imputed L v))
    (hother : ∀ c ∈ columns, c.1.col_index ≠ e.col_index)
    (h : Imputed { L with table := table } columns table') :
    Imputed L ((e, v) :: columns) table' where
  num_rows := h.num_rows.trans hrows
  listed c hc := by
    rcases List.mem_cons.mp hc with rfl | hc
    · rw [h.other _ hother]
      show table.columns[e.col_index]? = _
      rw [hset, List.getElem?_set_self (List.getElem?_eq_some_iff.mp hplaced.column).1]
    · exact h.listed c hc
  other i hi := by
    have he : e.col_index ≠ i := hi (e, v) (List.mem_cons_self ..)
    rw [h.other i fun c hc => hi c (List.mem_cons_of_mem _ hc)]
    show table.columns[i]? = _
    rw [hset, List.getElem?_set_ne he]

/-- The lists of the three parties from the rows. -/
def Entry.listed (e : Entry) : Str × ℕ := (e.name, e.dtype)

theorem processColumns_eq {L : Party → Local} {rows : List (Party → Entry)} (r : E.Runtime)
    (h : Prepared type L rows) :
    ∃ (vs : List Int64) (table : Party → Table) (r' : E.Runtime),
      processColumns E type.text (rows.map fun row => (row 0).listed)
          (rows.map fun row => (row 1).listed) (rows.map fun row => (row 2).listed) L r =
          .ok (fun p => { L p with table := table p }, r') ∧
        List.Forall₂ (fun row v => type.IsValue (pooled L row) v) rows vs ∧
        ∀ p, Imputed (L p) ((rows.map fun row => row p).zip vs) (table p) := by
  induction rows generalizing L r with
  | nil =>
      refine ⟨[], fun p => (L p).table, r, rfl, List.Forall₂.nil, fun p => ?_⟩
      exact ⟨rfl, fun c hc => absurd hc List.not_mem_nil, fun i _ => rfl⟩
  | cons row rows ih =>
      have hrow := List.mem_cons_self (a := row) (l := rows)
      obtain ⟨v, table, r₁, hstep, hv, hsame⟩ := processColumn_eq E type r
        (h.placed row hrow) (h.valid row hrow) (h.fits row hrow)
      obtain ⟨vs, table', r₂, hrun, hvs, himputed⟩ := ih r₁ (h.tail hsame)
      refine ⟨v :: vs, table', r₂, ?_, List.Forall₂.cons hv hvs, fun p => ?_⟩
      · have hname : (atParties (row 0).listed.1 (row 1).listed.1 (row 2).listed.1) =
            fun p => (row p).name := Compare.atParties_self fun p => (row p).name
        have htype : (row 0).listed.2 = 1 ∨ (row 0).listed.2 = 3 := h.dtype row hrow
        simp only [List.map_cons, processColumns, hname, if_pos htype, hstep, bind, Except.bind]
        exact hrun
      · refine (himputed p).cons (h.placed row hrow p) (hsame p).1 (hsame p).2 ?_
        intro c hc heq
        obtain ⟨other, hother, hcolumn⟩ := List.mem_map.mp (List.of_mem_zip hc).1
        have hplaced := (h.placed other (List.mem_cons_of_mem _ hother) p).column
        rw [hcolumn, heq, (h.placed row hrow p).column] at hplaced
        have hname := congrArg Prod.fst (Option.some.inj hplaced)
        rw [← hcolumn] at hname
        exact h.name_ne hother p hname

/-- An integer is read back whole. -/
theorem strTo_to_string (n : Int64) : strTo int64 (int64.to_string n) = some n := by
  have hread : readInt (Json.dumpInt n.toInt ++ []) = some (n.toInt, []) :=
    Strto.readInt_dumpInt n.toInt (by simp [Json.Stops])
  rw [List.append_nil] at hread
  have hsto : int64.sto (int64.to_string n) = .ok (n, []) := by
    show stoll (Json.dumpInt n.toInt) = .ok (n, [])
    rw [stoll, hread]
    simp only [if_pos (And.intro n.le_toInt n.toInt_lt), Int64.ofInt_toInt]
  rw [strTo, hsto]

/-- A party with a column of a number and a text that is none. -/
def oneNumber (n : Int64) : Local where
  col_and_dtype := [(['x'], 1)]
  use_db := false
  db_both_index _ := []
  table := {
    num_rows := 2
    columns := [(['x'], .string [[some (int64.to_string n), some ['b']]])]
    length_columns := fun c hc => by
      rw [List.mem_singleton.mp hc]
      rfl }

def oneNumberEntry (n : Int64) : Entry where
  name := ['x']
  dtype := 1
  col_index := 0
  column := .string [[some (int64.to_string n), some ['b']]]

theorem oneNumber_placed (n : Int64) : (oneNumberEntry n).Placed (oneNumber n) where
  find := rfl
  column := rfl
  readable := .csv _ rfl ⟨by norm_num, by simp⟩
  chunk_num := rfl
  some_chunk := one_ne_zero
  num_rows := by
    show 2 < 2 ^ 32
    norm_num

theorem oneNumber_scanned (n : Int64) : scanned (oneNumberEntry n).column = [n] := by
  have htext : strTo int64 ['b'] = none := rfl
  simp [scanned, oneNumberEntry, strTo_to_string, htext]

theorem oneNumber_valid (n : Int64) : (oneNumberEntry n).valid (oneNumber n) = [n] :=
  (reduceOption_map ..).trans (oneNumber_scanned n)

/-- The number of each party. -/
def numbers : Party → Int64 := atParties 1 5 3

def unmaskedEngine : Engine where
  sh3 := Sh3.unmasked
  bin := Compare.Sh3Bin.unmasked

theorem numbers_prepared :
    Prepared .MAX (fun p => oneNumber (numbers p)) [fun p => oneNumberEntry (numbers p)] where
  dtype row hrow := by
    rw [List.mem_singleton.mp hrow]
    exact Or.inl rfl
  names p := List.nodup_singleton _
  placed row hrow p := by
    rw [List.mem_singleton.mp hrow]
    exact oneNumber_placed (numbers p)
  first_column p row hrow _ other hother := by
    rw [List.mem_singleton.mp hother]
    rfl
  valid row hrow := by
    rw [List.mem_singleton.mp hrow]
    simp [pooled, oneNumber_valid]
  fits row hrow := by
    rw [List.mem_singleton.mp hrow]
    have hpool : ∀ p, numbers p ∈ [numbers 0, numbers 1, numbers 2] := by decide
    have hmax : ∀ p, (totals [numbers p]).max = numbers p := by decide
    have hrange : ∀ p, 1 ≤ (numbers p).toInt ∧ (numbers p).toInt ≤ 5 := by decide
    simp only [oneNumber_scanned]
    constructor
    · intro p x hx
      rw [List.mem_singleton.mp hx]
      refine ⟨numbers p, ?_, le_refl _⟩
      rw [pooled, oneNumber_valid, oneNumber_valid, oneNumber_valid]
      exact hpool p
    · intro p q
      have hp := hrange p
      have hq := hrange q
      simp only [hmax]
      omega

end Run

end Fediux.Algorithm.MissingProcess
