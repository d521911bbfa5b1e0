import Fediux.Arrow.Table
import Fediux.Basic.Parallel

set_option autoImplicit false

/-! # Loading the rows of a PSI dataset

`PsiCommonUtil::LoadDatasetFromTable` of `kernel/psi/util.cc` with the two functions that extract
the columns. Each column is taken in by threads that run at the same time; they are waited for
before the next column. A run has no defined result when two threads write to one row, when a
thread writes behind the last row, or when an `int32_t` overflows.
-/

namespace Fediux.Psi

open Fediux.Util Fediux.Arrow Parallel

inductive Retcode where
  | SUCCESS
  | FAIL
  deriving DecidableEq

inductive Outcome where
  | crashed
  | undefinedBehaviour
  | returned (ret : Retcode) (col_data col_name : List Str)

/-- What the first column does with a row. -/
def assign (_ value : Str) : Str := value

/-- What every other column does with a row. -/
def appendValue (row value : Str) : Str := row ++ DATA_RECORD_SEP.1 ++ value

/-- The threads of a column, up to the last `fut.get()`. -/
inductive Phase (op : Str → Str → Str) (threads : List (List (ℕ × Str))) (col_data : List Str) :
    Option (List Str) → Prop where
  | raced : ¬ RaceFree threads col_data.length → Phase op threads col_data none
  | joined {writes : List (ℕ × Str)} : RaceFree threads col_data.length →
      Interleaving threads writes →
      Phase op threads col_data (some (writes.foldl (write op) col_data))

/-- The loop over the columns behind the first. -/
inductive RestColumns (fits : Column → Prop) (threads : Column → List (List (ℕ × Str))) :
    List Column → List Str → List Str → Outcome → Prop where
  | done {col_data col_name : List Str} :
      RestColumns fits threads [] col_data col_name (.returned .SUCCESS col_data col_name)
  | mismatch {c : Column} {cols : List Column} {col_data col_name : List Str} : ¬ fits c →
      RestColumns fits threads (c :: cols) col_data col_name
        (.returned .FAIL col_data (col_name ++ [c.name]))
  | raced {c : Column} {cols : List Column} {col_data col_name : List Str} : fits c →
      Phase appendValue (threads c) col_data none →
      RestColumns fits threads (c :: cols) col_data col_name .undefinedBehaviour
  | next {c : Column} {cols : List Column} {col_data col_data' col_name : List Str}
      {o : Outcome} : fits c → Phase appendValue (threads c) col_data (some col_data') →
      RestColumns fits threads cols col_data' (col_name ++ [c.name]) o →
      RestColumns fits threads (c :: cols) col_data col_name o

/-- The first column, then the others. -/
inductive ExtractColumns (fits : Column → Prop) (threads : Column → List (List (ℕ × Str)))
    (c : Column) (cols : List Column) (col_data : List Str) : Outcome → Prop where
  | raced : Phase assign (threads c) col_data none →
      ExtractColumns fits threads c cols col_data .undefinedBehaviour
  | next {col_data' : List Str} {o : Outcome} : Phase assign (threads c) col_data (some col_data') →
      RestColumns fits threads cols col_data' [c.name] o →
      ExtractColumns fits threads c cols col_data o

/-! ## Columns of several chunks -/

/-- `thread_num` before the rest is counted. Where the source has `-1` for `cpu_core_num / 2 - 1`
the model has zero; both become one. -/
def trunkThreadNum (cpu_core_num : Fin (2 ^ 32)) (chunk_size : ℕ) : ℕ :=
  let use_core_num := min ((cpu_core_num : ℕ) / 2 - 1) 10
  let thread_num := max use_core_num 1
  if chunk_size ≤ thread_num then chunk_size else thread_num

/-- `chunk_s` and `chunk_e` of the threads. -/
def trunkRanges (cpu_core_num : Fin (2 ^ 32)) (chunk_size : ℕ) : List (ℕ × ℕ) :=
  let thread_num := trunkThreadNum cpu_core_num chunk_size
  let chunk_per_thread := chunk_size / thread_num
  let thread_num :=
    if chunk_per_thread * thread_num < chunk_size then thread_num + 1 else thread_num
  (List.range thread_num).map fun i =>
    (i * chunk_per_thread,
      if i = thread_num - 1 then chunk_size else (i + 1) * chunk_per_thread)

/-- The elements in front of a chunk; the lengths are those of `trunk_index_map`. -/
def elementsBefore (c : Column) (chunk_s : ℕ) : ℕ := ((c.chunks.take chunk_s).map List.length).sum

/-- The elements of the chunks of a thread. -/
def rangeValues (c : Column) (r : ℕ × ℕ) : List Str := ((c.chunks.take r.2).drop r.1).flatten

/-- Each thread starts where the first column has its first chunk. -/
def trunkBlocks (cpu_core_num : Fin (2 ^ 32)) (first c : Column) : List (ℕ × List Str) :=
  (trunkRanges cpu_core_num first.chunks.length).map fun r =>
    (elementsBefore first r.1, rangeValues c r)

/-- `ExtractDataFromTrunkArray`; without chunks it divides by zero. -/
def ExtractDataFromTrunkArray (cpu_core_num : Fin (2 ^ 32)) (first : Column)
    (cols : List Column) (col_data : List Str) (o : Outcome) : Prop :=
  if first.chunks.length = 0 then o = .crashed
  else
    ExtractColumns (fun c => c.chunks.length = first.chunks.length)
      (fun c => blocks (trunkBlocks cpu_core_num first c)) first cols col_data o

/-! ## Columns of one chunk -/

def arrayThreadNum (cpu_core_num : Fin (2 ^ 32)) (element_number : ℕ) : ℕ :=
  let thread_num := max ((cpu_core_num : ℕ) / 2 - 1) 1
  if element_number < 100000 ∨ element_number ≤ thread_num then 1 else thread_num

/-- `i_start` and `i_end` of the threads, unless their computation overflows. -/
def arrayRanges (cpu_core_num : Fin (2 ^ 32)) (element_number : ℕ) : Option (List (ℕ × ℕ)) :=
  let thread_num := arrayThreadNum cpu_core_num element_number
  let element_per_thread := element_number / thread_num
  let thread_num :=
    if element_per_thread * thread_num < element_number then thread_num + 1 else thread_num
  if thread_num * element_per_thread < 2 ^ 31 then
    some ((List.range thread_num).map fun i =>
      (i * element_per_thread, min ((i + 1) * element_per_thread) element_number))
  else none

def arrayBlocks (ranges : List (ℕ × ℕ)) (c : Column) : List (ℕ × List Str) :=
  ranges.map fun r => (r.1, (c.values.take r.2).drop r.1)

/-- `ExtractDataFromArray`. -/
def ExtractDataFromArray (cpu_core_num : Fin (2 ^ 32)) (first : Column) (cols : List Column)
    (col_data : List Str) (o : Outcome) : Prop :=
  if first.chunks.length ≠ 1 then o = .returned .FAIL col_data []
  else
    match arrayRanges cpu_core_num first.values.length with
    | none => o = .undefinedBehaviour
    | some ranges =>
        ExtractColumns (fun c => c.chunks.length = 1) (fun c => blocks (arrayBlocks ranges c))
          first cols col_data o

/-! ## The table -/

/-- The caller does not look at the status. -/
def Outcome.ignoreStatus : Outcome → Outcome
  | .returned _ col_data col_name => .returned .SUCCESS col_data col_name
  | o => o

/-- `LoadDatasetFromTable`. -/
def LoadDatasetFromTable (cpu_core_num : Fin (2 ^ 32)) (table : Table) (o : Outcome) : Prop :=
  let col_data := List.replicate table.num_rows []
  match table.columns with
  | [] => o = .returned .FAIL col_data []
  | first :: cols =>
      ∃ extracted : Outcome, o = extracted.ignoreStatus ∧
        if first.chunks.length = 1 then
          ExtractDataFromArray cpu_core_num first cols col_data extracted
        else ExtractDataFromTrunkArray cpu_core_num first cols col_data extracted

/-! ## Phases -/

section Phases

variable {op : Str → Str → Str} {threads : List (List (ℕ × Str))} {col_data vs : List Str}
  {result : Option (List Str)}

/-- Threads that write one block have one result. -/
theorem phase_iff_of_flatten (h : threads.flatten = block 0 vs)
    (hlen : vs.length ≤ col_data.length) :
    Phase op threads col_data result ↔
      result = some (List.zipWith op col_data vs ++ col_data.drop vs.length) := by
  have hfree := raceFree_of_flatten h hlen
  constructor
  · intro hphase
    cases hphase with
    | raced hrace => exact absurd hfree hrace
    | joined _ hl => rw [foldl_write_interleaving op h hlen hl]
  · rintro rfl
    rw [← foldl_write_interleaving op h hlen (Interleaving.inOrder threads)]
    exact .joined hfree (Interleaving.inOrder threads)

end Phases

/-! ## Rows that are built up -/

theorem joinRow_concat {row : List Str} (h : row ≠ []) (v : Str) :
    joinRow (row ++ [v]) = appendValue (joinRow row) v := by
  cases row with
  | nil => exact absurd rfl h
  | cons u row =>
      show List.foldl _ u (row ++ [v]) = _
      rw [List.foldl_append]
      rfl

/-- The rows when some columns are taken in, and only their first `m` values. -/
def partialRows (m num_rows : ℕ) (cols : List Column) : List Str :=
  (List.range num_rows).map fun i =>
    if i < m then joinRow (cols.map fun c => c.values.getD i []) else []

section PartialRows

variable {m num_rows : ℕ} {cols : List Column} {c : Column}

theorem length_partialRows : (partialRows m num_rows cols).length = num_rows := by
  rw [partialRows, List.length_map, List.length_range]

theorem getElem_partialRows {i : ℕ} (hi : i < (partialRows m num_rows cols).length) :
    (partialRows m num_rows cols)[i] =
      if i < m then joinRow (cols.map fun c => c.values.getD i []) else [] := by
  simp only [partialRows, List.getElem_map, List.getElem_range]

/-- The values of one more column are taken in by `op`. -/
theorem zipWith_partialRows (op : Str → Str → Str) (cols : List Column) (data : List Str)
    (hm : m ≤ num_rows) (hc : c.values.length = num_rows) (hlen : data.length = num_rows)
    (hrest : ∀ i (hi : i < data.length), m ≤ i → data[i] = [])
    (hop : ∀ i (hi : i < data.length), i < m → op data[i] (c.values.getD i []) =
      joinRow ((cols ++ [c]).map fun c => c.values.getD i [])) :
    List.zipWith op data (c.values.take m) ++ data.drop (c.values.take m).length =
      partialRows m num_rows (cols ++ [c]) := by
  have htake : (c.values.take m).length = m := by
    rw [List.length_take, hc, min_eq_left hm]
  refine List.ext_getElem ?_ fun i hi hi' => ?_
  · rw [List.length_append, List.length_zipWith, List.length_drop, length_partialRows, htake]
    omega
  · have hin : i < data.length := by
      rw [length_partialRows] at hi'
      omega
    rw [getElem_partialRows]
    by_cases him : i < m
    · rw [if_pos him, ← hop i hin him, List.getElem_append_left (by
        rw [List.length_zipWith, htake]
        omega), List.getElem_zipWith, List.getElem_take,
        List.getD_eq_getElem _ _ (by omega)]
    · rw [if_neg him, List.getElem_append_right (by
        rw [List.length_zipWith, htake]
        omega), List.getElem_drop, hrest]
      rw [List.length_zipWith, htake]
      omega

end PartialRows

end Fediux.Psi
