import Fediux.Align.CsvRows
import Fediux.Basic.Chunks

set_option autoImplicit false

/-! # Querying the rows of a PSI result from MySQL

`generate_new_datast_from_mysql` of `plain_data_util/data_align.py` cuts the list of ids into
batches, queries them in rounds of several threads, and writes the rows of each round sorted by
their last column.
-/

namespace Fediux.Align

open Util (Str)

/-! ## The server -/

/-- The table of a party: the id in a row, its last column `v[-1]`, whose values can be compared,
and the rows that the server gives for a list of ids. -/
structure Database (Row V : Type) where
  id : Row → Str
  last : Row → V
  select : List Str → List Row

/-- Which connections and which queries succeed, by round, thread and number in the thread. -/
structure Server where
  connect : ℕ → ℕ → Bool
  execute : ℕ → ℕ → ℕ → Bool

/-- What a run has done: the positions of the list that were queried, whether a query failed, and
the rows behind the header of the new file. -/
structure QueryState (Row : Type) where
  queried : List ℕ
  failed : Bool
  written : List Row
  deriving DecidableEq, Repr

/-- The file stays after an exception and for a dataset that is registered. -/
inductive Ending where
  | registered
  | removed
  | raised (e : PyError)
  deriving DecidableEq, Repr

/-! ## The functions -/

section

variable {Row V : Type} [LinearOrder V] (intersect_ids : List Str) (db : Database Row V)
  (server : Server)

/-- `intersect_ids[start:stop]` -/
def slice (start stop : ℕ) : List Str := (intersect_ids.drop start).take (stop - start)

/-- The ranges of the queries of a thread. -/
def subRanges (start_index end_index : ℕ) : List (ℕ × ℕ) :=
  let num_iter := (end_index - start_index) / 1000
  let reminder := (end_index - start_index) % 1000
  ((List.range num_iter).map fun i =>
      (start_index + 1000 * i, start_index + 1000 * i + 1000)) ++
    if reminder ≠ 0 then
      [(start_index + num_iter * 1000, start_index + num_iter * 1000 + reminder)]
    else []

/-- The queries of a thread, up to one that fails. The tuple of one id is written with a comma at
its end, which is no SQL. -/
def executeAll (round thread : ℕ) : ℕ → List (ℕ × ℕ) → List ℕ × Option (List Row)
  | _, [] => ([], some [])
  | i, (start, stop) :: ranges =>
      let query_ids := slice intersect_ids start stop
      let positions := List.range' start (stop - start)
      if query_ids.length = 1 ∨ server.execute round thread i = false then (positions, none)
      else
        let (queried, result_list) := executeAll round thread (i + 1) ranges
        (positions ++ queried, result_list.map (db.select query_ids ++ ·))

def mysql_thread_query (round thread start_index end_index : ℕ) : List ℕ × Option (List Row) :=
  if server.connect round thread = false then ([], none)
  else executeAll intersect_ids db server round thread 0 (subRanges start_index end_index)

/-- `result_list.sort(key=lambda v: v[-1])` -/
def sortRows (result_list : List Row) : List Row :=
  result_list.mergeSort fun v w => decide (db.last v ≤ db.last w)

def mysql_run_query_multithread (curr_iter batch_size num_thread : ℕ) :
    List ℕ × Option (List Row) :=
  let index_base := curr_iter * batch_size * num_thread
  let query_futs := (List.range num_thread).map fun j =>
    mysql_thread_query intersect_ids db server curr_iter j (index_base + batch_size * j)
      (index_base + batch_size * j + batch_size)
  (query_futs.flatMap Prod.fst,
    if ∃ fut ∈ query_futs, fut.2.isNone then none
    else some (sortRows db (query_futs.flatMap fun fut => fut.2.getD [])))

/-- A call of one of the two functions, noted in the state. -/
def QueryState.note (s : QueryState Row) (result : List ℕ × Option (List Row)) : QueryState Row where
  queried := s.queried ++ result.1
  failed := s.failed || result.2.isNone
  written := s.written ++ result.2.getD []

/-- The full rounds, with `thread_error`. -/
def fullRounds (batch_size query_thread_num : ℕ) :
    List ℕ → QueryState Row → QueryState Row × Bool
  | [], s => (s, false)
  | i :: is, s =>
      let result := mysql_run_query_multithread intersect_ids db server i batch_size query_thread_num
      if result.2.isNone then (s.note result, true)
      else fullRounds batch_size query_thread_num is (s.note result)

def batch_size (num_intersect : ℕ) : ℕ :=
  if num_intersect < 10000 then 1000 else if num_intersect < 100000 then 10000 else 100000

def rowsError (expected get : ℕ) : String :=
  "Expect query " ++ toString expected ++ " rows from mysql but mysql return " ++ toString get ++
    " rows, this should be a bug."

/-- The end of the function, where `num_rows` rows are written. -/
def finish (s : QueryState Row) : QueryState Row × Ending :=
  if s.written.length ≠ intersect_ids.length then
    (s, .raised (.RuntimeError (rowsError intersect_ids.length s.written.length)))
  else (s, .registered)

/-- The final remainder. If it fails, `thread_errors` is set, which nobody reads. -/
def finalQuery (num_batch num_iter batch_size reminder : ℕ) (s : QueryState Row) :
    QueryState Row :=
  let result := mysql_thread_query intersect_ids db server (num_iter + 1) 0
    (num_batch * batch_size) (num_batch * batch_size + reminder)
  s.note (result.1, result.2.map (sortRows db))

/-- The thread pool refuses to have no thread. If the round of the remaining threads fails, its
result is `None`, which has no length. -/
def generate_new_datast_from_mysql (query_thread_num : ℕ) : QueryState Row × Ending :=
  let num_intersect := intersect_ids.length
  let batch_size := batch_size num_intersect
  let num_batch := num_intersect / batch_size
  let reminder := num_intersect % batch_size
  let num_iter := num_batch / query_thread_num
  let remain_thread := num_batch % query_thread_num
  if num_intersect = 0 then
    (⟨[], false, []⟩, .raised (.Exception "PSI result is empty, no intersection is found"))
  else if query_thread_num = 0 then (⟨[], false, []⟩, .raised .ValueError)
  else
    let (s, thread_error) := fullRounds intersect_ids db server batch_size query_thread_num
      (List.range num_iter) ⟨[], false, []⟩
    if thread_error then (s, .removed)
    else
      let result :=
        mysql_run_query_multithread intersect_ids db server num_iter batch_size remain_thread
      if remain_thread ≠ 0 ∧ result.2.isNone then (s.note result, .raised .TypeError)
      else
        let s := if remain_thread ≠ 0 then s.note result else s
        let s := if reminder ≠ 0 then
            finalQuery intersect_ids db server num_batch num_iter batch_size reminder s
          else s
        finish intersect_ids s

end

end Fediux.Align
