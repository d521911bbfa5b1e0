import Fediux.Util.StrSplit

set_option autoImplicit false

/-! # Tables of strings

What the readers of the tasks see of an `arrow::Table` whose fields are strings: columns that
are cut into chunks, each column in its own way.
-/

namespace Fediux.Arrow

open Fediux.Util

/-- A chunk is a `StringArray`, whose offsets have 32 bits. -/
structure Column where
  name : Str
  chunks : List (List Str)
  short : ∀ chunk ∈ chunks, chunk.length < 2 ^ 31

def Column.values (c : Column) : List Str := c.chunks.flatten

/-- All columns have `num_rows` values. -/
structure Table where
  num_rows : ℕ
  columns : List Column
  length_values : ∀ c ∈ columns, c.values.length = num_rows

namespace Table

def row (tbl : Table) (i : ℕ) : List Str := tbl.columns.map fun c => c.values.getD i []

def rows (tbl : Table) : List (List Str) := (List.range tbl.num_rows).map tbl.row

variable (tbl : Table)

theorem length_rows : tbl.rows.length = tbl.num_rows := by
  rw [rows, List.length_map, List.length_range]

theorem length_row (i : ℕ) : (tbl.row i).length = tbl.columns.length := List.length_map _

theorem length_of_mem_rows {row : List Str} (h : row ∈ tbl.rows) :
    row.length = tbl.columns.length := by
  obtain ⟨i, _, rfl⟩ := List.mem_map.mp h
  exact tbl.length_row i

/-- A column is read off the rows. -/
theorem map_getD_rows {j : ℕ} (hj : j < tbl.columns.length) :
    tbl.rows.map (fun row => row.getD j []) = tbl.columns[j].values := by
  have hlen := tbl.length_values tbl.columns[j] (List.getElem_mem hj)
  refine List.ext_getElem ?_ fun i hi hi' => ?_
  · rw [List.length_map, length_rows, hlen]
  · simp [rows, row, hj, List.getElem?_eq_getElem hi']

end Table

end Fediux.Arrow
