import Fediux.Util.StrSplit
import Fediux.Basic.Fallible

set_option autoImplicit false

/-! # Saving the rows of a PSI result

`PsiCommonUtil::SaveDataToCSVFile` of `kernel/psi/util.cc`: a result with several columns comes as
joined rows, which are split again. The model gives the columns that are handed to the CSV driver.
-/

namespace Fediux.Psi

open Fediux.Util

/-- The exception for a row with another number of columns. -/
def columnsError (expected get : ℕ) : String :=
  "number of data columns does not match, expected: " ++ toString expected ++ ", but get: " ++
    toString get

/-- The rows of a result, split one after the other. -/
def splitRows (columns : ℕ) : List Str → Except String (List (List Str))
  | [] => .ok []
  | item :: data =>
      let vec := str_split DATA_RECORD_SEP item
      if vec.length ≠ columns then .error (columnsError columns vec.length)
      else do
        let result_data ← splitRows columns data
        return vec :: result_data

/-- The values of the rows, column by column. -/
def columnsOf (col_names : List Str) (rows : List (List Str)) : List (Str × List Str) :=
  col_names.zipIdx.map fun p => (p.1, rows.map fun vec => vec.getD p.2 [])

/-- `SaveDataToCSVFile` up to the call of the CSV driver. -/
def SaveDataToCSVFile (data : List Str) (col_names : List Str) :
    Except String (List (Str × List Str)) :=
  if col_names.length = 1 then .ok (col_names.map fun name => (name, data))
  else do
    let result_data ← splitRows col_names.length data
    return columnsOf col_names result_data

theorem splitRows_eq_ok {columns : ℕ} {data : List Str} {rows : List (List Str)} :
    splitRows columns data = .ok rows ↔
      rows = data.map (str_split DATA_RECORD_SEP) ∧ ∀ vec ∈ rows, vec.length = columns := by
  induction data generalizing rows with
  | nil =>
      rw [splitRows, Except.ok.injEq, List.map_nil]
      constructor
      · rintro rfl
        exact ⟨rfl, fun vec hvec => absurd hvec List.not_mem_nil⟩
      · rintro ⟨rfl, _⟩
        rfl
  | cons item data ih =>
      rw [splitRows]
      by_cases hlen : (str_split DATA_RECORD_SEP item).length = columns
      · rw [if_neg (not_not.mpr hlen), Fallible.bind_eq_ok]
        constructor
        · rintro ⟨rest, hrest, heq⟩
          obtain ⟨hmap, hall⟩ := ih.mp hrest
          injection heq with heq
          subst heq
          exact ⟨by rw [hmap, List.map_cons], List.forall_mem_cons.mpr ⟨hlen, hall⟩⟩
        · rintro ⟨hmap, hall⟩
          subst hmap
          exact ⟨_, ih.mpr ⟨rfl, fun vec hvec => hall vec (List.mem_cons_of_mem _ hvec)⟩, rfl⟩
      · rw [if_pos hlen]
        constructor
        · intro h
          cases h
        · rintro ⟨rfl, hall⟩
          exact absurd (hall _ List.mem_cons_self) hlen

/-- The columns of rows of the right length determine the rows. -/
theorem columnsOf_inj {col_names : List Str} {rows rows' : List (List Str)}
    (hlen : ∀ vec ∈ rows, vec.length = col_names.length)
    (hlen' : ∀ vec ∈ rows', vec.length = col_names.length) (hne : col_names ≠ [])
    (h : columnsOf col_names rows = columnsOf col_names rows') : rows = rows' := by
  have hcol : ∀ j < col_names.length,
      rows.map (fun vec => vec.getD j []) = rows'.map fun vec => vec.getD j [] := by
    intro j hj
    have hget := congrArg (fun columns => (columns[j]?).map Prod.snd) h
    simpa [columnsOf, List.getElem?_zipIdx, List.getElem?_eq_getElem hj] using hget
  have hcount : rows.length = rows'.length := by
    have h0 := congrArg List.length (hcol 0 (List.length_pos_iff.mpr hne))
    rwa [List.length_map, List.length_map] at h0
  refine List.ext_getElem hcount fun i hi hi' => ?_
  have hrow := hlen rows[i] (List.getElem_mem hi)
  have hrow' := hlen' rows'[i] (List.getElem_mem hi')
  refine List.ext_getElem (hrow.trans hrow'.symm) fun j hj hj' => ?_
  have hget := congrArg (fun values => values[i]?) (hcol j (by omega))
  simpa [List.getElem?_eq_getElem hi, List.getElem?_eq_getElem hi', hj, hj'] using hget

theorem map_eq_self_iff {α : Type} {f : α → α} {l : List α} : l.map f = l ↔ ∀ a ∈ l, f a = a := by
  conv_lhs => rhs; rw [← List.map_id l]
  exact List.map_inj_left

/-- When the joined rows of a table are saved as the table. -/
theorem saveDataToCSVFile_joinRow {col_names : List Str} {rows : List (List Str)}
    (hne : col_names ≠ []) (hlen : ∀ row ∈ rows, row.length = col_names.length)
    (hno : ∀ row ∈ rows, ∀ v ∈ row, ¬ DATA_RECORD_SEP.1 <:+: v) :
    SaveDataToCSVFile (rows.map joinRow) col_names = .ok (columnsOf col_names rows) ↔
      col_names.length = 1 ∨ ∀ row ∈ rows, SplitsBack row := by
  unfold SaveDataToCSVFile
  by_cases hone : col_names.length = 1
  · obtain ⟨name, rfl⟩ := List.length_eq_one_iff.mp hone
    rw [if_pos hone]
    refine iff_of_true ?_ (Or.inl hone)
    have hvalues : rows.map joinRow = rows.map fun vec => vec.getD 0 [] := by
      apply List.map_congr_left
      intro row hrow
      obtain ⟨v, rfl⟩ := List.length_eq_one_iff.mp (hlen row hrow)
      rfl
    rw [hvalues]
    rfl
  · have hback : ∀ row ∈ rows,
        (str_split DATA_RECORD_SEP (joinRow row) = row ↔ SplitsBack row) := by
      intro row hrow
      refine str_split_joinRow_iff (fun h => hne ?_) (hno row hrow)
      rw [← List.length_eq_zero_iff, ← hlen row hrow, h]
      rfl
    rw [if_neg hone, Fallible.bind_eq_ok, or_iff_right hone]
    constructor
    · rintro ⟨rows', hsplit, heq⟩
      obtain ⟨hmap, hlen'⟩ := splitRows_eq_ok.mp hsplit
      injection heq with heq
      obtain rfl := columnsOf_inj hlen' hlen hne heq
      rw [List.map_map] at hmap
      intro row hrow
      exact (hback row hrow).mp (map_eq_self_iff.mp hmap.symm row hrow)
    · intro hall
      refine ⟨rows, splitRows_eq_ok.mpr ⟨?_, hlen⟩, rfl⟩
      rw [List.map_map]
      exact (map_eq_self_iff.mpr fun row hrow => (hback row hrow).mpr (hall row hrow)).symm

/-- **Splitting gives a row of joined values back exactly when its last value is not empty and no
other value ends with the character of the separator, and a result of several columns is saved as
it was joined exactly when this holds for all of its rows.** -/
theorem splits_back_iff (col_names : List Str) (rows : List (List Str)) (hne : col_names ≠ [])
    (hlen : ∀ row ∈ rows, row.length = col_names.length)
    (hno : ∀ row ∈ rows, ∀ v ∈ row, ¬ DATA_RECORD_SEP.1 <:+: v) :
    (∀ row ∈ rows, (str_split DATA_RECORD_SEP (joinRow row) = row ↔ SplitsBack row)) ∧
      (SaveDataToCSVFile (rows.map joinRow) col_names = .ok (columnsOf col_names rows) ↔
        col_names.length = 1 ∨ ∀ row ∈ rows, SplitsBack row) := by
  refine ⟨fun row hrow => str_split_joinRow_iff ?_ (hno row hrow),
    saveDataToCSVFile_joinRow hne hlen hno⟩
  rintro rfl
  exact hne (List.length_eq_zero_iff.mp (hlen [] hrow).symm)

/-- A row with values that are empty or start with the character of the separator. -/
theorem splits_back_iff_row :
    str_split DATA_RECORD_SEP (joinRow [[], ['#', 'a'], ['b', '#']]) =
        [[], ['#', 'a'], ['b', '#']] ∧
      SaveDataToCSVFile ([[[], ['#', 'a'], ['b', '#']]].map joinRow) [['x'], ['y'], ['z']] =
        .ok (columnsOf [['x'], ['y'], ['z']] [[[], ['#', 'a'], ['b', '#']]]) := by
  obtain ⟨hsplit, hsave⟩ := splits_back_iff [['x'], ['y'], ['z']] [[[], ['#', 'a'], ['b', '#']]]
    (by decide) (by decide) (by decide)
  exact ⟨(hsplit _ List.mem_cons_self).mpr (by decide), hsave.mpr (Or.inr (by decide))⟩

/-- Neither an empty last value nor a value that ends with `#` comes back. -/
theorem not_splits_back :
    (∀ v ∈ [['a'], []], ¬ DATA_RECORD_SEP.1 <:+: v) ∧
      str_split DATA_RECORD_SEP (joinRow [['a'], []]) ≠ [['a'], []] ∧
      (∀ v ∈ [['a', '#'], ['b']], ¬ DATA_RECORD_SEP.1 <:+: v) ∧
      SaveDataToCSVFile ([[['a', '#'], ['b']]].map joinRow) [['x'], ['y']] ≠
        .ok (columnsOf [['x'], ['y']] [[['a', '#'], ['b']]]) := by
  refine ⟨by decide, fun h => ?_, by decide, fun h => ?_⟩
  · exact absurd ((str_split_joinRow_iff (by decide) (by decide)).mp h) (by decide)
  · have := (saveDataToCSVFile_joinRow (by decide) (by decide) (by decide)).mp h
    revert this
    decide

end Fediux.Psi
