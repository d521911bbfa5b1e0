import Fediux.Arrow.MakeArray
import Fediux.Basic.Fallible
import Fediux.Basic.Missing

set_option autoImplicit false

/-! # The cursor of a MySQL table

The query of a cursor fetches the selected columns. `fetchData` makes the i-th array with the type
of the i-th field of a schema: `read` gives it the fields of the selected columns, `readMeta` the
schema of the whole table (`data_store/mysql/mysql_driver.cc`). `right_iff` says for which
selections both tables are right.
-/

namespace Fediux.Store.Mysql

open Util (Str)
open Arrow (DataType ArrowArray MakeArrowArray builderType)

structure Field where
  name : Str
  type : DataType
  deriving DecidableEq

/-- A row of the table: the text of each column, where `NULL` is `none`. -/
abbrev Row : Type := ℕ → Option Str

/-- The schema of the dataset and the selected columns. -/
structure Cursor where
  ArrowSchema : List Field
  SelectedColumnIndex : List ℤ

structure Table where
  schema : List Field
  columns : List ArrowArray
  deriving DecidableEq

/-- What `RaiseException` reports. -/
inductive Fault where
  | indexOutOfRange (current : ℤ) (total : ℕ)
  | queryFailed
  deriving DecidableEq

/-! ## Reading -/

/-- The text of a cell: `NA` for one without content. -/
def item (cell : Option Str) : Str :=
  match cell with
  | some (c :: s) => c :: s
  | _ => ['N', 'A']

/-- The texts that are fetched from a column. -/
def fetched (rows : List Row) (index : ℤ) : List Str :=
  rows.map fun row => item (row index.toNat)

/-- The arrays from the output column `i` on. -/
def buildArrays (rows : List Row) (table_schema : List Field) :
    ℕ → List ℤ → Except Fault (List ArrowArray)
  | _, [] => .ok []
  | i, index :: selected =>
      match table_schema[i]? with
      | none => .error (.indexOutOfRange i table_schema.length)
      | some f =>
          (buildArrays rows table_schema (i + 1) selected).map
            (MakeArrowArray f.type.id (fetched rows index) :: ·)

namespace Cursor

variable (c : Cursor)

/-- The field of a selected column, if the index is in the range. -/
def column (index : ℤ) : Option Field :=
  if 0 ≤ index then c.ArrowSchema[index.toNat]? else none

def makeArrowSchema : Except Fault (List Field) :=
  c.SelectedColumnIndex.mapM fun index =>
    match c.column index with
    | some f => .ok f
    | none => .error (.indexOutOfRange index c.ArrowSchema.length)

/-- The query fails when it selects no column. -/
def fetchData (rows : List Row) (table_schema : List Field) : Except Fault (List ArrowArray) :=
  if c.SelectedColumnIndex.isEmpty then .error .queryFailed
  else buildArrays rows table_schema 0 c.SelectedColumnIndex

/-- The query has the limit of ten rows. -/
def readMeta (rows : List Row) : Except Fault Table := do
  let schema ← c.makeArrowSchema
  let array_data ← c.fetchData (rows.take 10) c.ArrowSchema
  return ⟨schema, array_data⟩

def read (rows : List Row) : Except Fault Table := do
  let schema ← c.makeArrowSchema
  let array_data ← c.fetchData rows schema
  return ⟨schema, array_data⟩

end Cursor

/-! ## The tables that should be read -/

/-- Each selected column with its own field, type and texts. -/
def arraysOf (rows : List Row) (selected : List ℤ) (fields : List Field) : List ArrowArray :=
  selected.zipWith (fun index f => MakeArrowArray f.type.id (fetched rows index)) fields

def Selects (c : Cursor) (rows : List Row) (t : Table) : Prop :=
  c.SelectedColumnIndex.mapM c.column = some t.schema ∧
    t.columns = arraysOf rows c.SelectedColumnIndex t.schema

/-- Both tables are those of the selected columns, and they are the same for at most ten rows. -/
structure Right (c : Cursor) (rows : List Row) : Prop where
  read : ∀ t, c.read rows = .ok t → Selects c rows t
  readMeta : ∀ t, c.readMeta rows = .ok t → Selects c (rows.take 10) t
  same : rows.length ≤ 10 → c.readMeta rows = c.read rows

/-- At each position, the table has a column with the builder of the selected one. -/
def Aligned (c : Cursor) : Prop :=
  ∀ fields, c.SelectedColumnIndex.mapM c.column = some fields →
    ∀ (i : ℕ) f, fields[i]? = some f →
      ∃ g, c.ArrowSchema[i]? = some g ∧ builderType g.type.id = builderType f.type.id

/-! ## What is read -/

theorem MakeArrowArray_eq_iff {g f : Field} {texts : List Str} :
    MakeArrowArray g.type.id texts = MakeArrowArray f.type.id texts ↔
      builderType g.type.id = builderType f.type.id := by
  constructor
  · intro h
    rw [← Arrow.MakeArrowArray_type _ texts, h, Arrow.MakeArrowArray_type]
  · intro h
    exact Arrow.MakeArrowArray_congr h texts

/-- When the arrays are those of the fields. -/
theorem buildArrays_eq_ok_iff (rows : List Row) {table_schema : List Field} {selected : List ℤ}
    {fields : List Field} {i : ℕ} (hlen : fields.length = selected.length) :
    buildArrays rows table_schema i selected = .ok (arraysOf rows selected fields) ↔
      ∀ (k : ℕ) f, fields[k]? = some f →
        ∃ g, table_schema[i + k]? = some g ∧ builderType g.type.id = builderType f.type.id := by
  induction selected generalizing fields i with
  | nil =>
      rw [List.length_eq_zero_iff.mp hlen]
      exact iff_of_true rfl fun k f h => (by cases h)
  | cons index selected ih =>
      cases fields with
      | nil => cases hlen
      | cons f fields =>
          have hrest := ih (i := i + 1) (Nat.succ.inj hlen)
          have hshift : ∀ k, i + 1 + k = i + (k + 1) := fun k => by omega
          have hall : (∀ (k : ℕ) f', (f :: fields)[k]? = some f' →
              ∃ g, table_schema[i + k]? = some g ∧
                builderType g.type.id = builderType f'.type.id) ↔
              (∃ g, table_schema[i]? = some g ∧ builderType g.type.id = builderType f.type.id) ∧
                buildArrays rows table_schema (i + 1) selected =
                  .ok (arraysOf rows selected fields) := by
            rw [hrest]
            simp only [hshift]
            constructor
            · intro h
              exact ⟨h 0 f rfl, fun k => h (k + 1)⟩
            · rintro ⟨hfirst, hlater⟩ k f' hk
              cases k with
              | zero =>
                  rw [List.getElem?_cons_zero, Option.some.injEq] at hk
                  exact hk ▸ hfirst
              | succ k => exact hlater k f' hk
          rw [hall, buildArrays]
          cases hg : table_schema[i]? with
          | none => simp
          | some g =>
              show (buildArrays rows table_schema (i + 1) selected).map _ =
                .ok (MakeArrowArray f.type.id (fetched rows index) ::
                  arraysOf rows selected fields) ↔ _
              cases hb : buildArrays rows table_schema (i + 1) selected with
              | error e => simp [Except.map]
              | ok arrays => simp [Except.map, MakeArrowArray_eq_iff]

section

variable {c : Cursor} {rows : List Row} {fields : List Field}

theorem toOption_makeArrowSchema (c : Cursor) :
    c.makeArrowSchema.toOption = c.SelectedColumnIndex.mapM c.column := by
  rw [Cursor.makeArrowSchema, Fallible.toOption_mapM]
  congr 1
  funext index
  cases c.column index <;> rfl

/-- The schema, if every index is in the range. -/
theorem makeArrowSchema_of_some (h : c.SelectedColumnIndex.mapM c.column = some fields) :
    c.makeArrowSchema = .ok fields :=
  Fallible.toOption_eq_some_iff.mp ((toOption_makeArrowSchema c).trans h)

theorem makeArrowSchema_of_none (h : c.SelectedColumnIndex.mapM c.column = none) :
    ∃ e, c.makeArrowSchema = .error e :=
  Fallible.toOption_eq_none_iff.mp ((toOption_makeArrowSchema c).trans h)

theorem read_of_some (h : c.SelectedColumnIndex.mapM c.column = some fields) :
    c.read rows =
      if c.SelectedColumnIndex.isEmpty then .error .queryFailed
      else .ok ⟨fields, arraysOf rows c.SelectedColumnIndex fields⟩ := by
  have hbuild : buildArrays rows fields 0 c.SelectedColumnIndex =
      .ok (arraysOf rows c.SelectedColumnIndex fields) :=
    (buildArrays_eq_ok_iff rows (Missing.length_of_mapM h)).mpr fun k f hf =>
      ⟨f, by rw [Nat.zero_add, hf], rfl⟩
  rw [Cursor.read, makeArrowSchema_of_some h]
  show (c.fetchData rows fields).bind _ = _
  rw [Cursor.fetchData, hbuild]
  cases c.SelectedColumnIndex.isEmpty <;> rfl

theorem readMeta_of_some (h : c.SelectedColumnIndex.mapM c.column = some fields) :
    c.readMeta rows =
      if c.SelectedColumnIndex.isEmpty then .error .queryFailed
      else
        (buildArrays (rows.take 10) c.ArrowSchema 0 c.SelectedColumnIndex).map (Table.mk fields) := by
  rw [Cursor.readMeta, makeArrowSchema_of_some h]
  show (c.fetchData (rows.take 10) c.ArrowSchema).bind _ = _
  rw [Cursor.fetchData]
  cases c.SelectedColumnIndex.isEmpty with
  | true => rfl
  | false =>
      cases buildArrays (rows.take 10) c.ArrowSchema 0 c.SelectedColumnIndex with
      | error e => rfl
      | ok arrays => rfl

/-- The selection is aligned exactly when the schema of the table gives the arrays of the selected
columns, for any rows. -/
theorem aligned_iff (h : c.SelectedColumnIndex.mapM c.column = some fields) (rows : List Row) :
    Aligned c ↔ buildArrays rows c.ArrowSchema 0 c.SelectedColumnIndex =
      .ok (arraysOf rows c.SelectedColumnIndex fields) := by
  rw [buildArrays_eq_ok_iff rows (Missing.length_of_mapM h)]
  simp [Aligned, h]

/-- Where no table is made, nothing is wrong. -/
theorem right_of_error {e : Fault} (hread : c.read rows = .error e)
    (hmeta : c.readMeta rows = .error e) : Right c rows where
  read t ht := by
    rw [hread] at ht
    cases ht
  readMeta t ht := by
    rw [hmeta] at ht
    cases ht
  same _ := by rw [hread, hmeta]

/-- An empty selection is rejected, and aligned. -/
theorem right_iff_of_isEmpty (h : c.SelectedColumnIndex.mapM c.column = some fields)
    (hempty : c.SelectedColumnIndex.isEmpty = true) : (∀ rows, Right c rows) ↔ Aligned c := by
  apply iff_of_true
  · intro rows
    apply right_of_error (e := .queryFailed)
    · rw [read_of_some h, hempty]
      rfl
    · rw [readMeta_of_some h, hempty]
      rfl
  · intro fields' hfields'
    have hlen := Missing.length_of_mapM hfields'
    rw [List.isEmpty_iff.mp hempty] at hlen
    rw [List.length_eq_zero_iff.mp hlen]
    exact fun i f hf => (by cases hf)

/-- Of an aligned selection both tables are made, with the arrays of the selected columns. -/
theorem right_of_aligned (h : c.SelectedColumnIndex.mapM c.column = some fields)
    (hempty : c.SelectedColumnIndex.isEmpty = false) (haligned : Aligned c) (rows : List Row) :
    Right c rows := by
  have hread : c.read rows = .ok ⟨fields, arraysOf rows c.SelectedColumnIndex fields⟩ := by
    rw [read_of_some h, hempty]
    rfl
  have hmeta : c.readMeta rows =
      .ok ⟨fields, arraysOf (rows.take 10) c.SelectedColumnIndex fields⟩ := by
    rw [readMeta_of_some h, hempty, (aligned_iff h _).mp haligned]
    rfl
  refine ⟨?_, ?_, ?_⟩
  · intro t ht
    rw [hread] at ht
    cases ht
    exact ⟨h, rfl⟩
  · intro t ht
    rw [hmeta] at ht
    cases ht
    exact ⟨h, rfl⟩
  · intro hten
    rw [hread, hmeta, List.take_of_length_le hten]

/-- A table without rows is enough to see that a selection is not aligned. -/
theorem aligned_of_same (h : c.SelectedColumnIndex.mapM c.column = some fields)
    (hempty : c.SelectedColumnIndex.isEmpty = false) (hsame : c.readMeta [] = c.read []) :
    Aligned c := by
  rw [read_of_some h, readMeta_of_some h, hempty] at hsame
  obtain ⟨arrays, hbuild, htable⟩ := (Fallible.map_eq_ok (f := Table.mk fields)).mp hsame
  rw [Table.mk.injEq] at htable
  rw [aligned_iff h [], ← htable.2]
  exact hbuild

end

/-- **When both tables are right**: at each position the table has a column with the builder of the
selected one. -/
theorem right_iff (c : Cursor) : (∀ rows, Right c rows) ↔ Aligned c := by
  cases hfields : c.SelectedColumnIndex.mapM c.column with
  | none =>
      -- no table is made
      obtain ⟨e, he⟩ := makeArrowSchema_of_none hfields
      apply iff_of_true
      · intro rows
        apply right_of_error (e := e)
        · rw [Cursor.read, he]
          rfl
        · rw [Cursor.readMeta, he]
          rfl
      · intro fields hf
        rw [hfields] at hf
        cases hf
  | some fields =>
      cases hempty : c.SelectedColumnIndex.isEmpty with
      | true => exact right_iff_of_isEmpty hfields hempty
      | false =>
          constructor
          · intro h
            exact aligned_of_same hfields hempty ((h []).same (Nat.zero_le _))
          · intro haligned
            exact right_of_aligned hfields hempty haligned

/-- The second of two columns is selected. -/
def secondColumn : Cursor where
  ArrowSchema := [⟨['i', 'd'], .int64⟩, ⟨['n', 'a', 'm', 'e'], .utf8⟩]
  SelectedColumnIndex := [1]

/-- The array of the texts is made with the type of the first column. -/
theorem not_right_secondColumn : ¬ ∀ c rows, Right c rows := by
  intro h
  have hsame := (h secondColumn []).same (Nat.zero_le _)
  revert hsame
  decide

end Fediux.Store.Mysql
