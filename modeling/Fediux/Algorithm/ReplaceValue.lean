import Fediux.Basic.Fallible
import Fediux.Basic.FloatText
import Fediux.Util.StrSplit

set_option autoImplicit false

/-! # Replacing missing and abnormal values

`replaceValue` of the missing-value task puts a new column into the table, made of one chunk. From
a CSV file the old column holds texts, and the abnormal ones are named chunk by chunk; from a
database it holds numbers, and both the nulls and the abnormal cells are named by their position
in the whole column (`algorithm/missing_val_processing.cc`). The replacement goes through its
decimal text. `replaceValue_exact_iff` says when the new column is the right one.
-/

namespace Fediux.Algorithm.MissingProcess

open Util (Str)
open Strto (StoError readInt)
open FloatText (Double)

/-! ## The two types of a column -/

inductive Fault where
  /-- Behaviour that C++ does not define. -/
  | undefined
  | conversion (e : StoError)
  /-- `SetColumn` fails. -/
  | runtime_error
  deriving DecidableEq

def stoll (str : Str) : Except StoError (Int64 × Str) :=
  match readInt str with
  | none => .error .invalid_argument
  | some (n, rest) =>
      if -2 ^ 63 ≤ n ∧ n < 2 ^ 63 then .ok (Int64.ofInt n, rest) else .error .out_of_range

/-- A cell of an array of numbers: what is stored in it, and whether it is null. -/
structure Slot (T : Type) where
  value : T
  isNull : Bool

/-- A column of the table, in its chunks. -/
inductive Column where
  | string (chunks : List (List (Option Str)))
  | int64 (chunks : List (List (Slot Int64)))
  | float64 (chunks : List (List (Slot Double)))

def Column.length : Column → ℕ
  | .string chunks => chunks.flatten.length
  | .int64 chunks => chunks.flatten.length
  | .float64 chunks => chunks.flatten.length

/-- What the code needs of the type of the values: `std::to_string`, `std::stoll` or `std::stod`,
and the columns of the type. -/
structure Scalar (T : Type) where
  to_string : T → Str
  sto : Str → Except StoError (T × Str)
  toColumn : List (List (Slot T)) → Column
  ofColumn : Column → Option (List (List (Slot T)))
  ofColumn_toColumn : ∀ chunks, ofColumn (toColumn chunks) = some chunks
  length_toColumn : ∀ chunks, (toColumn chunks).length = chunks.flatten.length

/-- `need_double` is false. -/
def int64 : Scalar Int64 where
  to_string n := Json.dumpInt n.toInt
  sto := stoll
  toColumn := .int64
  ofColumn
    | .int64 chunks => some chunks
    | _ => none
  ofColumn_toColumn _ := rfl
  length_toColumn _ := rfl

/-- `need_double` is true. -/
def float64 : Scalar Double where
  to_string := FloatText.toFixed
  sto := FloatText.stoFloat .binary64
  toColumn := .float64
  ofColumn
    | .float64 chunks => some chunks
    | _ => none
  ofColumn_toColumn _ := rfl
  length_toColumn _ := rfl

structure Table where
  num_rows : ℕ
  columns : List (Str × Column)
  length_columns : ∀ c ∈ columns, c.2.length = num_rows

def Table.SetColumn (table : Table) (i : ℕ) (field : Str) (column : Column) :
    Except Fault Table :=
  if h : column.length = table.num_rows ∧ i < table.columns.length then
    .ok {
      num_rows := table.num_rows
      columns := table.columns.set i (field, column)
      length_columns := fun c hc =>
        (List.mem_or_eq_of_mem_set hc).elim (table.length_columns c) fun hc => by
          rw [hc]
          exact h.1 }
  else .error .runtime_error

section Build

variable {T : Type} (S : Scalar T)

/-- `_strToInt64` or `_strToDouble`: the whole text is read. -/
def strTo (str : Str) : Option T :=
  match S.sto str with
  | .ok (x, []) => some x
  | _ => none

/-- The value of `stoll` or `stod`, whatever stands behind the number. -/
def value (str : Str) : Except Fault T :=
  match S.sto str with
  | .ok (x, _) => .ok x
  | .error e => .error (.conversion e)

/-- The array of one chunk without nulls. -/
def newArray (vals : List T) : Column := S.toColumn [vals.map fun x => ⟨x, false⟩]

/-! ## The new column -/

/-- The chunks, and the cells of a chunk, are counted with an `int`. -/
def Counted {α : Type} (chunks : List (List α)) : Prop :=
  chunks.length < 2 ^ 31 ∧ ∀ chunk ∈ chunks, chunk.length < 2 ^ 31

instance {α : Type} (chunks : List (List α)) : Decidable (Counted chunks) :=
  inferInstanceAs (Decidable (_ ∧ _))

/-- The loop that writes the replacement to the cells with these indices. -/
def overwrite {α : Type} (replace : Except Fault α) (vals : List α) (indices : List ℕ) :
    Except Fault (List α) :=
  indices.foldlM (fun vals index => do
    let x ← replace
    if index < vals.length then .ok (vals.set index x) else .error .undefined) vals

/-- A chunk of texts with the replacement for null and abnormal cells. -/
def newColVal (replace : Str) (chunk : List (Option Str)) (abnormal : List ℕ) :
    Except Fault (List Str) :=
  overwrite (.ok replace) (chunk.map fun cell => cell.getD replace) abnormal

def newColVals (replace : Str) :
    List (List (Option Str)) → List (List ℕ) → Except Fault (List (List Str))
  | [], _ => .ok []
  | _ :: _, [] => .error .undefined
  | chunk :: chunks, abnormal :: abnormal_index => do
      let vals ← newColVal replace chunk abnormal
      let rest ← newColVals replace chunks abnormal_index
      return vals :: rest

/-- All chunks are put behind the first one, which has to be there. -/
def combine {α : Type} (chunks : List (List α)) : Except Fault (List α) :=
  if chunks.isEmpty then .error .undefined else .ok chunks.flatten

/-- `_buildNewColumn` with an index list for each chunk. -/
def buildFromStrings (chunks : List (List (Option Str))) (replace : Str)
    (abnormal_index : List (List ℕ)) : Except Fault (List T) :=
  if Counted chunks then do
    let new_col_val ← newColVals replace chunks abnormal_index
    let vals ← combine new_col_val
    vals.mapM (value S)
  else .error .undefined

/-- `_buildNewColumn` with positions in the whole column; null cells are copied as they are
stored. -/
def buildFromNumbers (chunks : List (List (Slot T))) (replace : Str) (both_index : List ℕ) :
    Except Fault (List T) :=
  if Counted chunks then do
    let vals ← combine (chunks.map fun chunk => chunk.map Slot.value)
    overwrite (value S replace) vals both_index
  else .error .undefined

/-- The column that is replaced is cast to the type that the source of the data promises. -/
def newValues (column : Column) (col_value : T) (abnormal_index : List (List ℕ)) (use_db : Bool)
    (both_index : List ℕ) : Except Fault (List T) :=
  if use_db then
    match S.ofColumn column with
    | some chunks => buildFromNumbers S chunks (S.to_string col_value) both_index
    | none => .error .undefined
  else
    match column with
    | .string chunks => buildFromStrings S chunks (S.to_string col_value) abnormal_index
    | _ => .error .undefined

def replaceValue (name : Str) (table : Table) (col_index : ℕ) (col_value : T)
    (abnormal_index : List (List ℕ)) (use_db : Bool) (both_index : List ℕ) :
    Except Fault Table :=
  match table.columns[col_index]? with
  | none => .error .undefined
  | some (_, column) => do
      let new_array ← newValues S column col_value abnormal_index use_db both_index
      table.SetColumn col_index name (newArray S new_array)

end Build

/-! ## What should be in the table -/

/-- A column with index lists that name exactly its abnormal cells, for a database the null ones
too. -/
inductive Source {T : Type} (S : Scalar T) where
  | csv (chunks : List (List (Option Str))) (abnormal_index : List (List ℕ))
      (named : List.Forall₂ (fun chunk abnormal => ∀ j, j ∈ abnormal ↔
        ∃ text, chunk[j]? = some (some text) ∧ strTo S text = none) chunks abnormal_index)
  | db (chunks : List (List (Slot T))) (both_index : List ℕ)
      (inside : ∀ i ∈ both_index, i < chunks.flatten.length)
      (nulls : ∀ i slot, chunks.flatten[i]? = some slot → slot.isNull = true → i ∈ both_index)

namespace Source

variable {T : Type} {S : Scalar T}

def use_db : Source S → Bool
  | csv .. => false
  | db .. => true

def column : Source S → Column
  | csv chunks _ _ => .string chunks
  | db chunks _ _ _ => S.toColumn chunks

def abnormal_index : Source S → List (List ℕ)
  | csv _ abnormal_index _ => abnormal_index
  | db .. => []

def both_index : Source S → List ℕ
  | csv .. => []
  | db _ both_index _ _ => both_index

/-- Valid cells with their own values, the other ones with the replacement. -/
def expected (v : T) : Source S → List T
  | csv chunks _ _ => chunks.flatten.map fun cell => (cell.bind (strTo S)).getD v
  | db chunks both_index _ _ =>
      chunks.flatten.mapIdx fun i slot => if both_index.contains i then v else slot.value

/-- Some cell is null or abnormal. -/
def Replaces : Source S → Prop
  | csv chunks _ _ => ∃ cell ∈ chunks.flatten, cell.bind (strTo S) = none
  | db _ both_index _ _ => both_index ≠ []

/-- There is a chunk, and an `int` can count the chunks and their cells. -/
def Chunked : Source S → Prop
  | csv chunks _ _ => chunks ≠ [] ∧ Counted chunks
  | db chunks _ _ _ => chunks ≠ [] ∧ Counted chunks

end Source

/-- A table with a column from one of the sources. -/
structure Input {T : Type} (S : Scalar T) where
  table : Table
  col_index : ℕ
  name : Str
  source : Source S
  column : table.columns[col_index]? = some (name, source.column)

namespace Input

variable {T : Type} {S : Scalar T} (X : Input S)

def run (v : T) : Except Fault Table :=
  replaceValue S X.name X.table X.col_index v X.source.abnormal_index X.source.use_db
    X.source.both_index

/-- The table gets the right column, with as many rows. -/
def Exact (v : T) : Prop :=
  ∃ table, X.run v = .ok table ∧ table.num_rows = X.table.num_rows ∧
    table.columns = X.table.columns.set X.col_index (X.name, newArray S (X.source.expected v))

end Input

/-! ## The loop that writes the replacement -/

section Overwrite

variable {α : Type}

/-- The cells that are named hold the replacement, the other ones what they held. -/
theorem overwrite_ok (x : α) {vals : List α} {indices : List ℕ}
    (h : ∀ i ∈ indices, i < vals.length) :
    overwrite (.ok x) vals indices =
      .ok (vals.mapIdx fun i y => if indices.contains i then x else y) := by
  induction indices generalizing vals with
  | nil => exact congrArg Except.ok (List.ext_getElem? fun i => by simp)
  | cons index indices ih =>
      have hindex : index < vals.length := h index (List.mem_cons_self ..)
      have hrest : ∀ i ∈ indices, i < (vals.set index x).length := fun i hi => by
        rw [List.length_set]
        exact h i (List.mem_cons_of_mem _ hi)
      have hstep : overwrite (.ok x) vals (index :: indices) =
          overwrite (.ok x) (vals.set index x) indices := by
        unfold overwrite
        exact Fallible.foldlM_cons_of_ok (if_pos hindex)
      rw [hstep, ih hrest, Except.ok.injEq]
      apply List.ext_getElem?
      intro i
      rw [List.getElem?_mapIdx, List.getElem?_mapIdx, List.getElem?_set]
      by_cases hi : index = i
      · subst hi
        simp [hindex]
      · simp [hi, Ne.symm hi]

theorem overwrite_nil (replace : Except Fault α) (vals : List α) :
    overwrite replace vals [] = .ok vals := rfl

theorem overwrite_error (e : Fault) (vals : List α) (index : ℕ) (indices : List ℕ) :
    overwrite (.error e) vals (index :: indices) = .error e :=
  Fallible.foldlM_cons_of_error rfl

end Overwrite

/-! ## Columns of texts -/

section Strings

variable {T : Type} (S : Scalar T)

/-- The text of a cell after the replacement. -/
def textOf (replace : Str) (cell : Option Str) : Str :=
  match cell with
  | none => replace
  | some text => if (strTo S text).isSome then text else replace

theorem newColVal_named {replace : Str} {chunk : List (Option Str)} {abnormal : List ℕ}
    (h : ∀ j, j ∈ abnormal ↔ ∃ text, chunk[j]? = some (some text) ∧ strTo S text = none) :
    newColVal replace chunk abnormal = .ok (chunk.map (textOf S replace)) := by
  have hinside : ∀ j ∈ abnormal, j < (chunk.map fun cell => cell.getD replace).length := by
    intro j hj
    obtain ⟨text, htext, -⟩ := (h j).mp hj
    rw [List.length_map]
    exact (List.getElem?_eq_some_iff.mp htext).1
  rw [newColVal, overwrite_ok _ hinside, Except.ok.injEq]
  apply List.ext_getElem?
  intro j
  rw [List.getElem?_mapIdx, List.getElem?_map, List.getElem?_map, Option.map_map]
  have hj := h j
  cases hcell : chunk[j]? with
  | none => rfl
  | some cell =>
      rw [hcell] at hj
      rw [Option.map_some, Option.map_some, Option.some.injEq, Function.comp_apply]
      cases cell with
      | none =>
          show (if abnormal.contains j then replace else replace) = replace
          exact ite_self _
      | some text =>
          show (if abnormal.contains j then replace else text) = textOf S replace (some text)
          cases hstr : strTo S text with
          | none =>
              have hmem : j ∈ abnormal := hj.mpr ⟨text, rfl, hstr⟩
              simp [textOf, hstr, hmem]
          | some x =>
              have hmem : j ∉ abnormal := fun hmem => by
                obtain ⟨text', htext', hnone⟩ := hj.mp hmem
                obtain rfl := Option.some.inj (Option.some.inj htext')
                rw [hstr] at hnone
                cases hnone
              simp [textOf, hstr, hmem]

theorem newColVals_named {replace : Str} {chunks : List (List (Option Str))}
    {abnormal_index : List (List ℕ)}
    (h : List.Forall₂ (fun chunk abnormal => ∀ j, j ∈ abnormal ↔
      ∃ text, chunk[j]? = some (some text) ∧ strTo S text = none) chunks abnormal_index) :
    newColVals replace chunks abnormal_index =
      .ok (chunks.map fun chunk => chunk.map (textOf S replace)) := by
  induction h with
  | nil => rfl
  | cons hchunk _ ih =>
      rw [newColVals, newColVal_named S hchunk, ih]
      rfl

theorem value_of_sto {str rest : Str} {x : T} (h : S.sto str = .ok (x, rest)) :
    value S str = .ok x := by
  rw [value, h]

/-- A valid text has the value that is read from it. -/
theorem value_of_strTo {str : Str} {x : T} (h : strTo S str = some x) : value S str = .ok x := by
  unfold strTo at h
  split at h
  · rename_i heq
    rw [← Option.some.inj h]
    exact value_of_sto S heq
  · cases h

/-- The texts give the right values exactly when the text of the replacement is read back, if it
is needed. -/
theorem buildFromStrings_eq_iff {chunks : List (List (Option Str))} {abnormal_index : List (List ℕ)}
    (h : List.Forall₂ (fun chunk abnormal => ∀ j, j ∈ abnormal ↔
      ∃ text, chunk[j]? = some (some text) ∧ strTo S text = none) chunks abnormal_index)
    (replace : Str) (v : T) :
    buildFromStrings S chunks replace abnormal_index =
        .ok (chunks.flatten.map fun cell => (cell.bind (strTo S)).getD v) ↔
      (chunks ≠ [] ∧ Counted chunks) ∧
        ((∃ cell ∈ chunks.flatten, cell.bind (strTo S) = none) → value S replace = .ok v) := by
  have hcell : ∀ cell, value S (textOf S replace cell) = .ok ((cell.bind (strTo S)).getD v) ↔
      (cell.bind (strTo S) = none → value S replace = .ok v) := by
    intro cell
    cases cell with
    | none => simp [textOf]
    | some text =>
        cases hstr : strTo S text with
        | none => simp [textOf, hstr]
        | some x => simp [textOf, hstr, value_of_strTo S hstr]
  unfold buildFromStrings
  by_cases hcounted : Counted chunks
  · rw [if_pos hcounted, newColVals_named S h]
    cases chunks with
    | nil => simp [combine, bind, Except.bind]
    | cons chunk chunks =>
        show (((chunk :: chunks).map fun chunk => chunk.map (textOf S replace)).flatten.mapM
          (value S)) = _ ↔ _
        rw [← List.map_flatten, List.mapM_map]
        refine Fallible.mapM_eq_ok_map_iff.trans ?_
        simp only [Function.comp_apply, hcell]
        simp [hcounted]
  · simp [hcounted]

end Strings

/-! ## Columns of numbers -/

section Numbers

variable {T : Type} (S : Scalar T)

theorem buildFromNumbers_eq_iff {chunks : List (List (Slot T))} {both_index : List ℕ}
    (inside : ∀ i ∈ both_index, i < chunks.flatten.length) (replace : Str) (v : T) :
    buildFromNumbers S chunks replace both_index =
        .ok (chunks.flatten.mapIdx fun i slot => if both_index.contains i then v else slot.value) ↔
      (chunks ≠ [] ∧ Counted chunks) ∧ (both_index ≠ [] → value S replace = .ok v) := by
  have hcopy : ∀ x : T, ((chunks.flatten.map Slot.value).mapIdx fun i y =>
        if both_index.contains i then x else y) =
      chunks.flatten.mapIdx fun i slot => if both_index.contains i then x else slot.value := by
    intro x
    apply List.ext_getElem?
    intro i
    simp only [List.getElem?_mapIdx, List.getElem?_map, Option.map_map]
    rfl
  have hinside : ∀ i ∈ both_index, i < (chunks.flatten.map Slot.value).length := by
    rw [List.length_map]
    exact inside
  have hcombine : ∀ vals : List T, buildFromNumbers S chunks replace both_index = .ok vals ↔
      (chunks ≠ [] ∧ Counted chunks) ∧
        overwrite (value S replace) (chunks.flatten.map Slot.value) both_index = .ok vals := by
    intro vals
    unfold buildFromNumbers
    by_cases hcounted : Counted chunks
    · rw [if_pos hcounted]
      cases chunks with
      | nil => simp [combine, bind, Except.bind]
      | cons chunk chunks =>
          rw [List.map_flatten]
          exact ⟨fun h => ⟨⟨List.cons_ne_nil _ _, hcounted⟩, h⟩, fun h => h.2⟩
    · simp [hcounted]
  rw [hcombine]
  refine and_congr_right fun _ => ?_
  cases both_index with
  | nil =>
      rw [overwrite_nil, ← hcopy v]
      simp
      exact List.ext_getElem? fun i => by simp
  | cons index both_index =>
      cases hvalue : value S replace with
      | error e =>
          rw [overwrite_error]
          simp
      | ok x =>
          rw [overwrite_ok x hinside, hcopy x]
          constructor
          · intro h _
            -- the first cell that is named shows the value
            have hindex := inside index (List.mem_cons_self ..)
            have hcell := congrArg (fun vals => vals[index]?) (Except.ok.inj h)
            simp only [List.getElem?_mapIdx, List.getElem?_eq_getElem hindex, Option.map_some,
              List.contains_cons, beq_self_eq_true, Bool.true_or, if_true] at hcell
            rw [Option.some.inj hcell]
          · intro h
            rw [Except.ok.inj (h (List.cons_ne_nil _ _))]

end Numbers

/-! ## The table -/

section Table

variable {T : Type} {S : Scalar T}

theorem length_newArray (vals : List T) : (newArray S vals).length = vals.length := by
  simp [newArray, S.length_toColumn]

theorem newArray_injective {vals vals' : List T} (h : newArray S vals = newArray S vals') :
    vals = vals' := by
  have hchunks := congrArg S.ofColumn h
  rw [newArray, newArray, S.ofColumn_toColumn, S.ofColumn_toColumn] at hchunks
  have hslots := (List.cons.inj (Option.some.inj hchunks)).1
  have hvalues := congrArg (List.map Slot.value) hslots
  simpa [Function.comp_def] using hvalues

namespace Source

theorem length_column (src : Source S) (v : T) : src.column.length = (src.expected v).length := by
  cases src with
  | csv chunks abnormal_index named => rw [column, expected, Column.length, List.length_map]
  | db chunks both_index inside nulls =>
      rw [column, expected, S.length_toColumn, List.length_mapIdx]

/-- The new values are the right ones exactly when there is a chunk and the text of the
replacement is read back, if it is needed. -/
theorem newValues_eq_iff (src : Source S) (v : T) :
    newValues S src.column v src.abnormal_index src.use_db src.both_index = .ok (src.expected v) ↔
      src.Chunked ∧ (src.Replaces → value S (S.to_string v) = .ok v) := by
  cases src with
  | csv chunks abnormal_index named => exact buildFromStrings_eq_iff S named (S.to_string v) v
  | db chunks both_index inside nulls =>
      simp only [newValues, use_db, column, Source.both_index, if_true, S.ofColumn_toColumn]
      exact buildFromNumbers_eq_iff S inside (S.to_string v) v

end Source

namespace Input

variable (X : Input S)

theorem exact_iff_newValues (v : T) :
    X.Exact v ↔ newValues S X.source.column v X.source.abnormal_index X.source.use_db
      X.source.both_index = .ok (X.source.expected v) := by
  have hindex : X.col_index < X.table.columns.length :=
    (List.getElem?_eq_some_iff.mp X.column).1
  have hlength : X.source.column.length = X.table.num_rows :=
    X.table.length_columns _ (List.mem_of_getElem? X.column)
  have hrun : X.run v = (newValues S X.source.column v X.source.abnormal_index X.source.use_db
      X.source.both_index).bind fun vals =>
        X.table.SetColumn X.col_index X.name (newArray S vals) := by
    rw [run, replaceValue, X.column]
    rfl
  unfold Exact
  rw [hrun]
  constructor
  · rintro ⟨table, hok, -, hcolumns⟩
    obtain ⟨vals, hvals, hset⟩ := Fallible.bind_eq_ok.mp hok
    rw [hvals]
    unfold Table.SetColumn at hset
    split at hset
    · rw [← Except.ok.inj hset] at hcolumns
      have hcolumn := congrArg (fun columns => columns[X.col_index]?) hcolumns
      simp only [List.getElem?_set_self hindex, Option.some.injEq, Prod.mk.injEq,
        true_and] at hcolumn
      rw [newArray_injective hcolumn]
    · cases hset
  · intro hvals
    have hfits : (newArray S (X.source.expected v)).length = X.table.num_rows := by
      rw [length_newArray, ← X.source.length_column, hlength]
    rw [hvals]
    refine ⟨_, dif_pos ⟨hfits, hindex⟩, rfl, rfl⟩

/-- For values of either type. -/
theorem exact_iff_readsBack (v : T) :
    X.Exact v ↔ X.source.Chunked ∧
      (X.source.Replaces → value S (S.to_string v) = .ok v) := by
  rw [exact_iff_newValues, Source.newValues_eq_iff]

end Input

end Table

/-! ## The two types -/

/-- An integer is read back from its text. -/
theorem value_to_string_int64 (n : Int64) : value int64 (int64.to_string n) = .ok n := by
  have hread : readInt (Json.dumpInt n.toInt ++ []) = some (n.toInt, []) :=
    Strto.readInt_dumpInt n.toInt (by simp [Json.Stops])
  rw [List.append_nil] at hread
  apply value_of_sto int64
  show stoll (Json.dumpInt n.toInt) = .ok (n, [])
  rw [stoll, hread]
  simp only [if_pos (And.intro n.le_toInt n.toInt_lt), Int64.ofInt_toInt]

/-- **When the column is the right one**: there has to be a chunk, and a double that replaces a
cell has to be read back from its text with six decimals. -/
theorem replaceValue_exact_iff (X : Input int64) (n : Int64) (Y : Input float64) (x : Double) :
    (X.Exact n ↔ X.source.Chunked) ∧
      (Y.Exact x ↔ Y.source.Chunked ∧
        (Y.source.Replaces → value float64 (FloatText.toFixed x) = .ok x)) := by
  refine ⟨?_, Y.exact_iff_readsBack x⟩
  rw [X.exact_iff_readsBack n, and_iff_left]
  exact fun _ => value_to_string_int64 n

/-- A table with one column that has one cell, a null. -/
def oneNull : Input float64 where
  table := {
    num_rows := 1
    columns := [(['x'], .string [[none]])]
    length_columns := fun c hc => by
      rw [List.mem_singleton.mp hc]
      rfl }
  col_index := 0
  name := ['x']
  source := .csv [[none]] [[]] (List.Forall₂.cons (fun j => by
    refine iff_of_false List.not_mem_nil ?_
    rintro ⟨text, htext, -⟩
    cases j <;> cases htext) List.Forall₂.nil)
  column := rfl

/-- A ten-millionth has the text `0.000000`, and the null becomes 0. -/
theorem not_exact_oneNull :
    ¬ oneNull.Exact (FloatText.Number.round .binary64 (.decimal false 1 (-7))) := by
  intro h
  have hback := ((oneNull.exact_iff_readsBack _).mp h).2
    ⟨none, List.mem_singleton.mpr rfl, rfl⟩
  revert hback
  decide +kernel

end Fediux.Algorithm.MissingProcess
