import Fediux.Arrow.Table
import Fediux.Basic.OrderedMap
import Fediux.Basic.Fallible

set_option autoImplicit false

/-! # Keyword PIR

The server joins the columns of each row to a key and a label and groups the labels by their keys
(`PirTask::ServerLoadDataset`), joins the labels of a key (`KeywordPirOperatorServer::CreateDb`)
and stores them with the APSI library. The client splits what it finds
(`KeywordPirOperatorClient::ExtractResult`) and saves it (`PirTask::SaveResult`).
-/

namespace Fediux.Pir

open Fediux.Util Fediux.Arrow

/-- Maps from a key to its values. -/
abbrev PirDataType := OrderedMap.Entries Str (List Str)

def NUL : Char := Char.ofNat 0

/-- The two ways in which the server does not get to a database. -/
inductive Fault where
  | exception (what : String)
  | undefinedBehaviour
  deriving DecidableEq

/-! ## The server -/

def indexError (col_index total_columns : ℕ) : Fault :=
  .exception ("index out of range: " ++ toString col_index ++ " " ++ "total columns: " ++
    toString total_columns)

def selectedColumn (data_tbl : Table) (col_index : ℕ) : Except Fault (List Str) :=
  match data_tbl.columns[col_index]? with
  | none => .error (indexError col_index data_tbl.columns.length)
  | some c => .ok c.values

/-- One more column is appended to the contents. -/
def appendColumn (data_tbl : Table) (content_array : List Str) (col_index : ℕ) :
    Except Fault (List Str) := do
  let values ← selectedColumn data_tbl col_index
  return content_array.zipWith (fun content value => content ++ [','] ++ value) values

/-- `PirTask::GetSelectedContent`. -/
def GetSelectedContent (data_tbl : Table) : List ℕ → Except Fault (List Str)
  | [] => .ok []
  | col_index :: selected_col => do
      let content_array ← selectedColumn data_tbl col_index
      selected_col.foldlM (appendColumn data_tbl) content_array

/-- One step of the loop that fills `elements_`. -/
def addElement (elements : PirDataType) (key value : Str) : PirDataType :=
  match OrderedMap.find? elements key with
  | some vec => OrderedMap.assign elements key (vec ++ [value])
  | none => OrderedMap.assign elements key [value]

/-- `PirTask::ServerLoadDataset`. -/
def ServerLoadDataset (table : Table) (key_col value_col : List ℕ) : Except Fault PirDataType :=
  if table.columns.length < 2 then .error (.exception "data for server must have label")
  else if key_col = [] then .error (.exception "no column selected for keyword")
  else do
    let key_array ← GetSelectedContent table key_col
    if value_col = [] then .error (.exception "no column selected for label")
    else do
      let value_array ← GetSelectedContent table value_col
      return (key_array.zip value_array).foldl (fun elements p => addElement elements p.1 p.2) []

/-- The label of `CreateDb`: every label but the last is followed by the separator. -/
def joinLabels (label_vec : List Str) : Str :=
  label_vec.dropLast.foldl (fun label label_str => label ++ label_str ++ DATA_RECORD_SEP.1) [] ++
    label_vec.getLastD []

/-- `KeywordPirOperatorServer::CreateDb`. -/
def CreateDb (input : PirDataType) : OrderedMap.Entries Str Str :=
  input.map fun p => (p.1, joinLabels p.2)

/-- `KeywordPirOperatorServer::CreateSenderDb` reads the longest label, also when there is
none. -/
def CreateSenderDb (db_data : OrderedMap.Entries Str Str) :
    Except Fault (OrderedMap.Entries Str Str) :=
  if db_data = [] then .error .undefinedBehaviour else .ok db_data

/-! ## The APSI library -/

/-- What the library adds to a stored label: a number of zero bytes. -/
structure Apsi where
  padding : OrderedMap.Entries Str Str → Str → ℕ

structure MatchRecord where
  found : Bool
  label : Str

def Apsi.query (apsi : Apsi) (db : OrderedMap.Entries Str Str) (key : Str) : MatchRecord :=
  match OrderedMap.find? db key with
  | none => { found := false, label := [] }
  | some label => { found := true, label := label ++ List.replicate (apsi.padding db key) NUL }

/-! ## The client -/

/-- A key in the parameters of the task, or one in a row of the client's dataset. -/
inductive Request where
  | item (text : Str)
  | columns (values : List Str)

/-- The key in `elements_`. -/
def Request.text : Request → Str
  | .item text => text
  | .columns values => List.intercalate [','] values

/-- One step of the loop of `KeywordPirOperatorClient::ExtractResult`. -/
def extractOne (result : PirDataType) (key : Str) (record : MatchRecord) : PirDataType :=
  if ¬ record.found then result
  else if record.label = [] then result
  else
    let labels := str_split DATA_RECORD_SEP record.label
    OrderedMap.assign result key ((OrderedMap.find? result key).getD [] ++ labels)

def ExtractResult (orig_items : List Str) (intersection : List MatchRecord) : PirDataType :=
  (orig_items.zip intersection).foldl (fun result p => extractOne result p.1 p.2) []

/-- `item.erase(std::find(item.begin(), item.end(), 0), item.end())`. -/
def eraseFromNul (item : Str) : Str := item.takeWhile fun c => c ≠ NUL

/-- The items that `PirTask::SaveResult` appends to the column that is written. -/
def SaveResult (result : PirDataType) : PirDataType :=
  result.map fun p => (p.1, p.2.map eraseFromNul)

/-- The task: what the client saves for each key. Every column of the server is a label
column. -/
def keywordPir (apsi : Apsi) (table : Table) (key_col : List ℕ) (requests : List Request) :
    Except Fault PirDataType := do
  let elements ← ServerLoadDataset table key_col (List.range table.columns.length)
  let db ← CreateSenderDb (CreateDb elements)
  let keys := (requests.map Request.text).dedup
  return SaveResult (ExtractResult keys (keys.map (apsi.query db)))

/-! ## What the server stores -/

section Server

variable {table : Table}

/-- The selected columns of a row, joined. -/
def rowText (cols : List ℕ) (row : List Str) : Str :=
  List.intercalate [','] (cols.map fun col => row.getD col [])

theorem selectedColumn_eq {col : ℕ} (h : col < table.columns.length) :
    selectedColumn table col = .ok (table.rows.map fun row => row.getD col []) := by
  rw [selectedColumn, List.getElem?_eq_getElem h, table.map_getD_rows h]

theorem intercalate_append {sep : Str} (v w : Str) (vs : List Str) :
    List.intercalate sep (v :: w :: vs) = List.intercalate sep ((v ++ sep ++ w) :: vs) := by
  rw [List.intercalate_cons_cons]
  cases vs with
  | nil => rw [List.intercalate_singleton, List.intercalate_singleton]
  | cons u us =>
      rw [List.intercalate_cons_cons, List.intercalate_cons_cons]
      simp only [List.append_assoc]

theorem foldlM_appendColumn {f : List Str → Str} {cols : List ℕ}
    (h : ∀ col ∈ cols, col < table.columns.length) :
    cols.foldlM (appendColumn table) (table.rows.map f) =
      .ok (table.rows.map fun row =>
        List.intercalate [','] (f row :: cols.map fun col => row.getD col [])) := by
  induction cols generalizing f with
  | nil =>
      simp only [List.map_nil, List.intercalate_singleton]
      rfl
  | cons col cols ih =>
      obtain ⟨hcol, hcols⟩ := List.forall_mem_cons.mp h
      refine Fallible.foldlM_cons_eq_ok.mpr
        ⟨table.rows.map fun row => f row ++ [','] ++ row.getD col [], ?_, ?_⟩
      · rw [appendColumn, selectedColumn_eq hcol]
        show Except.ok (List.zipWith _ _ _) = _
        rw [List.zipWith_map, List.zipWith_self]
      · rw [ih hcols]
        simp only [List.map_cons, intercalate_append]

theorem GetSelectedContent_eq {cols : List ℕ} (hne : cols ≠ [])
    (h : ∀ col ∈ cols, col < table.columns.length) :
    GetSelectedContent table cols = .ok (table.rows.map (rowText cols)) := by
  cases cols with
  | nil => exact absurd rfl hne
  | cons col cols =>
      obtain ⟨hcol, hcols⟩ := List.forall_mem_cons.mp h
      exact Fallible.bind_eq_ok.mpr ⟨_, selectedColumn_eq hcol, foldlM_appendColumn hcols⟩

/-- All columns of a row are joined. -/
theorem rowText_range {row : List Str} {n : ℕ} (h : row.length = n) :
    rowText (List.range n) row = List.intercalate [','] row := by
  unfold rowText
  congr 1
  refine List.ext_getElem ?_ fun i hi hi' => ?_
  · rw [List.length_map, List.length_range, h]
  · rw [List.getElem_map, List.getElem_range, List.getD_eq_getElem _ _ hi']

theorem find?_addElement (elements : PirDataType) (key value k : Str) :
    OrderedMap.find? (addElement elements key value) k =
      if k = key then some ((OrderedMap.find? elements key).getD [] ++ [value])
      else OrderedMap.find? elements k := by
  unfold addElement
  split
  · rename_i vec hvec
    rw [OrderedMap.find?_assign, hvec, Option.getD_some]
  · rename_i hnone
    rw [OrderedMap.find?_assign, hnone, Option.getD_none, List.nil_append]

/-- The values of a key are those that came with it, in their order. -/
theorem find?_foldl_addElement (ps : List (Str × Str)) (elements : PirDataType) (k : Str) :
    (OrderedMap.find? (ps.foldl (fun elements p => addElement elements p.1 p.2) elements)
        k).getD [] =
      (OrderedMap.find? elements k).getD [] ++ (ps.filter fun p => p.1 = k).map Prod.snd ∧
    ((OrderedMap.find? (ps.foldl (fun elements p => addElement elements p.1 p.2) elements)
        k).isSome ↔ (OrderedMap.find? elements k).isSome ∨ k ∈ ps.map Prod.fst) := by
  induction ps generalizing elements with
  | nil => simp
  | cons p ps ih =>
      rw [List.foldl_cons]
      obtain ⟨hget, hsome⟩ := ih (addElement elements p.1 p.2)
      rw [hget, hsome, find?_addElement]
      by_cases hk : k = p.1
      · subst hk
        simp
      · have hk' : ¬ p.1 = k := fun h => hk h.symm
        simp [hk, hk']

/-- **What the server stores for a key: the texts of the rows with it, in the order of the
table.** -/
theorem ServerLoadDataset_spec {key_col : List ℕ} (htwo : 2 ≤ table.columns.length)
    (hne : key_col ≠ []) (hkey : ∀ col ∈ key_col, col < table.columns.length) :
    ∃ elements,
      ServerLoadDataset table key_col (List.range table.columns.length) = .ok elements ∧
      ∀ k, OrderedMap.find? elements k =
        if table.rows.filter (fun row => rowText key_col row = k) = [] then none
        else some ((table.rows.filter fun row => rowText key_col row = k).map
          (List.intercalate [','])) := by
  have hrange : List.range table.columns.length ≠ [] := by
    rw [Ne, List.range_eq_nil]
    omega
  have hkeys := GetSelectedContent_eq hne hkey
  have hlabels : GetSelectedContent table (List.range table.columns.length) =
      .ok (table.rows.map (rowText (List.range table.columns.length))) :=
    GetSelectedContent_eq hrange fun col hcol => List.mem_range.mp hcol
  refine ⟨((table.rows.map (rowText key_col)).zip (table.rows.map (rowText (List.range
    table.columns.length)))).foldl (fun elements p => addElement elements p.1 p.2) [],
    ?_, fun k => ?_⟩
  · unfold ServerLoadDataset
    rw [if_neg (by omega), if_neg hne, hkeys, hlabels, Fallible.bind_eq_ok]
    refine ⟨_, rfl, ?_⟩
    rw [if_neg hrange]
    rfl
  · have hzip : (table.rows.map (rowText key_col)).zip
        (table.rows.map (rowText (List.range table.columns.length))) =
        table.rows.map fun row => (rowText key_col row, List.intercalate [','] row) := by
      rw [List.zip_map', List.map_inj_left]
      intro row hrow
      rw [rowText_range (table.length_of_mem_rows hrow)]
    rw [hzip]
    obtain ⟨hget, hsome⟩ := find?_foldl_addElement
      (table.rows.map fun row => (rowText key_col row, List.intercalate [','] row)) [] k
    rw [OrderedMap.find?_nil, Option.getD_none, List.nil_append, List.filter_map,
      List.map_map] at hget
    rw [OrderedMap.find?_nil, List.map_map] at hsome
    have hmem : k ∈ table.rows.map (rowText key_col) ↔
        table.rows.filter (fun row => rowText key_col row = k) ≠ [] := by
      rw [List.mem_map, Ne, List.filter_eq_nil_iff]
      push Not
      simp only [decide_eq_true_eq]
    split_ifs with hnil
    · rw [← Option.not_isSome_iff_eq_none, hsome]
      rintro (h | h)
      · cases h
      · exact hmem.mp h hnil
    · obtain ⟨vec, hvec⟩ := Option.isSome_iff_exists.mp (hsome.mpr (Or.inr (hmem.mpr hnil)))
      rw [hvec, Option.getD_some] at hget
      rw [hvec, hget]
      rfl

theorem joinLabels_eq {label_vec : List Str} (hne : label_vec ≠ []) :
    joinLabels label_vec = List.intercalate DATA_RECORD_SEP.1 label_vec := by
  obtain ⟨ls, l, rfl⟩ : ∃ ls l, label_vec = ls ++ [l] :=
    ⟨label_vec.dropLast, label_vec.getLast hne, (List.dropLast_append_getLast hne).symm⟩
  unfold joinLabels
  rw [List.dropLast_concat, List.getLastD_concat]
  have hloop : ∀ (ls : List Str) (acc : Str),
      ls.foldl (fun label label_str => label ++ label_str ++ DATA_RECORD_SEP.1) acc ++ l =
        acc ++ List.intercalate DATA_RECORD_SEP.1 (ls ++ [l]) := by
    intro ls
    induction ls with
    | nil => intro acc; rw [List.nil_append, List.intercalate_singleton, List.foldl_nil]
    | cons v vs ih =>
        intro acc
        rw [List.foldl_cons, ih, List.cons_append, Separator.intercalate_cons_of_ne_nil
          (List.append_ne_nil_of_right_ne_nil _ (List.cons_ne_nil _ _))]
        simp only [List.append_assoc]
  rw [hloop, List.nil_append]

end Server

end Fediux.Pir
