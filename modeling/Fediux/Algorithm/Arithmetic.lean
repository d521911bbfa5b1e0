import Fediux.Executor.Columns

set_option autoImplicit false

/-! # Loading the dataset of an arithmetic task

`ArithmeticExecutor` of `algorithm/arithmetic.cc`: a party reads the columns of its table that
the task declares, and imports their values for the evaluation of the expression. Columns are
declared as integers or doubles; the executor runs on 64-bit integers or on doubles.
`tokensLoaded_iff` says when every local column of the expression has its values.
-/

namespace Fediux.Arithmetic

open OrderedMap (Entries find? emplace insertAll find?_insertAll find?_emplace)
open Replicated (Party)
open Express

/-! ## The table -/

/-- The chunks of an arrow column; `F` is the type of doubles. Of a column of another type only
the lengths of its chunks are read. -/
inductive ColumnData (F : Type) where
  | int64 (chunks : List (List I64))
  | double (chunks : List (List F))
  | other (lengths : List Nat)

structure ArrowColumn (F : Type) where
  name : Str
  data : ColumnData F

variable {F : Type}

namespace ColumnData

def length : ColumnData F → Nat
  | int64 chunks => chunks.flatten.length
  | double chunks => chunks.flatten.length
  | other lengths => lengths.sum

/-- The values as integers. -/
def ints : ColumnData F → Option (List I64)
  | int64 chunks => some chunks.flatten
  | _ => none

/-- The values as doubles. -/
def doubles (toDouble : I64 → F) : ColumnData F → Option (List F)
  | int64 chunks => some (chunks.flatten.map toDouble)
  | double chunks => some chunks.flatten
  | other _ => none

end ColumnData

/-! ## `_LoadDatasetFromCSV` -/

/-- `ArithmeticExecutor` after `loadParams`. A column of type `true` is declared as double. -/
structure ArithmeticExecutor where
  partyId : Party
  partyName : Str
  colAndOwner : Entries Str Party
  colAndDtype : Entries Str Bool
  expr : Str

/-- `col_and_val_int` and `col_and_val_double`. -/
structure ColAndVal (F : Type) where
  int : Entries Str (List I64)
  double : Entries Str (List F)

/-- The values of one column, if they are as many as those of the last column. -/
def checkLength {α : Type} (ex : ArithmeticExecutor) (colName : Str) (arrayLen : Nat)
    (tmpData : List α) : Except Fault (List α) :=
  if tmpData.length ≠ arrayLen then
    .error (.exception ("Party: " ++ String.ofList ex.partyName ++ ", Column " ++
      String.ofList colName ++ " has " ++ toString tmpData.length ++
      " value, but other column has " ++ toString arrayLen ++ " value."))
  else .ok tmpData

variable (toDouble : I64 → F)

/-- One pass of the loop over the columns of the table. -/
def loadColumn (ex : ArithmeticExecutor) (colNames : List Str) (arrayLen : Nat)
    (l : ColAndVal F) (col : ArrowColumn F) : Except Fault (ColAndVal F) :=
  match find? ex.colAndDtype col.name with
  | none => .ok l
  | some dtype =>
      -- `GetFieldByName` has no field for a name that is there twice
      if colNames.count col.name ≠ 1 then .error .nullPointer
      else
        match dtype, col.data with
        | false, .int64 chunks => do
            let tmpData ← checkLength ex col.name arrayLen chunks.flatten
            return { l with int := emplace l.int col.name tmpData }
        | false, _ => .error (.exception ("Local data type is inconsistent with the demand " ++
            "data type!Demand data type is int,but local data type is double!Please input " ++
            "consistent data type!"))
        | true, .int64 chunks => do
            let tmpData ← checkLength ex col.name arrayLen (chunks.flatten.map toDouble)
            return { l with double := emplace l.double col.name tmpData }
        | true, .double chunks => do
            let tmpData ← checkLength ex col.name arrayLen chunks.flatten
            return { l with double := emplace l.double col.name tmpData }
        | true, .other _ => .error .wrongTag

/-- The returned number of values is cut to 32 bits. -/
def LoadDatasetFromCSV (ex : ArithmeticExecutor) (table : List (ArrowColumn F)) :
    Except Fault (Int × ColAndVal F) :=
  match table.getLast? with
  | none => .error .outOfRange
  | some last => do
      let arrayLen := last.data.length
      let l ← table.foldlM (loadColumn toDouble ex (table.map ArrowColumn.name) arrayLen)
        ⟨[], []⟩
      return ((arrayLen : Int).bmod (2 ^ 32), l)

/-! ## `FeedDict` with both types -/

/-- `FeedDict`; `floatRun` is the run mode. -/
structure FeedDict (F : Type) where
  colConfig : ColumnConfig
  floatRun : Bool
  valCount : Int
  int64Col : Entries Str (List I64)
  fp64Col : Entries Str (List F)

namespace FeedDict

def new (colConfig : ColumnConfig) (floatRun : Bool) : FeedDict F :=
  { colConfig, floatRun, valCount := -1, int64Col := [], fp64Col := [] }

def setOrCheckValueCount (d : FeedDict F) (newCount : Int) : Int × FeedDict F :=
  let d := if d.valCount = -1 then { d with valCount := newCount } else d
  if d.valCount ≠ newCount then (-1, d) else (0, d)

/-- `importColumnValues` for doubles. -/
def importDoubles (d : FeedDict F) (colName : Str) (fp64Vec : List F) :
    Except Fault (Int × FeedDict F) := do
  let isLocal ← d.colConfig.getColumnLocality colName
  if isLocal = false then return (-1, d)
  let (ret, d) := d.setOrCheckValueCount fp64Vec.length
  if ret ≠ 0 then return (-2, d)
  if d.floatRun = false then return (-1, d)
  if (find? d.fp64Col colName).isSome then return (-2, d)
  return (0, { d with fp64Col := emplace d.fp64Col colName fp64Vec })

/-- `importColumnValues` for integers, which are converted in a run on doubles. -/
def importInts (d : FeedDict F) (colName : Str) (int64Vec : List I64) :
    Except Fault (Int × FeedDict F) := do
  let isLocal ← d.colConfig.getColumnLocality colName
  if isLocal = false then return (-1, d)
  let (_, dtype) ← d.colConfig.getColumnDtype colName
  if dtype ≠ .INT64 then return (-2, d)
  let (ret, d) := d.setOrCheckValueCount int64Vec.length
  if ret ≠ 0 then return (-2, d)
  if d.floatRun = true then
    let (ret, d) ← d.importDoubles colName (int64Vec.map toDouble)
    if ret ≠ 0 then return (-3, d)
    return (0, d)
  if (find? d.int64Col colName).isSome then return (-4, d)
  return (0, { d with int64Col := emplace d.int64Col colName int64Vec })

/-- `getColumnValues` for integers. -/
def getInts (d : FeedDict F) (colName : Str) : Except Fault (Except Int (List I64)) := do
  let isLocal ← d.colConfig.getColumnLocality colName
  if isLocal = false then return .error (-1)
  if d.floatRun = true then return .error (-1)
  match find? d.int64Col colName with
  | none => return .error (-2)
  | some colVec => return .ok colVec

/-- `getColumnValues` for doubles. -/
def getDoubles (d : FeedDict F) (colName : Str) : Except Fault (Except Int (List F)) := do
  let isLocal ← d.colConfig.getColumnLocality colName
  if isLocal = false then return .error (-1)
  if d.floatRun = false then return .error (-1)
  match find? d.fp64Col colName with
  | none => return .error (-2)
  | some colVec => return .ok colVec

end FeedDict

/-! ## `loadDataset` for an expression -/

/-- The executor of the expression after `loadDataset`. -/
structure Prepared (F : Type) where
  suffixStk : List Str
  tokenTypeMap : Entries Str TokenType
  feedDict : FeedDict F

/-- `initColumnConfig`, then the owners and the types of all columns. -/
def importConfig (ex : ArithmeticExecutor) : Except Fault ColumnConfig := do
  let c ← ex.colAndOwner.foldlM (fun c e => c.importColumnOwner e.1 e.2)
    (ColumnConfig.new ex.partyId)
  return ex.colAndDtype.foldl
    (fun c e => (c.importColumnDtype e.1 (if e.2 then .FP64 else .INT64)).2) c

/-- The values of one type; the return codes are not read. -/
def importAll {α : Type} (importOne : FeedDict F → Str → α → Except Fault (Int × FeedDict F))
    (entries : Entries Str α) (d : FeedDict F) : Except Fault (FeedDict F) :=
  entries.foldlM (fun d e => return (← importOne d e.1 e.2).2) d

/-- `loadDataset` of a party whose task is not a comparison; `none` is the return code `-1`.
Integers are imported only when no column was read as doubles. -/
def loadDataset (ex : ArithmeticExecutor) (table : List (ArrowColumn F)) :
    Except Fault (Option (Prepared F)) := do
  let (ret, l) ← LoadDatasetFromCSV toDouble ex table
  if ret ≤ 0 then return none
  let c ← importConfig ex
  match importExpress .new ex.expr with
  | none => .error .outOfRange
  | some (_, m) =>
      let (c, tokenTypeMap, fp64Run) ← resolveRunMode c m.suffixStk
      let d := FeedDict.new c fp64Run
      let d ← if l.double.length ≠ 0 then importAll FeedDict.importDoubles l.double d
        else importAll (FeedDict.importInts toDouble) l.int d
      return some { suffixStk := m.suffixStk, tokenTypeMap, feedDict := d }

/-! ## The values of a column token -/

/-- `TokenValue` of a column token. -/
inductive ColumnValue (F : Type) where
  | fp64Vec (xs : List F)
  | i64Vec (xs : List I64)
  | remote

/-- `createTokenValue` for a column token: the value, or the return code. -/
def createColumnValue (d : FeedDict F) (token : Str) :
    Except Fault (Except Int (ColumnValue F)) := do
  let isLocal ← d.colConfig.getColumnLocality token
  if isLocal = false then return .ok .remote
  if d.floatRun then
    match ← d.getDoubles token with
    | .error _ => return .error (-2)
    | .ok xs => return .ok (.fp64Vec xs)
  else
    match ← d.getInts token with
    | .error _ => return .error (-2)
    | .ok xs => return .ok (.i64Vec xs)

/-- The values of a column in the representation of the run mode. -/
def ColumnData.inMode (toDouble : I64 → F) (floatRun : Bool) (data : ColumnData F) :
    Option (ColumnValue F) :=
  if floatRun then (data.doubles toDouble).map .fp64Vec else data.ints.map .i64Vec

/-- The expression refers to the column. -/
def Referenced (ex : ArithmeticExecutor) (token : Str) : Prop :=
  ∃ ret m, importExpress .new ex.expr = some (ret, m) ∧ token ∈ m.suffixStk ∧
    isOperatorStr token = false

/-- Every local column of the expression has its values in the representation of the run mode,
and `createTokenValue` finds them. -/
def TokensLoaded (ex : ArithmeticExecutor) (table : List (ArrowColumn F)) (d : FeedDict F) :
    Prop :=
  ∀ token, Referenced ex token → find? ex.colAndOwner token = some ex.partyId →
    ∃ col ∈ table, col.name = token ∧ ∃ v, col.data.inMode toDouble d.floatRun = some v ∧
      createColumnValue d token = .ok (.ok v)

/-- The party's table has every local column of the expression, and if the table has a column
declared as double then those columns are all declared as double. -/
def Complete (ex : ArithmeticExecutor) (table : List (ArrowColumn F)) : Prop :=
  ∀ token, Referenced ex token → find? ex.colAndOwner token = some ex.partyId →
    (∃ col ∈ table, col.name = token) ∧
      (find? ex.colAndDtype token = some true ∨
        ∀ col ∈ table, find? ex.colAndDtype col.name ≠ some true)

/-! ## What the loop over the columns reads -/

/-- The values of a column that is declared with the type. -/
def entryOf {α : Type} (ex : ArithmeticExecutor) (dtype : Bool)
    (values : ColumnData F → Option α) (col : ArrowColumn F) : Option (Str × α) :=
  if find? ex.colAndDtype col.name = some dtype then
    (values col.data).map fun xs => (col.name, xs)
  else none

/-- A declared column has values of its type, as many as the last column. -/
structure Loadable (ex : ArithmeticExecutor) (arrayLen : Nat) (col : ArrowColumn F) : Prop where
  ints : find? ex.colAndDtype col.name = some false →
    ∃ xs, col.data.ints = some xs ∧ xs.length = arrayLen
  doubles : find? ex.colAndDtype col.name = some true →
    ∃ xs, col.data.doubles toDouble = some xs ∧ xs.length = arrayLen

theorem checkLength_eq_ok {α : Type} {ex : ArithmeticExecutor} {colName : Str} {arrayLen : Nat}
    {tmpData xs : List α} (h : checkLength ex colName arrayLen tmpData = .ok xs) :
    xs = tmpData ∧ tmpData.length = arrayLen := by
  unfold checkLength at h
  split at h
  · cases h
  · rename_i hlen
    cases h
    exact ⟨rfl, not_not.mp hlen⟩

theorem loadColumn_eq_ok {ex : ArithmeticExecutor} {colNames : List Str} {arrayLen : Nat}
    {l l' : ColAndVal F} {col : ArrowColumn F}
    (h : loadColumn toDouble ex colNames arrayLen l col = .ok l') :
    Loadable toDouble ex arrayLen col ∧
      l' = ⟨insertAll l.int (entryOf ex false ColumnData.ints col).toList,
        insertAll l.double (entryOf ex true (ColumnData.doubles toDouble) col).toList⟩ := by
  unfold loadColumn at h
  split at h
  · rename_i hdtype
    cases h
    refine ⟨⟨by simp [hdtype], by simp [hdtype]⟩, ?_⟩
    simp [entryOf, hdtype, insertAll]
  · rename_i dtype hdtype
    split at h
    · cases h
    · obtain ⟨name, data⟩ := col
      cases dtype with
      | false =>
          cases data with
          | int64 chunks =>
              obtain ⟨xs, hxs, h⟩ := Fallible.bind_eq_ok.mp h
              obtain ⟨rfl, hlen⟩ := checkLength_eq_ok hxs
              cases h
              refine ⟨⟨fun _ => ⟨_, rfl, hlen⟩, by simp [hdtype]⟩, ?_⟩
              simp [entryOf, hdtype, insertAll, ColumnData.ints]
          | double chunks => cases h
          | other lengths => cases h
      | true =>
          cases data with
          | int64 chunks =>
              obtain ⟨xs, hxs, h⟩ := Fallible.bind_eq_ok.mp h
              obtain ⟨rfl, hlen⟩ := checkLength_eq_ok hxs
              cases h
              refine ⟨⟨by simp [hdtype], fun _ => ⟨_, rfl, hlen⟩⟩, ?_⟩
              simp [entryOf, hdtype, insertAll, ColumnData.doubles]
          | double chunks =>
              obtain ⟨xs, hxs, h⟩ := Fallible.bind_eq_ok.mp h
              obtain ⟨rfl, hlen⟩ := checkLength_eq_ok hxs
              cases h
              refine ⟨⟨by simp [hdtype], fun _ => ⟨_, rfl, hlen⟩⟩, ?_⟩
              simp [entryOf, hdtype, insertAll, ColumnData.doubles]
          | other lengths => cases h

theorem filterMap_cons_toList {α β : Type} (f : α → Option β) (a : α) (l : List α) :
    (a :: l).filterMap f = (f a).toList ++ l.filterMap f := by
  cases h : f a <;> simp [h]

/-- The loop reads every declared column of the table. -/
theorem foldlM_loadColumn {ex : ArithmeticExecutor} {colNames : List Str} {arrayLen : Nat}
    {l l' : ColAndVal F} {cols : List (ArrowColumn F)}
    (h : cols.foldlM (loadColumn toDouble ex colNames arrayLen) l = .ok l') :
    (∀ col ∈ cols, Loadable toDouble ex arrayLen col) ∧
      l' = ⟨insertAll l.int (cols.filterMap (entryOf ex false ColumnData.ints)),
        insertAll l.double (cols.filterMap (entryOf ex true (ColumnData.doubles toDouble)))⟩ := by
  induction cols generalizing l with
  | nil =>
      cases h
      exact ⟨by simp, rfl⟩
  | cons col cols ih =>
      obtain ⟨l₁, h₁, h⟩ := Fallible.foldlM_cons_eq_ok.mp h
      obtain ⟨hcol, rfl⟩ := loadColumn_eq_ok toDouble h₁
      obtain ⟨hcols, rfl⟩ := ih h
      refine ⟨by simpa using ⟨hcol, hcols⟩, ?_⟩
      simp only [filterMap_cons_toList, OrderedMap.insertAll_append]

/-- The values read of the table of a party. -/
def read (ex : ArithmeticExecutor) (table : List (ArrowColumn F)) : ColAndVal F :=
  ⟨insertAll [] (table.filterMap (entryOf ex false ColumnData.ints)),
    insertAll [] (table.filterMap (entryOf ex true (ColumnData.doubles toDouble)))⟩

theorem LoadDatasetFromCSV_eq_ok {ex : ArithmeticExecutor} {table : List (ArrowColumn F)}
    {ret : Int} {l : ColAndVal F} (h : LoadDatasetFromCSV toDouble ex table = .ok (ret, l)) :
    l = read toDouble ex table ∧ ∃ n, ∀ col ∈ table, Loadable toDouble ex n col := by
  unfold LoadDatasetFromCSV at h
  split at h
  · cases h
  · rename_i last _
    obtain ⟨l', hl, h⟩ := Fallible.bind_eq_ok.mp h
    have heq : l' = l := (Prod.mk.inj (Except.ok.inj h)).2
    obtain ⟨hcols, hread⟩ := foldlM_loadColumn toDouble hl
    exact ⟨heq ▸ hread, last.data.length, hcols⟩

theorem mem_entries {α : Type} {ex : ArithmeticExecutor} {table : List (ArrowColumn F)}
    {dtype : Bool} {values : ColumnData F → Option α} {x : Str} {xs : α} :
    (x, xs) ∈ table.filterMap (entryOf ex dtype values) ↔
      find? ex.colAndDtype x = some dtype ∧
        ∃ col ∈ table, col.name = x ∧ values col.data = some xs := by
  rw [List.mem_filterMap]
  unfold entryOf
  constructor
  · rintro ⟨col, hcol, h⟩
    split at h
    · rename_i hdtype
      obtain ⟨ys, hys, heq⟩ := Option.map_eq_some_iff.mp h
      cases heq
      exact ⟨hdtype, col, hcol, rfl, hys⟩
    · cases h
  · rintro ⟨hdtype, col, hcol, rfl, hxs⟩
    exact ⟨col, hcol, by rw [if_pos hdtype, hxs]; rfl⟩

/-- The column of a name. -/
def column? (table : List (ArrowColumn F)) (name : Str) : Option (ArrowColumn F) :=
  table.find? fun col => col.name = name

/-- Among the entries read of a type the first column of a name is found. -/
theorem find?_entries {α : Type} {ex : ArithmeticExecutor} {table : List (ArrowColumn F)}
    {dtype : Bool} {values : ColumnData F → Option α} {x : Str}
    (hvalues : ∀ col ∈ table, find? ex.colAndDtype col.name = some dtype →
      ∃ xs, values col.data = some xs)
    (hdtype : find? ex.colAndDtype x = some dtype) :
    find? (table.filterMap (entryOf ex dtype values)) x =
      (column? table x).bind fun col => values col.data := by
  induction table with
  | nil => rfl
  | cons col table ih =>
      have ih := ih fun col' hcol' => hvalues col' (List.mem_cons_of_mem col hcol')
      by_cases hname : col.name = x
      · subst hname
        obtain ⟨xs, hxs⟩ := hvalues col List.mem_cons_self hdtype
        have hentry : entryOf ex dtype values col = some (col.name, xs) := by
          rw [entryOf, if_pos hdtype, hxs]
          rfl
        simp [hentry, find?, column?, hxs]
      · have hcolumn : column? (col :: table) x = column? table x := by
          simp [column?, hname]
        rw [hcolumn, ← ih]
        cases hentry : entryOf ex dtype values col with
        | none => rw [List.filterMap_cons_none hentry]
        | some e =>
            have hkey : e.1 = col.name := by
              unfold entryOf at hentry
              split at hentry
              · obtain ⟨xs, _, rfl⟩ := Option.map_eq_some_iff.mp hentry
                rfl
              · cases hentry
            rw [List.filterMap_cons_some hentry, find?, if_neg]
            rw [hkey]
            exact Ne.symm hname

/-! ## What is imported -/

/-- Entries that are imported one after the other, where a step puts the value `g v` of a key
under `keep` into the map `proj d` and leaves the map alone for another key. -/
theorem importAll_eq_ok {α β : Type}
    {importOne : FeedDict F → Str → α → Except Fault (Int × FeedDict F)}
    (proj : FeedDict F → Entries Str β) (g : α → β) (keep : Str → Prop) [DecidablePred keep]
    (I : FeedDict F → Prop) {entries : Entries Str α} {d d' : FeedDict F}
    (hstep : ∀ e ∈ entries, ∀ d ret d', I d → importOne d e.1 e.2 = .ok (ret, d') →
      I d' ∧ proj d' = if keep e.1 then emplace (proj d) e.1 (g e.2) else proj d)
    (hI : I d) (h : importAll importOne entries d = .ok d') :
    I d' ∧ ∀ x, find? (proj d') x =
      (find? (proj d) x).or (if keep x then (find? entries x).map g else none) := by
  induction entries generalizing d with
  | nil =>
      cases h
      exact ⟨hI, by simp⟩
  | cons e entries ih =>
      obtain ⟨d₁, h₁, h⟩ := Fallible.foldlM_cons_eq_ok.mp h
      obtain ⟨r, hr, heq⟩ := Fallible.bind_eq_ok.mp h₁
      cases heq
      obtain ⟨hI₁, hproj⟩ := hstep e List.mem_cons_self d r.1 r.2 hI hr
      obtain ⟨hI', hfind⟩ := ih (fun e' he' => hstep e' (List.mem_cons_of_mem e he')) hI₁ h
      refine ⟨hI', fun x => ?_⟩
      rw [hfind x, hproj]
      obtain ⟨k, v⟩ := e
      by_cases hkeep : keep k
      · rw [if_pos hkeep, find?_emplace, find?]
        by_cases hx : x = k
        · subst hx
          cases find? (proj d) x <;> simp [hkeep]
        · rw [if_neg hx, if_neg hx]
      · rw [if_neg hkeep, find?]
        by_cases hx : x = k
        · subst hx
          simp [hkeep]
        · rw [if_neg hx]

namespace FeedDict

/-- What stays as it is while values of `n` rows are imported. -/
structure Ready (c : ColumnConfig) (floatRun : Bool) (n : Nat) (d : FeedDict F) : Prop where
  colConfig : d.colConfig = c
  floatRun : d.floatRun = floatRun
  valCount : d.valCount = -1 ∨ d.valCount = n

theorem setOrCheckValueCount_ready {c : ColumnConfig} {floatRun : Bool} {n : Nat}
    {d : FeedDict F} (h : Ready c floatRun n d) :
    d.setOrCheckValueCount n = (0, { d with valCount := n }) := by
  unfold setOrCheckValueCount
  rcases h.valCount with hcount | hcount
  · simp [hcount]
  · -- the count was set by a column before
    have hne : ¬ (n : Int) = -1 := by omega
    obtain ⟨c', b, v, m, m'⟩ := d
    cases hcount
    simp [hne]

theorem importDoubles_eq_ok {c : ColumnConfig} {n : Nat} {xs : List F} {d d' : FeedDict F}
    {name : Str} {ret : Int} (hd : Ready c true n d) (hlen : xs.length = n)
    (h : d.importDoubles name xs = .ok (ret, d')) :
    Ready c true n d' ∧ d'.fp64Col =
      if find? c.localCol name = some true then emplace d.fp64Col name xs else d.fp64Col := by
  obtain ⟨isLocal, hlocal, h⟩ := Fallible.bind_eq_ok.mp h
  rw [hd.colConfig, ColumnConfig.getColumnLocality] at hlocal
  split at hlocal
  · cases hlocal
  · rename_i b hfind
    cases hlocal
    rw [hfind]
    cases isLocal with
    | false =>
        cases h
        exact ⟨hd, rfl⟩
    | true =>
        simp only [hlen, setOrCheckValueCount_ready hd, hd.floatRun] at h
        by_cases hnew : (find? d.fp64Col name).isSome = true
        · simp [hnew, pure, Except.pure] at h
          obtain ⟨_, rfl⟩ := h
          refine ⟨⟨hd.colConfig, rfl, Or.inr rfl⟩, ?_⟩
          simp [emplace, hnew]
        · simp [hnew, pure, Except.pure] at h
          obtain ⟨_, rfl⟩ := h
          exact ⟨⟨hd.colConfig, rfl, Or.inr rfl⟩, by simp⟩

theorem importInts_eq_ok {c : ColumnConfig} {floatRun : Bool} {n : Nat} {xs : List I64}
    {d d' : FeedDict F} {name : Str} {ret : Int} (hd : Ready c floatRun n d)
    (hlen : xs.length = n) (hdtype : find? c.colDtype name = some .INT64)
    (h : d.importInts toDouble name xs = .ok (ret, d')) :
    Ready c floatRun n d' ∧
      (floatRun = true → d'.fp64Col = if find? c.localCol name = some true then
        emplace d.fp64Col name (xs.map toDouble) else d.fp64Col) ∧
      (floatRun = false → d'.int64Col = if find? c.localCol name = some true then
        emplace d.int64Col name xs else d.int64Col) := by
  obtain ⟨isLocal, hlocal, h⟩ := Fallible.bind_eq_ok.mp h
  have hlocal' : find? c.localCol name = some isLocal := by
    rw [hd.colConfig, ColumnConfig.getColumnLocality] at hlocal
    split at hlocal
    · cases hlocal
    · cases hlocal
      assumption
  rw [hlocal']
  cases isLocal with
  | false =>
      cases h
      exact ⟨hd, fun _ => rfl, fun _ => rfl⟩
  | true =>
      have hget : d.colConfig.getColumnDtype name = .ok (0, .INT64) := by
        rw [hd.colConfig, ColumnConfig.getColumnDtype, hdtype]
      have hready : Ready c floatRun n { d with valCount := n } :=
        ⟨hd.colConfig, hd.floatRun, Or.inr rfl⟩
      simp only [bind, Except.bind, Bool.true_eq_false, if_false, hget, ne_eq, not_true, hlen,
        setOrCheckValueCount_ready hd] at h
      cases floatRun with
      | true =>
          rw [if_pos hd.floatRun] at h
          obtain ⟨r, hr, h⟩ := Fallible.bind_eq_ok.mp h
          obtain ⟨hready', hcol⟩ :=
            importDoubles_eq_ok hready ((List.length_map ..).trans hlen) hr
          have heq : r.2 = d' := by
            split at h <;> cases h <;> rfl
          subst heq
          rw [hlocal'] at hcol
          exact ⟨hready', fun _ => hcol, by simp⟩
      | false =>
          rw [if_neg (by simp [hd.floatRun])] at h
          by_cases hnew : (find? d.int64Col name).isSome = true
          · rw [if_pos hnew] at h
            cases h
            exact ⟨hready, by simp, fun _ => by simp [emplace, hnew]⟩
          · rw [if_neg hnew] at h
            cases h
            exact ⟨⟨hd.colConfig, hd.floatRun, Or.inr rfl⟩, by simp, fun _ => by simp⟩

end FeedDict

/-! ## The column configuration -/

theorem foldlM_importColumnOwner_eq_ok {entries : Entries Str Party} {c c' : ColumnConfig}
    (h : entries.foldlM (fun c e => c.importColumnOwner e.1 e.2) c = .ok c') :
    c' = { c with colOwner := insertAll c.colOwner entries } := by
  induction entries generalizing c with
  | nil =>
      cases h
      rfl
  | cons e entries ih =>
      obtain ⟨c₁, h₁, h⟩ := Fallible.foldlM_cons_eq_ok.mp h
      unfold ColumnConfig.importColumnOwner at h₁
      split at h₁
      · cases h₁
      · cases h₁
        exact ih h

theorem foldl_importColumnDtype_entries (entries : Entries Str Bool) (c : ColumnConfig) :
    entries.foldl (fun c e => (c.importColumnDtype e.1 (if e.2 then .FP64 else .INT64)).2) c =
      { c with
        colDtype := insertAll c.colDtype
          (entries.map fun e => (e.1, if e.2 then .FP64 else .INT64)) } := by
  induction entries generalizing c with
  | nil => rfl
  | cons e entries ih =>
      rw [List.foldl_cons, importColumnDtype_snd, ih]
      rfl

/-- The configuration before the localities are resolved. -/
def importedConfig (ex : ArithmeticExecutor) : ColumnConfig where
  partyId := ex.partyId
  colOwner := insertAll [] ex.colAndOwner
  colDtype := insertAll [] (ex.colAndDtype.map fun e => (e.1, if e.2 then .FP64 else .INT64))
  localCol := []

theorem importConfig_eq_ok {ex : ArithmeticExecutor} {c : ColumnConfig}
    (h : importConfig ex = .ok c) : c = importedConfig ex := by
  obtain ⟨c₁, h₁, h⟩ := Fallible.bind_eq_ok.mp h
  cases h
  rw [foldl_importColumnDtype_entries, foldlM_importColumnOwner_eq_ok h₁]
  rfl

theorem importedConfig_dtype (ex : ArithmeticExecutor) (x : Str) :
    find? (importedConfig ex).colDtype x =
      (find? ex.colAndDtype x).map fun b => if b then .FP64 else .INT64 := by
  show find? (insertAll [] _) x = _
  rw [find?_insertAll]
  exact find?_map_snd (fun b : Bool => if b then ColDtype.FP64 else ColDtype.INT64) _ _

theorem importedConfig_hasFP64Column {ex : ArithmeticExecutor} {x : Str}
    (h : find? ex.colAndDtype x = some true) : (importedConfig ex).hasFP64Column = true := by
  have hdtype : find? (importedConfig ex).colDtype x = some .FP64 := by
    rw [importedConfig_dtype, h]
    rfl
  rw [ColumnConfig.hasFP64Column, List.any_eq_true]
  exact ⟨(x, .FP64), OrderedMap.mem_of_find?_eq_some hdtype, rfl⟩

theorem resolveRunMode_eq_ok {c c' : ColumnConfig} {toks : List Str}
    {tm : Entries Str TokenType} {fp64Run : Bool}
    (h : resolveRunMode c toks = .ok (c', tm, fp64Run)) :
    c' = { c with
      localCol := insertAll c.localCol (c.colOwner.map fun e => (e.1, e.2 == c.partyId)) } ∧
    (c.hasFP64Column = true → fp64Run = true) ∧
    ∀ token ∈ toks, isOperatorStr token = false → (find? c.colDtype token).isSome = true := by
  obtain ⟨c₁, h₁, h⟩ := Fallible.bind_eq_ok.mp h
  obtain ⟨m, hm, h⟩ := Fallible.bind_eq_ok.mp h
  cases h
  unfold ColumnConfig.resolveLocalColumn at h₁
  split at h₁
  · cases h₁
  · split at h₁
    · cases h₁
    · cases h₁
      refine ⟨rfl, ?_, ?_⟩
      · intro hfp64
        have hfp64' : c.colDtype.any (fun e => e.2 == .FP64) = true := hfp64
        simp [ColumnConfig.hasFP64Column, hfp64']
      · intro token htoken hop
        obtain ⟨s, s', hs⟩ := Fallible.ok_of_foldlM hm htoken
        rw [resolveToken, if_neg (by simp [hop])] at hs
        obtain ⟨dtype, hdtype, _⟩ := Fallible.bind_eq_ok.mp hs
        unfold ColumnConfig.getColumnDtype at hdtype
        split at hdtype
        · cases hdtype
        · rename_i hfind
          exact Option.isSome_of_eq_some hfind

/-! ## The values in the feed dictionary -/

/-- What `loadDataset` leaves for the evaluation. -/
structure Loaded (ex : ArithmeticExecutor) (table : List (ArrowColumn F)) (d : FeedDict F) :
    Prop where
  loadable : ∃ n, ∀ col ∈ table, Loadable toDouble ex n col
  localCol : ∀ x, find? d.colConfig.localCol x =
    (find? ex.colAndOwner x).map (· == ex.partyId)
  dtype : ∀ token, Referenced ex token → (find? ex.colAndDtype token).isSome = true
  floatRun : ∀ x, find? ex.colAndDtype x = some true → d.floatRun = true
  fp64Col : d.floatRun = true → ∀ x, find? d.colConfig.localCol x = some true →
    find? d.fp64Col x = if (read toDouble ex table).double.length ≠ 0 then
        find? (read toDouble ex table).double x
      else (find? (read toDouble ex table).int x).map (List.map toDouble)
  int64Col : d.floatRun = false → ∀ x, find? d.colConfig.localCol x = some true →
    find? d.int64Col x = find? (read toDouble ex table).int x

theorem find?_read_int (ex : ArithmeticExecutor) (table : List (ArrowColumn F)) (x : Str) :
    find? (read toDouble ex table).int x =
      find? (table.filterMap (entryOf ex false ColumnData.ints)) x := by
  show find? (insertAll [] _) x = _
  rw [find?_insertAll]
  rfl

theorem find?_read_double (ex : ArithmeticExecutor) (table : List (ArrowColumn F)) (x : Str) :
    find? (read toDouble ex table).double x =
      find? (table.filterMap (entryOf ex true (ColumnData.doubles toDouble))) x := by
  show find? (insertAll [] _) x = _
  rw [find?_insertAll]
  rfl

theorem find?_read_int' {ex : ArithmeticExecutor} {table : List (ArrowColumn F)} {n : Nat}
    (hloadable : ∀ col ∈ table, Loadable toDouble ex n col) {x : Str}
    (hdtype : find? ex.colAndDtype x = some false) :
    find? (read toDouble ex table).int x = (column? table x).bind fun col => col.data.ints := by
  rw [find?_read_int]
  refine find?_entries (fun col hcol h => ?_) hdtype
  obtain ⟨xs, hxs, _⟩ := (hloadable col hcol).ints h
  exact ⟨xs, hxs⟩

theorem find?_read_double' {ex : ArithmeticExecutor} {table : List (ArrowColumn F)} {n : Nat}
    (hloadable : ∀ col ∈ table, Loadable toDouble ex n col) {x : Str}
    (hdtype : find? ex.colAndDtype x = some true) :
    find? (read toDouble ex table).double x =
      (column? table x).bind fun col => col.data.doubles toDouble := by
  rw [find?_read_double]
  refine find?_entries (fun col hcol h => ?_) hdtype
  obtain ⟨xs, hxs, _⟩ := (hloadable col hcol).doubles h
  exact ⟨xs, hxs⟩

theorem find?_read_double_eq_none {ex : ArithmeticExecutor} {table : List (ArrowColumn F)}
    {x : Str} (h : find? ex.colAndDtype x ≠ some true) :
    find? (read toDouble ex table).double x = none := by
  rw [find?_read_double]
  cases hfind : find? (table.filterMap (entryOf ex true (ColumnData.doubles toDouble))) x with
  | none => rfl
  | some xs => exact absurd (mem_entries.mp (OrderedMap.mem_of_find?_eq_some hfind)).1 h

/-- The entries read of a type have the length and the type of their columns. -/
theorem length_of_mem_read_int {ex : ArithmeticExecutor} {table : List (ArrowColumn F)} {n : Nat}
    (hloadable : ∀ col ∈ table, Loadable toDouble ex n col) :
    ∀ e ∈ (read toDouble ex table).int,
      find? ex.colAndDtype e.1 = some false ∧ e.2.length = n := by
  rintro ⟨x, xs⟩ he
  obtain ⟨hdtype, col, hcol, rfl, hxs⟩ :=
    mem_entries.mp ((OrderedMap.mem_insertAll he).resolve_left List.not_mem_nil)
  obtain ⟨ys, hys, hlen⟩ := (hloadable col hcol).ints hdtype
  rw [hys] at hxs
  cases hxs
  exact ⟨hdtype, hlen⟩

theorem length_of_mem_read_double {ex : ArithmeticExecutor} {table : List (ArrowColumn F)}
    {n : Nat} (hloadable : ∀ col ∈ table, Loadable toDouble ex n col) :
    ∀ e ∈ (read toDouble ex table).double,
      find? ex.colAndDtype e.1 = some true ∧ e.2.length = n := by
  rintro ⟨x, xs⟩ he
  obtain ⟨hdtype, col, hcol, rfl, hxs⟩ :=
    mem_entries.mp ((OrderedMap.mem_insertAll he).resolve_left List.not_mem_nil)
  obtain ⟨ys, hys, hlen⟩ := (hloadable col hcol).doubles hdtype
  rw [hys] at hxs
  cases hxs
  exact ⟨hdtype, hlen⟩

theorem importAll_doubles {ex : ArithmeticExecutor} {table : List (ArrowColumn F)} {n : Nat}
    {c : ColumnConfig} {d : FeedDict F} (hloadable : ∀ col ∈ table, Loadable toDouble ex n col)
    (h : importAll FeedDict.importDoubles (read toDouble ex table).double (.new c true) = .ok d) :
    FeedDict.Ready c true n d ∧ ∀ x, find? c.localCol x = some true →
      find? d.fp64Col x = find? (read toDouble ex table).double x := by
  have hmem := length_of_mem_read_double toDouble hloadable
  obtain ⟨hready, hfind⟩ := importAll_eq_ok FeedDict.fp64Col id
    (fun x => find? c.localCol x = some true) (FeedDict.Ready c true n)
    (fun e he d ret d' hd h => FeedDict.importDoubles_eq_ok hd (hmem e he).2 h)
    ⟨rfl, rfl, Or.inl rfl⟩ h
  refine ⟨hready, fun x hx => ?_⟩
  rw [hfind x, if_pos hx, Option.map_id]
  rfl

theorem importAll_ints {ex : ArithmeticExecutor} {table : List (ArrowColumn F)} {n : Nat}
    {c : ColumnConfig} {floatRun : Bool} {d : FeedDict F}
    (hloadable : ∀ col ∈ table, Loadable toDouble ex n col)
    (hdtype : ∀ x, find? ex.colAndDtype x = some false → find? c.colDtype x = some .INT64)
    (h : importAll (FeedDict.importInts toDouble) (read toDouble ex table).int
      (.new c floatRun) = .ok d) :
    FeedDict.Ready c floatRun n d ∧ ∀ x, find? c.localCol x = some true →
      (floatRun = true → find? d.fp64Col x =
        (find? (read toDouble ex table).int x).map (List.map toDouble)) ∧
      (floatRun = false → find? d.int64Col x = find? (read toDouble ex table).int x) := by
  have hmem := length_of_mem_read_int toDouble hloadable
  have hstep := fun (e : Str × List I64) (he : e ∈ (read toDouble ex table).int)
      (d : FeedDict F) (ret : Int) (d' : FeedDict F) (hd : FeedDict.Ready c floatRun n d)
      (h : d.importInts toDouble e.1 e.2 = .ok (ret, d')) =>
    FeedDict.importInts_eq_ok toDouble hd (hmem e he).2 (hdtype e.1 (hmem e he).1) h
  cases floatRun with
  | true =>
      obtain ⟨hready, hfind⟩ := importAll_eq_ok FeedDict.fp64Col (List.map toDouble)
        (fun x => find? c.localCol x = some true) (FeedDict.Ready c true n)
        (fun e he d ret d' hd h => (hstep e he d ret d' hd h).imp_right fun h => h.1 rfl)
        ⟨rfl, rfl, Or.inl rfl⟩ h
      refine ⟨hready, fun x hx => ⟨fun _ => ?_, by simp⟩⟩
      rw [hfind x, if_pos hx]
      rfl
  | false =>
      obtain ⟨hready, hfind⟩ := importAll_eq_ok FeedDict.int64Col id
        (fun x => find? c.localCol x = some true) (FeedDict.Ready c false n)
        (fun e he d ret d' hd h => (hstep e he d ret d' hd h).imp_right fun h => h.2 rfl)
        ⟨rfl, rfl, Or.inl rfl⟩ h
      refine ⟨hready, fun x hx => ⟨by simp, fun _ => ?_⟩⟩
      rw [hfind x, if_pos hx, Option.map_id]
      rfl

/-- Columns are read as doubles exactly when one is declared so. -/
theorem read_double_length_ne_zero_iff {ex : ArithmeticExecutor} {table : List (ArrowColumn F)}
    {n : Nat} (hloadable : ∀ col ∈ table, Loadable toDouble ex n col) :
    (read toDouble ex table).double.length ≠ 0 ↔
      ∃ col ∈ table, find? ex.colAndDtype col.name = some true := by
  constructor
  · intro h
    obtain ⟨⟨x, xs⟩, he⟩ := List.exists_mem_of_length_pos (Nat.pos_of_ne_zero h)
    obtain ⟨hdtype, col, hcol, rfl, _⟩ :=
      mem_entries.mp ((OrderedMap.mem_insertAll he).resolve_left List.not_mem_nil)
    exact ⟨col, hcol, hdtype⟩
  · rintro ⟨col, hcol, hdtype⟩ hlen
    obtain ⟨xs, hxs, _⟩ := (hloadable col hcol).doubles hdtype
    have hmem : (col.name, xs) ∈
        table.filterMap (entryOf ex true (ColumnData.doubles toDouble)) :=
      mem_entries.mpr ⟨hdtype, col, hcol, rfl, hxs⟩
    have hnone : find? (read toDouble ex table).double col.name = none := by
      rw [List.length_eq_zero_iff.mp hlen]
      rfl
    rw [find?_read_double, OrderedMap.find?_eq_none_iff] at hnone
    exact hnone (List.mem_map_of_mem hmem)

theorem loaded_of_loadDataset {ex : ArithmeticExecutor} {table : List (ArrowColumn F)}
    {r : Prepared F} (h : loadDataset toDouble ex table = .ok (some r)) :
    Loaded toDouble ex table r.feedDict := by
  obtain ⟨⟨ret, l⟩, hl, h⟩ := Fallible.bind_eq_ok.mp h
  obtain ⟨rfl, n, hloadable⟩ := LoadDatasetFromCSV_eq_ok toDouble hl
  have hret : ¬ ret ≤ 0 := by
    intro hret
    simp only [hret, if_true] at h
    cases h
  simp only [hret, if_false] at h
  obtain ⟨c, hc, h⟩ := Fallible.bind_eq_ok.mp h
  cases importConfig_eq_ok hc
  split at h
  · cases h
  rename_i code m himport
  obtain ⟨⟨c, tm, fp64Run⟩, hmode, h⟩ := Fallible.bind_eq_ok.mp h
  obtain ⟨hc', hrun, htokens⟩ := resolveRunMode_eq_ok hmode
  have hlocal : ∀ x, find? c.localCol x = (find? ex.colAndOwner x).map (· == ex.partyId) := by
    intro x
    rw [hc', find?_insertAll, find?_map_snd (fun o => o == (importedConfig ex).partyId)]
    show (find? (insertAll [] ex.colAndOwner) x).map _ = _
    rw [find?_insertAll]
    rfl
  have hcDtype : ∀ x, find? c.colDtype x =
      (find? ex.colAndDtype x).map fun b => if b then .FP64 else .INT64 := by
    intro x
    rw [hc']
    exact importedConfig_dtype ex x
  have hfloat : ∀ x, find? ex.colAndDtype x = some true → fp64Run = true :=
    fun x hx => hrun (importedConfig_hasFP64Column hx)
  have hreferenced : ∀ token, Referenced ex token →
      (find? ex.colAndDtype token).isSome = true := by
    rintro token ⟨code', m', himport', htoken, hop⟩
    rw [himport] at himport'
    cases himport'
    have hdtype := htokens token htoken hop
    rwa [importedConfig_dtype, Option.isSome_map] at hdtype
  by_cases hdouble : (read toDouble ex table).double.length ≠ 0
  · rw [if_pos hdouble] at h
    obtain ⟨d, hd, h⟩ := Fallible.bind_eq_ok.mp h
    cases h
    obtain ⟨col, _, hcol⟩ := (read_double_length_ne_zero_iff toDouble hloadable).mp hdouble
    cases hfloat col.name hcol
    obtain ⟨hready, hfp64⟩ := importAll_doubles toDouble hloadable hd
    refine ⟨⟨n, hloadable⟩, ?_, hreferenced, fun _ _ => hready.floatRun, ?_, ?_⟩
    · show ∀ x, find? d.colConfig.localCol x = _
      rw [hready.colConfig]
      exact hlocal
    · intro _ x hx
      rw [if_pos hdouble]
      exact hfp64 x (hready.colConfig ▸ hx)
    · intro hfalse
      exact absurd (hready.floatRun.symm.trans hfalse) Bool.true_eq_false.mp
  · rw [if_neg hdouble] at h
    obtain ⟨d, hd, h⟩ := Fallible.bind_eq_ok.mp h
    cases h
    have hint : ∀ x, find? ex.colAndDtype x = some false →
        find? c.colDtype x = some .INT64 := by
      intro x hx
      rw [hcDtype, hx]
      rfl
    obtain ⟨hready, hcols⟩ := importAll_ints toDouble hloadable hint hd
    refine ⟨⟨n, hloadable⟩, ?_, hreferenced, ?_, ?_, ?_⟩
    · show ∀ x, find? d.colConfig.localCol x = _
      rw [hready.colConfig]
      exact hlocal
    · intro x hx
      exact hready.floatRun.trans (hfloat x hx)
    · intro hfp64 x hx
      rw [if_neg hdouble]
      exact (hcols x (hready.colConfig ▸ hx)).1 (hready.floatRun.symm.trans hfp64)
    · intro hi64 x hx
      exact (hcols x (hready.colConfig ▸ hx)).2 (hready.floatRun.symm.trans hi64)

/-! ## Every local column of the expression -/

theorem createColumnValue_fp64 {d : FeedDict F} {x : Str}
    (hlocal : find? d.colConfig.localCol x = some true) (hrun : d.floatRun = true) :
    createColumnValue d x = .ok (match find? d.fp64Col x with
      | some xs => .ok (.fp64Vec xs)
      | none => .error (-2)) := by
  cases h : find? d.fp64Col x <;>
    simp [createColumnValue, FeedDict.getDoubles, ColumnConfig.getColumnLocality, hlocal, hrun, h,
      bind, Except.bind, pure, Except.pure]

theorem createColumnValue_i64 {d : FeedDict F} {x : Str}
    (hlocal : find? d.colConfig.localCol x = some true) (hrun : d.floatRun = false) :
    createColumnValue d x = .ok (match find? d.int64Col x with
      | some xs => .ok (.i64Vec xs)
      | none => .error (-2)) := by
  cases h : find? d.int64Col x <;>
    simp [createColumnValue, FeedDict.getInts, ColumnConfig.getColumnLocality, hlocal, hrun, h,
      bind, Except.bind, pure, Except.pure]

theorem doubles_of_ints {data : ColumnData F} {xs : List I64} (h : data.ints = some xs) :
    data.doubles toDouble = some (xs.map toDouble) := by
  cases data with
  | int64 chunks =>
      cases h
      rfl
  | double chunks => cases h
  | other lengths => cases h

theorem column?_of_mem {table : List (ArrowColumn F)} {col : ArrowColumn F} (h : col ∈ table) :
    ∃ col', column? table col.name = some col' ∧ col' ∈ table ∧ col'.name = col.name := by
  cases hfind : column? table col.name with
  | none => exact absurd (List.find?_eq_none.mp hfind col h) (by simp)
  | some col' =>
      exact ⟨col', rfl, List.mem_of_find?_eq_some hfind, by simpa using List.find?_some hfind⟩

theorem tokensLoaded_of_complete {ex : ArithmeticExecutor} {table : List (ArrowColumn F)}
    {d : FeedDict F} (h : Loaded toDouble ex table d) (hcomplete : Complete ex table) :
    TokensLoaded toDouble ex table d := by
  intro token href howner
  obtain ⟨⟨col₀, hcol₀, rfl⟩, htype⟩ := hcomplete token href howner
  obtain ⟨n, hloadable⟩ := h.loadable
  have hlocal : find? d.colConfig.localCol col₀.name = some true := by
    rw [h.localCol, howner]
    simp
  obtain ⟨col, hfind, hcol, hname⟩ := column?_of_mem hcol₀
  obtain ⟨dtype, hdtype⟩ := Option.isSome_iff_exists.mp (h.dtype col₀.name href)
  cases dtype with
  | true =>
      -- a column declared as double is read and imported as such
      have hrun := h.floatRun col₀.name hdtype
      obtain ⟨xs, hxs, _⟩ := (hloadable col hcol).doubles (hname ▸ hdtype)
      have hdouble :=
        (read_double_length_ne_zero_iff toDouble hloadable).mpr ⟨col₀, hcol₀, hdtype⟩
      have hvalues : find? d.fp64Col col₀.name = some xs := by
        rw [h.fp64Col hrun col₀.name hlocal, if_pos hdouble, find?_read_double' toDouble
          hloadable hdtype, hfind]
        exact hxs
      refine ⟨col, hcol, hname, .fp64Vec xs, ?_, ?_⟩
      · rw [ColumnData.inMode, if_pos hrun, hxs]
        rfl
      · rw [createColumnValue_fp64 hlocal hrun, hvalues]
  | false =>
      have hnone : ¬ (read toDouble ex table).double.length ≠ 0 := by
        rw [read_double_length_ne_zero_iff toDouble hloadable]
        rintro ⟨col₂, hcol₂, hdtype₂⟩
        rcases htype with htype | htype
        · rw [hdtype] at htype
          cases htype
        · exact htype col₂ hcol₂ hdtype₂
      obtain ⟨xs, hxs, _⟩ := (hloadable col hcol).ints (hname ▸ hdtype)
      have hread : find? (read toDouble ex table).int col₀.name = some xs := by
        rw [find?_read_int' toDouble hloadable hdtype, hfind]
        exact hxs
      cases hrun : d.floatRun with
      | true =>
          have hvalues : find? d.fp64Col col₀.name = some (xs.map toDouble) := by
            rw [h.fp64Col hrun col₀.name hlocal, if_neg hnone, hread]
            rfl
          refine ⟨col, hcol, hname, .fp64Vec (xs.map toDouble), ?_, ?_⟩
          · rw [ColumnData.inMode, if_pos rfl, doubles_of_ints toDouble hxs]
            rfl
          · rw [createColumnValue_fp64 hlocal hrun, hvalues]
      | false =>
          have hvalues : find? d.int64Col col₀.name = some xs := by
            rw [h.int64Col hrun col₀.name hlocal, hread]
          refine ⟨col, hcol, hname, .i64Vec xs, ?_, ?_⟩
          · rw [ColumnData.inMode, if_neg Bool.false_ne_true, hxs]
            rfl
          · rw [createColumnValue_i64 hlocal hrun, hvalues]

theorem complete_of_tokensLoaded {ex : ArithmeticExecutor} {table : List (ArrowColumn F)}
    {d : FeedDict F} (h : Loaded toDouble ex table d)
    (hloaded : TokensLoaded toDouble ex table d) : Complete ex table := by
  intro token href howner
  obtain ⟨col, hcol, hname, v, _, hv⟩ := hloaded token href howner
  refine ⟨⟨col, hcol, hname⟩, ?_⟩
  by_contra hcontra
  obtain ⟨htoken, hdouble⟩ := not_or.mp hcontra
  push Not at hdouble
  -- a column is declared as double, so this token has no values among the doubles
  obtain ⟨n, hloadable⟩ := h.loadable
  obtain ⟨col₂, hcol₂, hdtype₂⟩ := hdouble
  have hlocal : find? d.colConfig.localCol token = some true := by
    rw [h.localCol, howner]
    simp
  have hrun := h.floatRun col₂.name hdtype₂
  have hread := (read_double_length_ne_zero_iff toDouble hloadable).mpr ⟨col₂, hcol₂, hdtype₂⟩
  have hnone : find? (read toDouble ex table).double token = none :=
    find?_read_double_eq_none toDouble htoken
  rw [createColumnValue_fp64 hlocal hrun, h.fp64Col hrun token hlocal, if_pos hread, hnone] at hv
  cases hv

/-- A party that has loaded its dataset has the values of its columns of the expression in the
representation of the run mode exactly when its table has those columns and they are all
declared as double if one of the table is. -/
theorem tokensLoaded_iff {ex : ArithmeticExecutor} {table : List (ArrowColumn F)}
    {r : Prepared F} (h : loadDataset toDouble ex table = .ok (some r)) :
    TokensLoaded toDouble ex table r.feedDict ↔ Complete ex table :=
  ⟨complete_of_tokensLoaded toDouble (loaded_of_loadDataset toDouble h),
    tokensLoaded_of_complete toDouble (loaded_of_loadDataset toDouble h)⟩

/-- The first party of a sum of its two columns; the second is declared with the given type. -/
def twoColumns (dtype : Bool) : ArithmeticExecutor where
  partyId := 0
  partyName := ['p']
  colAndOwner := [(['A'], 0), (['B'], 0)]
  colAndDtype := [(['A'], false), (['B'], dtype)]
  expr := ['A', '+', 'B']

/-- Its table of one row, with integers for doubles. -/
def oneRow (dtype : Bool) : List (ArrowColumn Int) :=
  [⟨['A'], .int64 [[1]]⟩, ⟨['B'], if dtype then .double [[2]] else .int64 [[2]]⟩]

theorem twoColumns_loads (dtype : Bool) :
    ∃ r, loadDataset BitVec.toInt (twoColumns dtype) (oneRow dtype) = .ok (some r) := by
  have h : ((loadDataset BitVec.toInt (twoColumns dtype) (oneRow dtype)).toOption.bind id).isSome =
      true := by
    cases dtype <;> decide +kernel
  cases hload : loadDataset BitVec.toInt (twoColumns dtype) (oneRow dtype) with
  | error e =>
      rw [hload] at h
      cases h
  | ok r =>
      rw [hload] at h
      exact ⟨_, congrArg Except.ok (Option.some_get h).symm⟩

theorem twoColumns_import (dtype : Bool) : importExpress .new (twoColumns dtype).expr =
    some (0, { suffixStk := [['A'], ['B'], ['+']], expr := ['A', '+', 'B'] }) := by
  show importExpress .new ['A', '+', 'B'] = _
  decide

theorem tokensLoaded_twoColumns :
    ∃ r, loadDataset BitVec.toInt (twoColumns false) (oneRow false) = .ok (some r) ∧
      TokensLoaded BitVec.toInt (twoColumns false) (oneRow false) r.feedDict := by
  obtain ⟨r, hr⟩ := twoColumns_loads false
  refine ⟨r, hr, (tokensLoaded_iff BitVec.toInt hr).mpr ?_⟩
  rintro token ⟨ret, m, himport, htoken, hop⟩ _
  rw [twoColumns_import] at himport
  cases himport
  refine ⟨?_, Or.inr (by decide)⟩
  simp only [List.mem_cons, List.not_mem_nil, or_false] at htoken
  rcases htoken with rfl | rfl | rfl
  · exact ⟨⟨['A'], .int64 [[1]]⟩, List.mem_cons_self, rfl⟩
  · exact ⟨⟨['B'], .int64 [[2]]⟩, List.mem_cons_of_mem _ List.mem_cons_self, rfl⟩
  · exact absurd hop (by decide)

/-- A party with an integer column and a double column imports only the doubles. -/
theorem not_tokensLoaded : ¬ ∀ (ex : ArithmeticExecutor) (table : List (ArrowColumn Int))
    (r : Prepared Int), loadDataset BitVec.toInt ex table = .ok (some r) →
      TokensLoaded BitVec.toInt ex table r.feedDict := by
  intro h
  obtain ⟨r, hr⟩ := twoColumns_loads true
  have href : Referenced (twoColumns true) ['A'] :=
    ⟨0, _, twoColumns_import true, by decide, by decide⟩
  have hcomplete := complete_of_tokensLoaded BitVec.toInt
    (loaded_of_loadDataset BitVec.toInt hr) (h _ _ r hr) ['A'] href (by decide)
  exact absurd hcomplete.2 (by decide)

end Fediux.Arithmetic
