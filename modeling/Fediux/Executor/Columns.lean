import Fediux.Basic.Fallible
import Fediux.Basic.OrderedMap
import Fediux.Executor.ParseExpress
import Fediux.Operator.MPCOperator

set_option autoImplicit false

/-! # Columns of an expression task

The classes `ColumnConfig` and `FeedDict` of `executor/express.cc` and the first five method
groups of `MPCExpressExecutor`: a party imports the type and the owner of every column, the
expression, and the values of its own columns. The model covers the 64-bit integer run mode;
`resolveRunMode` decides the mode, and a floating-point run stops with `Fault.fp64Run`.
-/

namespace Fediux.Express

open OrderedMap (Entries find? emplace insertAll find?_insertAll)
open Replicated (Party)

/-! ## `ColumnConfig` -/

inductive ColDtype where
  | INT64
  | FP64
  deriving DecidableEq, Repr

structure ColumnConfig where
  partyId : Party
  colOwner : Entries Str Party
  colDtype : Entries Str ColDtype
  localCol : Entries Str Bool
  deriving DecidableEq, Repr

namespace ColumnConfig

def new (partyId : Party) : ColumnConfig :=
  { partyId := partyId, colOwner := [], colDtype := [], localCol := [] }

def importColumnDtype (c : ColumnConfig) (colName : Str) (dtype : ColDtype) :
    Int × ColumnConfig :=
  if (find? c.colDtype colName).isSome then (-1, c)
  else (0, { c with colDtype := emplace c.colDtype colName dtype })

def importColumnOwner (c : ColumnConfig) (colName : Str) (partyId : Party) :
    Except Fault ColumnConfig :=
  match find? c.colOwner colName with
  | some owner => .error (.exception ("Column " ++ String.ofList colName ++
      "'s owner attr is imported, value is " ++ toString owner.val ++ "."))
  | none => .ok { c with colOwner := emplace c.colOwner colName partyId }

/-- A column without a type is an exception, not a return code. -/
def getColumnDtype (c : ColumnConfig) (colName : Str) : Except Fault (Int × ColDtype) :=
  match find? c.colDtype colName with
  | none => .error (.exception ("Can't find dtype attr for column " ++
      String.ofList colName ++ "."))
  | some dtype => .ok (0, dtype)

def resolveLocalColumn (c : ColumnConfig) : Except Fault ColumnConfig :=
  if c.colDtype.length ≠ c.colOwner.length then
    .error (.exception ("Count of owner attr and dtype attr must be the same." ++
      "col_dtype size: " ++ toString c.colDtype.length ++ " " ++
      "col_owner size: " ++ toString c.colOwner.length))
  else
    match c.colOwner.find? fun e => (find? c.colDtype e.1).isNone with
    | some e => .error (.exception ("Import column " ++ String.ofList e.1 ++
        "'s owner attr, but don't import it's dtype attr."))
    | none => .ok { c with
        localCol := insertAll c.localCol (c.colOwner.map fun e => (e.1, e.2 == c.partyId)) }

def getColumnLocality (c : ColumnConfig) (colName : Str) : Except Fault Bool :=
  match find? c.localCol colName with
  | none => .error (.exception ("Can't find column locality by column name " ++
      String.ofList colName ++ "."))
  | some isLocal => .ok isLocal

def hasFP64Column (c : ColumnConfig) : Bool := c.colDtype.any fun e => e.2 == .FP64

end ColumnConfig

/-! ## `FeedDict` -/

/-- The values of the local columns; `valCount` is `-1` until a column is imported. -/
structure FeedDict where
  colConfig : ColumnConfig
  valCount : Int
  int64Col : Entries Str (List I64)
  deriving DecidableEq, Repr

namespace FeedDict

def new (colConfig : ColumnConfig) : FeedDict :=
  { colConfig := colConfig, valCount := -1, int64Col := [] }

def setOrCheckValueCount (d : FeedDict) (newCount : Int) : Int × FeedDict :=
  let d := if d.valCount = -1 then { d with valCount := newCount } else d
  if d.valCount ≠ newCount then (-1, d) else (0, d)

def importColumnValues (d : FeedDict) (colName : Str) (int64Vec : List I64) :
    Except Fault (Int × FeedDict) := do
  let isLocal ← d.colConfig.getColumnLocality colName
  if isLocal = false then return (-1, d)
  let (_, dtype) ← d.colConfig.getColumnDtype colName
  if dtype ≠ .INT64 then return (-2, d)
  -- the first column sets the count, the others are compared with it
  let (ret, d) := d.setOrCheckValueCount int64Vec.length
  if ret ≠ 0 then return (-2, d)
  if (find? d.int64Col colName).isSome then return (-4, d)
  return (0, { d with int64Col := emplace d.int64Col colName int64Vec })

/-- The values, or the return code. -/
def getColumnValues (d : FeedDict) (colName : Str) :
    Except Fault (Except Int (List I64)) := do
  let isLocal ← d.colConfig.getColumnLocality colName
  if isLocal = false then return .error (-1)
  match find? d.int64Col colName with
  | none => return .error (-2)
  | some colVec => return .ok colVec

/-- `static_cast<uint32_t>(val_count_)`. -/
def getColumnValuesCount (d : FeedDict) : Nat := (d.valCount % 2 ^ 32).toNat

end FeedDict

/-! ## `MPCExpressExecutor` up to the evaluation -/

inductive TokenType where
  | COLUMN
  | VALUE
  deriving DecidableEq, Repr

/-- What the loop of `resolveRunMode` collects. -/
structure RunMode where
  hasDivOp : Bool
  hasFp64Val : Bool
  tokenTypeMap : Entries Str TokenType

def resolveToken (c : ColumnConfig) (m : RunMode) (token : Str) : Except Fault RunMode :=
  if isOperatorStr token then .ok { m with hasDivOp := m.hasDivOp || token == ['/'] }
  else do
    let (ret, _) ← c.getColumnDtype token
    if ret = 0 then
      return { m with tokenTypeMap := emplace m.tokenTypeMap token .COLUMN }
    -- never reached: `getColumnDtype` has thrown
    return { m with
      tokenTypeMap := emplace m.tokenTypeMap token .VALUE
      hasFp64Val := m.hasFp64Val || token.contains '.' }

/-- `resolveRunMode`: the column configuration with its localities, `token_type_map_` and
`fp64_run_`. -/
def resolveRunMode (c : ColumnConfig) (suffixStk : List Str) :
    Except Fault (ColumnConfig × Entries Str TokenType × Bool) := do
  let c ← c.resolveLocalColumn
  let m ← suffixStk.foldlM (resolveToken c) ⟨false, false, []⟩
  return (c, m.tokenTypeMap, m.hasDivOp || c.hasFP64Column || m.hasFp64Val)

/-- The members of the executor once its columns are imported. -/
structure Executor where
  partyId : Party
  expr : Str
  suffixStk : List Str
  colConfig : ColumnConfig
  feedDict : FeedDict
  tokenTypeMap : Entries Str TokenType
  deriving DecidableEq, Repr

/-! ## Tables -/

structure Column where
  name : Str
  owner : Party
  values : List I64
  deriving DecidableEq, Repr

/-- The columns of a task, with distinct names and the same number of rows. -/
structure Table where
  columns : List Column
  rows : Nat
  nodup : (columns.map Column.name).Nodup
  length_eq : ∀ c ∈ columns, c.values.length = rows

/-- `initColumnConfig`, then every column's owner and type. -/
def importColumns (t : Table) (p : Party) : Except Fault ColumnConfig := do
  let c ← t.columns.foldlM (fun c col => c.importColumnOwner col.name col.owner)
    (ColumnConfig.new p)
  return t.columns.foldl (fun c col => (c.importColumnDtype col.name .INT64).2) c

/-- `importColumnValues` for each of the given columns; the callers ignore return codes. -/
def importValues (d : FeedDict) (cols : List Column) : Except Fault FeedDict :=
  cols.foldlM (fun d col => return (← d.importColumnValues col.name col.values).2) d

/-- Method groups 1 to 5 at party `p`: import the columns and the expression, resolve the run
mode and import the values of the party's own columns. -/
def setup (t : Table) (expr : Str) (p : Party) : Except Fault Executor := do
  let c ← importColumns t p
  match importExpress .new expr with
  | none => .error .outOfRange
  | some (_, m) => do
      let (c, tokenTypeMap, fp64Run) ← resolveRunMode c m.suffixStk
      if fp64Run then .error .fp64Run
      else do
        let d ← importValues (.new c) (t.columns.filter fun col => col.owner == p)
        return { partyId := p, expr := m.expr, suffixStk := m.suffixStk, colConfig := c,
                 feedDict := d, tokenTypeMap := tokenTypeMap }

/-! ## What a party imports -/

namespace Table

/-- The column of a name. -/
def column? (t : Table) (name : Str) : Option Column := t.columns.find? fun c => c.name = name

theorem column?_isSome_iff (t : Table) (name : Str) :
    (t.column? name).isSome = true ↔ ∃ c ∈ t.columns, c.name = name := by
  simp [column?]

theorem column?_some {t : Table} {name : Str} {c : Column} (h : t.column? name = some c) :
    c ∈ t.columns ∧ c.name = name :=
  ⟨List.mem_of_find?_eq_some h, by simpa using List.find?_some h⟩

end Table

/-- Looking a name up in entries built from columns. -/
theorem find?_columns {α : Type} (f : Column → α) (cols : List Column) (name : Str) :
    find? (cols.map fun c => (c.name, f c)) name =
      (cols.find? fun c => c.name = name).map f := by
  induction cols with
  | nil => rfl
  | cons c cols ih =>
      by_cases h : name = c.name
      · simp [find?, h]
      · simp [find?, h, Ne.symm h, ih]

/-- The entries of a map of all columns are found by name. -/
theorem find?_insertAll_columns {α : Type} (f : Column → α) (t : Table) (name : Str) :
    find? (insertAll [] (t.columns.map fun c => (c.name, f c))) name =
      (t.column? name).map f := by
  rw [find?_insertAll, find?_columns]
  rfl

theorem importColumnDtype_snd (c : ColumnConfig) (name : Str) (dtype : ColDtype) :
    (c.importColumnDtype name dtype).2 =
      { c with colDtype := emplace c.colDtype name dtype } := by
  unfold ColumnConfig.importColumnDtype emplace
  split <;> rfl

theorem foldl_importColumnDtype (cols : List Column) (c : ColumnConfig) :
    cols.foldl (fun c col => (c.importColumnDtype col.name .INT64).2) c =
      { c with colDtype := insertAll c.colDtype (cols.map fun col => (col.name, .INT64)) } := by
  induction cols generalizing c with
  | nil => rfl
  | cons col cols ih =>
      rw [List.foldl_cons, importColumnDtype_snd, ih]
      rfl

theorem foldlM_importColumnOwner (cols : List Column) (c : ColumnConfig)
    (hnodup : (cols.map Column.name).Nodup) (hnew : ∀ col ∈ cols, find? c.colOwner col.name = none) :
    cols.foldlM (fun c col => c.importColumnOwner col.name col.owner) c =
      .ok { c with
        colOwner := insertAll c.colOwner (cols.map fun col => (col.name, col.owner)) } := by
  induction cols generalizing c with
  | nil => rfl
  | cons col cols ih =>
      obtain ⟨hnot, hnodup⟩ := List.nodup_cons.mp hnodup
      have hcol : find? c.colOwner col.name = none := hnew col List.mem_cons_self
      rw [List.foldlM_cons, ColumnConfig.importColumnOwner, hcol]
      refine (ih _ hnodup ?_).trans rfl
      intro col' hcol'
      have hne : col'.name ≠ col.name := fun h => hnot (h ▸ List.mem_map_of_mem hcol')
      show find? (emplace c.colOwner col.name col.owner) col'.name = none
      rw [OrderedMap.find?_emplace, if_neg hne]
      exact hnew col' (List.mem_cons_of_mem col hcol')

/-- The configuration of party `p` before the localities are resolved. -/
def importedConfig (t : Table) (p : Party) : ColumnConfig :=
  { partyId := p
    colOwner := insertAll [] (t.columns.map fun c => (c.name, c.owner))
    colDtype := insertAll [] (t.columns.map fun c => (c.name, .INT64))
    localCol := [] }

theorem importColumns_eq (t : Table) (p : Party) :
    importColumns t p = .ok (importedConfig t p) := by
  rw [importColumns, foldlM_importColumnOwner _ _ t.nodup (fun _ _ => rfl)]
  exact congrArg Except.ok (foldl_importColumnDtype t.columns _)

/-- The configuration of party `p` with the localities. -/
def columnConfig (t : Table) (p : Party) : ColumnConfig :=
  { importedConfig t p with
    localCol := insertAll []
      ((importedConfig t p).colOwner.map fun e => (e.1, e.2 == p)) }

theorem find?_map_snd {α β : Type} (f : α → β) (m : Entries Str α) (k : Str) :
    find? (m.map fun e => (e.1, f e.2)) k = (find? m k).map f := by
  induction m with
  | nil => rfl
  | cons e m ih =>
      by_cases h : k = e.1
      · simp [find?, h]
      · simp [find?, h, ih]

theorem columnConfig_dtype (t : Table) (p : Party) (name : Str) :
    find? (columnConfig t p).colDtype name = (t.column? name).map fun _ => .INT64 :=
  find?_insertAll_columns (fun _ => ColDtype.INT64) t name

theorem columnConfig_local (t : Table) (p : Party) (name : Str) :
    find? (columnConfig t p).localCol name =
      (t.column? name).map fun c => c.owner == p := by
  show find? (insertAll [] ((importedConfig t p).colOwner.map fun e => (e.1, e.2 == p))) name = _
  rw [find?_insertAll, find?_map_snd (fun o => o == p)]
  show ((find? (insertAll [] (t.columns.map fun c => (c.name, c.owner))) name).map _) = _
  rw [find?_insertAll_columns Column.owner, Option.map_map]
  rfl

theorem resolveLocalColumn_importedConfig (t : Table) (p : Party) :
    (importedConfig t p).resolveLocalColumn = .ok (columnConfig t p) := by
  have hlen : (importedConfig t p).colDtype.length = (importedConfig t p).colOwner.length := by
    -- both maps have an entry for each column
    have hkeys : ∀ (α : Type) (f : Column → α),
        ((t.columns.map fun c => (c.name, f c)).map Prod.fst).Nodup := by
      intro α f
      rw [List.map_map]
      exact t.nodup
    show (insertAll [] _).length = (insertAll [] _).length
    rw [OrderedMap.length_insertAll _ _ (hkeys _ _) (fun _ _ => rfl),
      OrderedMap.length_insertAll _ _ (hkeys _ _) (fun _ _ => rfl)]
    simp only [List.length_map, List.length_nil]
  have hdtype : (importedConfig t p).colOwner.find?
      (fun e => (find? (importedConfig t p).colDtype e.1).isNone) = none := by
    rw [List.find?_eq_none]
    intro e he
    have howner : find? (importedConfig t p).colOwner e.1 ≠ none := fun h =>
      OrderedMap.find?_eq_none_iff.mp h (List.mem_map_of_mem he)
    have hcol : t.column? e.1 ≠ none := by
      intro h
      have hfind := find?_insertAll_columns Column.owner t e.1
      rw [h] at hfind
      exact howner hfind
    obtain ⟨c, hc⟩ := Option.ne_none_iff_exists'.mp hcol
    have hfind := columnConfig_dtype t p e.1
    rw [hc] at hfind
    show ¬ (find? (columnConfig t p).colDtype e.1).isNone = true
    rw [hfind]
    simp
  rw [ColumnConfig.resolveLocalColumn, if_neg (not_not.mpr hlen), hdtype]
  rfl

/-! ## The run mode -/

theorem hasFP64Column_columnConfig (t : Table) (p : Party) :
    (columnConfig t p).hasFP64Column = false := by
  rw [ColumnConfig.hasFP64Column, List.any_eq_false]
  intro e he
  have hmem : e ∈ t.columns.map fun c => (c.name, ColDtype.INT64) :=
    (OrderedMap.mem_insertAll he).resolve_left List.not_mem_nil
  obtain ⟨c, _, rfl⟩ := List.mem_map.mp hmem
  exact Bool.false_ne_true

theorem resolveRunMode_importedConfig (t : Table) (p : Party) (toks : List Str) :
    resolveRunMode (importedConfig t p) toks =
      (do let m ← toks.foldlM (resolveToken (columnConfig t p)) ⟨false, false, []⟩
          return (columnConfig t p, m.tokenTypeMap, m.hasDivOp || m.hasFp64Val)) := by
  have h : resolveRunMode (importedConfig t p) toks =
      (do let m ← toks.foldlM (resolveToken (columnConfig t p)) ⟨false, false, []⟩
          return (columnConfig t p, m.tokenTypeMap,
            m.hasDivOp || (columnConfig t p).hasFP64Column || m.hasFp64Val)) := by
    rw [resolveRunMode, resolveLocalColumn_importedConfig]
    rfl
  simpa only [hasFP64Column_columnConfig, Bool.or_false] using h

theorem resolveToken_ok_iff (t : Table) (p : Party) (m : RunMode) (token : Str) :
    (∃ m', resolveToken (columnConfig t p) m token = .ok m') ↔
      (isOperatorStr token = false → (t.column? token).isSome = true) := by
  by_cases hop : isOperatorStr token = true
  · simp [resolveToken, hop]
  · have hdtype := columnConfig_dtype t p token
    cases hcol : t.column? token with
    | none =>
        rw [hcol] at hdtype
        simp [resolveToken, hop, ColumnConfig.getColumnDtype, hdtype, bind, Except.bind]
    | some c =>
        rw [hcol] at hdtype
        simp [resolveToken, hop, ColumnConfig.getColumnDtype, hdtype, bind, Except.bind, pure,
          Except.pure]

/-- Every operand token is a column where the run mode is resolved: `getColumnDtype` throws on
any other token, so no token becomes a `TokenType::VALUE`. -/
theorem column_of_resolveRunMode {t : Table} {p : Party} {toks : List Str}
    {r : ColumnConfig × Entries Str TokenType × Bool}
    (h : resolveRunMode (importedConfig t p) toks = .ok r) :
    ∀ token ∈ toks, isOperatorStr token = false → (t.column? token).isSome = true := by
  rw [resolveRunMode_importedConfig] at h
  obtain ⟨m, hm, _⟩ := Fallible.bind_eq_ok.mp h
  -- a fold that ends has resolved every one of the tokens
  intro token htoken
  obtain ⟨s, s', hs⟩ := Fallible.ok_of_foldlM hm htoken
  exact (resolveToken_ok_iff t p s token).mp ⟨s', hs⟩

/-- No token is a constant as far as the evaluators can see. -/
def OnlyColumns (tokenTypeMap : Entries Str TokenType) : Prop :=
  ∀ token, (find? tokenTypeMap token).getD .COLUMN = .COLUMN

theorem resolveRunMode_ok {t : Table} (p : Party) {toks : List Str}
    (hcols : ∀ token ∈ toks, isOperatorStr token = false → (t.column? token).isSome = true)
    (hdiv : ['/'] ∉ toks) :
    ∃ tm, resolveRunMode (importedConfig t p) toks = .ok (columnConfig t p, tm, false) ∧
      OnlyColumns tm := by
  have hfold : ∃ m, toks.foldlM (resolveToken (columnConfig t p)) ⟨false, false, []⟩ = .ok m ∧
      (m.hasDivOp = false ∧ m.hasFp64Val = false ∧ OnlyColumns m.tokenTypeMap) := by
    refine Fallible.foldlM_succeeds (fun m : RunMode => m.hasDivOp = false ∧
      m.hasFp64Val = false ∧ OnlyColumns m.tokenTypeMap) ?_ ⟨rfl, rfl, fun _ => rfl⟩
    rintro token htoken m ⟨hd, hv, hm⟩
    by_cases hop : isOperatorStr token = true
    · -- an operator, which is no division
      have hne : token ≠ ['/'] := fun h => hdiv (h ▸ htoken)
      refine ⟨{ m with hasDivOp := m.hasDivOp || token == ['/'] }, ?_, ?_, hv, hm⟩
      · rw [resolveToken, if_pos hop]
      · simp [hd, hne]
    · obtain ⟨c, hc⟩ := Option.isSome_iff_exists.mp (hcols token htoken (by simpa using hop))
      have hdtype := columnConfig_dtype t p token
      rw [hc] at hdtype
      refine ⟨{ m with tokenTypeMap := emplace m.tokenTypeMap token .COLUMN }, ?_, hd, hv, ?_⟩
      · simp [resolveToken, hop, ColumnConfig.getColumnDtype, hdtype, bind, Except.bind, pure,
          Except.pure]
      · intro k
        have hk := hm token
        show (find? (emplace m.tokenTypeMap token .COLUMN) k).getD _ = _
        rw [OrderedMap.find?_emplace]
        split
        · exact hk
        · exact hm k
  obtain ⟨m, hm, hd, hv, honly⟩ := hfold
  refine ⟨m.tokenTypeMap, ?_, honly⟩
  rw [resolveRunMode_importedConfig, hm]
  show Except.ok (columnConfig t p, m.tokenTypeMap, m.hasDivOp || m.hasFp64Val) = _
  rw [hd, hv]
  rfl

/-! ## The values -/

/-- Importing a new local integer column of the right length succeeds. -/
theorem importColumnValues_ok {d : FeedDict} {name : Str} {xs : List I64} {n : Nat}
    (hlocal : find? d.colConfig.localCol name = some true)
    (hdtype : find? d.colConfig.colDtype name = some .INT64)
    (hcount : d.valCount = -1 ∨ d.valCount = n) (hlen : xs.length = n)
    (hnew : find? d.int64Col name = none) :
    d.importColumnValues name xs =
      .ok (0, { d with valCount := n, int64Col := emplace d.int64Col name xs }) := by
  have hset : d.setOrCheckValueCount xs.length = (0, { d with valCount := n }) := by
    rw [FeedDict.setOrCheckValueCount, hlen]
    rcases hcount with h | h
    · simp [h]
    · -- the count was set by a column before
      have hne : ¬ (n : Int) = -1 := by omega
      obtain ⟨c, v, m⟩ := d
      cases h
      simp [hne]
  simp [FeedDict.importColumnValues, ColumnConfig.getColumnLocality,
    ColumnConfig.getColumnDtype, hlocal, hdtype, hset, hnew, bind, Except.bind, pure,
    Except.pure]

/-- Importing local integer columns of one length imports all of them. -/
theorem importValues_eq {d : FeedDict} {cols : List Column} {n : Nat}
    (hlocal : ∀ c ∈ cols, find? d.colConfig.localCol c.name = some true)
    (hdtype : ∀ c ∈ cols, find? d.colConfig.colDtype c.name = some .INT64)
    (hcount : d.valCount = -1 ∨ d.valCount = n) (hlen : ∀ c ∈ cols, c.values.length = n)
    (hnodup : (cols.map Column.name).Nodup) (hnew : ∀ c ∈ cols, find? d.int64Col c.name = none) :
    importValues d cols = .ok { d with
      valCount := if cols = [] then d.valCount else n
      int64Col := insertAll d.int64Col (cols.map fun c => (c.name, c.values)) } := by
  induction cols generalizing d with
  | nil => rfl
  | cons c cols ih =>
      obtain ⟨hnot, hnodup⟩ := List.nodup_cons.mp hnodup
      have hstep := importColumnValues_ok (hlocal c List.mem_cons_self)
        (hdtype c List.mem_cons_self) hcount (hlen c List.mem_cons_self)
        (hnew c List.mem_cons_self)
      rw [importValues, List.foldlM_cons, hstep]
      refine (ih (d := { d with valCount := n, int64Col := emplace d.int64Col c.name c.values })
        (fun c' h => hlocal c' (List.mem_cons_of_mem c h))
        (fun c' h => hdtype c' (List.mem_cons_of_mem c h)) (Or.inr rfl)
        (fun c' h => hlen c' (List.mem_cons_of_mem c h)) hnodup ?_).trans ?_
      · intro c' hc'
        have hne : c'.name ≠ c.name := fun h => hnot (h ▸ List.mem_map_of_mem hc')
        show find? (emplace d.int64Col c.name c.values) c'.name = none
        rw [OrderedMap.find?_emplace, if_neg hne]
        exact hnew c' (List.mem_cons_of_mem c hc')
      · simp [insertAll]

/-- The columns of party `p`. -/
def Table.ownedBy (t : Table) (p : Party) : List Column :=
  t.columns.filter fun c => c.owner == p

/-- The values party `p` has imported. -/
def feedDict (t : Table) (p : Party) : FeedDict :=
  { colConfig := columnConfig t p
    valCount := if t.ownedBy p = [] then -1 else t.rows
    int64Col := insertAll [] ((t.ownedBy p).map fun c => (c.name, c.values)) }

theorem Table.column?_of_mem {t : Table} {c : Column} (h : c ∈ t.columns) :
    t.column? c.name = some c := by
  have hfind : find? (t.columns.map fun c => (c.name, c)) c.name = some c := by
    refine OrderedMap.find?_of_mem ?_ (List.mem_map.mpr ⟨c, h, rfl⟩)
    rw [List.map_map]
    exact t.nodup
  rwa [find?_columns (fun c => c), Option.map_id'] at hfind

theorem importValues_feedDict (t : Table) (p : Party) :
    importValues (.new (columnConfig t p)) (t.ownedBy p) = .ok (feedDict t p) := by
  have hmem : ∀ c ∈ t.ownedBy p, c ∈ t.columns ∧ c.owner = p := by
    intro c hc
    simpa [Table.ownedBy] using hc
  refine importValues_eq (n := t.rows) ?_ ?_ (Or.inl rfl)
    (fun c hc => t.length_eq c (hmem c hc).1) ?_ (fun _ _ => rfl)
  · intro c hc
    show find? (columnConfig t p).localCol c.name = some true
    rw [columnConfig_local, t.column?_of_mem (hmem c hc).1]
    simp [(hmem c hc).2]
  · intro c hc
    show find? (columnConfig t p).colDtype c.name = some .INT64
    rw [columnConfig_dtype, t.column?_of_mem (hmem c hc).1]
    rfl
  · exact t.nodup.sublist (List.filter_sublist.map _)

/-- Party `p` after method group 5. -/
def executor (t : Table) (m : Import) (tokenTypeMap : Entries Str TokenType) (p : Party) :
    Executor :=
  { partyId := p
    expr := m.expr
    suffixStk := m.suffixStk
    colConfig := columnConfig t p
    feedDict := feedDict t p
    tokenTypeMap := tokenTypeMap }

theorem setup_ok {t : Table} {expr : Str} {code : Int} {m : Import}
    (himport : importExpress .new expr = some (code, m)) (hdiv : ['/'] ∉ m.suffixStk)
    (hcols : ∀ token ∈ m.suffixStk, isOperatorStr token = false →
      (t.column? token).isSome = true) (p : Party) :
    ∃ tm, setup t expr p = .ok (executor t m tm p) ∧ OnlyColumns tm := by
  obtain ⟨tm, hmode, honly⟩ := resolveRunMode_ok p hcols hdiv
  refine ⟨tm, ?_, honly⟩
  have hfeed := importValues_feedDict t p
  rw [Table.ownedBy] at hfeed
  simp only [setup, importColumns_eq, himport, bind, Except.bind, hmode, hfeed]
  rfl

theorem column_of_setup {t : Table} {expr : Str} {code : Int} {m : Import} {p : Party}
    {ex : Executor} (himport : importExpress .new expr = some (code, m))
    (h : setup t expr p = .ok ex) :
    ∀ token ∈ m.suffixStk, isOperatorStr token = false → (t.column? token).isSome = true := by
  rw [setup, importColumns_eq] at h
  obtain ⟨c, hc, h⟩ := Fallible.bind_eq_ok.mp h
  cases hc
  rw [himport] at h
  obtain ⟨r, hr, _⟩ := Fallible.bind_eq_ok.mp h
  exact column_of_resolveRunMode hr

/-- The number of rows party `p` gives its share matrices. -/
theorem getColumnValuesCount_feedDict (t : Table) (p : Party) :
    (feedDict t p).getColumnValuesCount =
      if t.ownedBy p = [] then 2 ^ 32 - 1 else t.rows % 2 ^ 32 := by
  unfold feedDict FeedDict.getColumnValuesCount
  split
  · rfl
  · show ((t.rows : Int) % 2 ^ 32).toNat = _
    omega

theorem getColumnValues_feedDict {t : Table} {p : Party} {name : Str} {c : Column}
    (h : t.column? name = some c) (howner : c.owner = p) :
    (feedDict t p).getColumnValues name = .ok (.ok c.values) := by
  obtain ⟨hmem, rfl⟩ := Table.column?_some h
  have hlocal : find? (feedDict t p).colConfig.localCol c.name = some true := by
    show find? (columnConfig t p).localCol c.name = some true
    rw [columnConfig_local, h]
    simp [howner]
  have hvalues : find? (feedDict t p).int64Col c.name = some c.values := by
    show find? (insertAll [] _) _ = _
    rw [find?_insertAll]
    refine OrderedMap.find?_of_mem ?_ ?_
    · rw [List.map_map]
      exact t.nodup.sublist (List.filter_sublist.map _)
    · refine List.mem_map.mpr ⟨c, ?_, rfl⟩
      simp [Table.ownedBy, hmem, howner]
  simp [FeedDict.getColumnValues, ColumnConfig.getColumnLocality, hlocal, hvalues, bind,
    Except.bind, pure, Except.pure]

end Fediux.Express
