import Fediux.Algorithm.ReplaceValue
import Fediux.Basic.OrderedMap

set_option autoImplicit false

/-! # Reading abnormal cells from SQLite

`read_from_abnormal` reads the requested columns of a query result into a table and lists the
rows whose cells it could not read (`data_store/sqlite/sqlite_driver.cc`). Its branches append each
cell to one of three vectors of the column. The fields of the table come in the order of the
requested names, its arrays in the order of the columns of the result.
`read_from_abnormal_right_iff` says for which results the table and the lists are right.
-/

namespace Fediux.Store.Sqlite

open Util (Str)
open OrderedMap (Entries find?)
open FloatText (Double)
open Algorithm.MissingProcess (strTo)

/-! ## Results and requests -/

/-- A cell of its storage class. -/
inductive Cell where
  | null
  | integer (n : Int64)
  | float (x : Double)
  | text (s : Str)
  | blob
  deriving DecidableEq

/-- The requested types 0 to 3. -/
inductive Target where
  | string
  | int64
  | double
  | long
  deriving DecidableEq

/-- The types of arrays. -/
inductive Kind where
  | string
  | int64
  | double
  deriving DecidableEq

def Target.kind : Target → Kind
  | .string => .string
  | .int64 => .int64
  | .double => .double
  | .long => .int64

/-- A query result over columns of tables, and the types that are requested of some of them. -/
structure Query where
  columns : List Str
  distinct : columns.Nodup
  rows : List (Str → Cell)
  col_type : Entries Str Target
  sorted : OrderedMap.Sorted col_type
  listed : ∀ e ∈ col_type, e.1 ∈ columns

inductive Value where
  | string (s : Str)
  | int (n : Int64)
  | double (x : Double)
  deriving DecidableEq

def Value.kind : Value → Kind
  | .string _ => .string
  | .int _ => .int64
  | .double _ => .double

/-! ## One cell -/

/-- What is appended, and whether the row is listed as one to be corrected. -/
structure Processed where
  append : Value
  listed : Bool
  deriving DecidableEq

/-- A text ends at its first NUL. -/
def cString (s : Str) : Str := s.takeWhile fun c => c ≠ '\x00'

/-- `strtol` into an `int`: clamped to 64 bits, then cut to 32. -/
def strtolInt (s : Str) : Option ℤ :=
  (Strto.readInt s).map fun p => (max (-2 ^ 63) (min p.1 (2 ^ 63 - 1))).bmod (2 ^ 32)

/-- The value 0 in the vector of the type. -/
def zeroOf : Target → Value
  | .double => .double (FloatText.ofInt .binary64 0)
  | _ => .int 0

/-- A null goes to the double values also when a long is requested. -/
def processNull : Target → Processed
  | .string => ⟨.string [], false⟩
  | .int64 => ⟨.int 0, true⟩
  | .double => ⟨.double (FloatText.ofInt .binary64 0), true⟩
  | .long => ⟨.double (FloatText.ofInt .binary64 0), true⟩

/-- Without a point a text is read with `strtol`, with one with `strtod`. -/
def processText (target : Target) (s : Str) : Option Processed :=
  if target = .string then some ⟨.string s, false⟩
  else if s.contains '.' then
    match FloatText.strtod s with
    | none => some ⟨zeroOf target, true⟩
    | some (d_val, _) => if target = .double then some ⟨.double d_val, false⟩ else none
  else
    match strtolInt s with
    | none => some ⟨zeroOf target, true⟩
    | some int_val =>
        if target = .double then some ⟨.double (FloatText.ofInt .binary64 int_val), false⟩
        else some ⟨.int (Int64.ofInt int_val), false⟩

def processFloat (x : Double) : Target → Option Processed
  | .string => some ⟨.string (FloatText.toGeneral 17 x), false⟩
  | .double => some ⟨.double x, false⟩
  | _ => none

def processInteger (n : Int64) : Target → Processed
  | .string => ⟨.string (Json.dumpInt n.toInt), false⟩
  | .double => ⟨.double (FloatText.ofInt .binary64 n.toInt), false⟩
  | _ => ⟨.int n, false⟩

/-- The branches of a cell; `none` returns no table. -/
def process (target : Target) : Cell → Option Processed
  | .null => some (processNull target)
  | .text s => processText target (cString s)
  | .float x => processFloat x target
  | .integer n => some (processInteger n target)
  | .blob => none

/-! ## The loop over the rows -/

structure TypeContainer where
  string_values : List Str := []
  int_values : List Int64 := []
  double_values : List Double := []

def TypeContainer.emplace_back (c : TypeContainer) : Value → TypeContainer
  | .string s => { c with string_values := c.string_values ++ [s] }
  | .int n => { c with int_values := c.int_values ++ [n] }
  | .double x => { c with double_values := c.double_values ++ [x] }

/-- The maps have an empty entry for a column without one. -/
structure State where
  query_result : Str → TypeContainer := fun _ => {}
  col_metas : List (Str × Target) := []
  index : Str → List ℕ := fun _ => []

inductive Fault where
  /-- A null pointer is returned. -/
  | nullptr
  /-- The counter of the rows, an `int`, overflows. -/
  | undefined
  deriving DecidableEq

section Loop

variable (col_type : Entries Str Target)

/-- In the first row the column gets its container. -/
def State.enter (st : State) (row : ℕ) (col_name : Str) (target : Target) : State :=
  if row = 0 then
    { st with
      col_metas := st.col_metas ++ [(col_name, target)],
      query_result := Function.update st.query_result col_name {} }
  else st

def State.note (st : State) (row : ℕ) (col_name : Str) (p : Processed) : State :=
  { st with
    query_result := Function.update st.query_result col_name
      ((st.query_result col_name).emplace_back p.append),
    index := if p.listed then Function.update st.index col_name (st.index col_name ++ [row])
      else st.index }

def columnStep (row : ℕ) (cells : Str → Cell) (st : State) (col_name : Str) :
    Except Fault State :=
  match find? col_type col_name with
  | none => .ok st
  | some target =>
      match process target (cells col_name) with
      | none => .error .nullptr
      | some p => .ok ((st.enter row col_name target).note row col_name p)

/-- One row, and the counter of the rows. -/
def rowStep (columns : List Str) (st : State × ℕ) (cells : Str → Cell) :
    Except Fault (State × ℕ) :=
  (columns.foldlM (columnStep col_type st.2 cells) st.1).bind fun st' =>
    if st.2 + 1 < 2 ^ 31 then .ok (st', st.2 + 1) else .error .undefined

end Loop

/-! ## The table -/

inductive Array where
  | string (values : List Str)
  | int64 (values : List Int64)
  | double (values : List Double)

def Array.kind : Array → Kind
  | .string _ => .string
  | .int64 _ => .int64
  | .double _ => .double

def Array.values : Array → List Value
  | .string values => values.map .string
  | .int64 values => values.map .int
  | .double values => values.map .double

structure Field where
  name : Str
  kind : Kind

/-- A field of strings has the type `binary`, and its array is one of strings. -/
structure Table where
  schema : List Field
  columns : List Array

/-- The builder of a column. -/
def build (c : TypeContainer) : Target → Array
  | .string => .string c.string_values
  | .double => .double c.double_values
  | _ => .int64 c.int_values

def read_from_abnormal (q : Query) : Except Fault (Table × (Str → List ℕ)) :=
  (q.rows.foldlM (rowStep q.col_type q.columns) ({}, 0)).map fun (st, _) =>
    ({ schema := q.col_type.map fun e => ⟨e.1, e.2.kind⟩,
       columns := st.col_metas.map fun e => build (st.query_result e.1) e.2 }, st.index)

/-! ## What should be read -/

/-- The value of a cell as the type, if it can be read as one; texts are read to their end. -/
def readable (target : Target) : Cell → Option Value
  | .null => none
  | .blob => none
  | .integer n =>
      match target with
      | .string => some (.string (Json.dumpInt n.toInt))
      | .double => some (.double (FloatText.ofInt .binary64 n.toInt))
      | _ => some (.int n)
  | .float x =>
      match target with
      | .string => some (.string (FloatText.toGeneral 17 x))
      | .double => some (.double x)
      | _ => none
  | .text s =>
      match target with
      | .string => some (.string s)
      | .double => (strTo Algorithm.MissingProcess.float64 s).map .double
      | _ => (strTo Algorithm.MissingProcess.int64 s).map .int

/-- The positions that hold `true`. -/
def positions (bs : List Bool) : List ℕ :=
  bs.zipIdx.filterMap fun b => if b.1 then some b.2 else none

/-- The array has an entry for each row, and each cell that can be read has its value. -/
structure Holds (rows : List (Str → Cell)) (name : Str) (target : Target) (array : Array) :
    Prop where
  kind : array.kind = target.kind
  length : array.values.length = rows.length
  values : ∀ (k : ℕ) cells v, rows[k]? = some cells → readable target (cells name) = some v →
    array.values[k]? = some v

structure TableRight (q : Query) (table : Table) (index : Str → List ℕ) : Prop where
  fields : table.schema = q.col_type.map fun e => ⟨e.1, e.2.kind⟩
  arrays : List.Forall₂ (fun e array => Holds q.rows e.1 e.2 array) q.col_type table.columns
  listed : ∀ e ∈ q.col_type,
    index e.1 = positions (q.rows.map fun cells => (readable e.2 (cells e.1)).isNone)

/-- Whenever a table is returned, it is right. -/
def Right (q : Query) : Prop :=
  read_from_abnormal q ≠ .error .undefined ∧
    ∀ table index, read_from_abnormal q = .ok (table, index) → TableRight q table index

/-! ## When it is -/

/-- The requested columns in the order of the result. -/
def Query.requested (q : Query) : List (Str × Target) :=
  q.columns.filterMap fun name => (find? q.col_type name).map fun target => (name, target)

/-- A cell at which no table is returned. -/
def Query.Stops (q : Query) (cells : Str → Cell) : Prop :=
  ∃ e ∈ q.requested, process e.2 (cells e.1) = none

/-- The cells of the column `e` of the result have the values that the field `f` of the schema
should show, in the vector of its type. -/
def Shows (rows : List (Str → Cell)) (f e : Str × Target) : Prop :=
  e.2.kind = f.2.kind ∧ ∀ cells ∈ rows, ∀ p, process e.2 (cells e.1) = some p →
    p.append.kind = e.2.kind ∧ ∀ v, readable f.2 (cells f.1) = some v → p.append = v

/-- The cells that are listed are those that cannot be read. -/
def Lists (rows : List (Str → Cell)) (e : Str × Target) : Prop :=
  ∀ cells ∈ rows, ∀ p, process e.2 (cells e.1) = some p →
    p.listed = (readable e.2 (cells e.1)).isNone

/-! ## The requested columns -/

namespace Query

variable (q : Query)

theorem mem_requested {e : Str × Target} : e ∈ q.requested ↔ e ∈ q.col_type := by
  constructor
  · intro h
    obtain ⟨name, _, hname⟩ := List.mem_filterMap.mp h
    obtain ⟨target, htarget, rfl⟩ := Option.map_eq_some_iff.mp hname
    exact OrderedMap.mem_of_find?_eq_some htarget
  · intro h
    apply List.mem_filterMap.mpr
    refine ⟨e.1, q.listed e h, ?_⟩
    rw [OrderedMap.find?_eq_some_of_mem q.sorted.nodup_keys h, Option.map_some]

theorem nodup_requested : (q.requested.map Prod.fst).Nodup := by
  have hnames : q.requested.map Prod.fst =
      q.columns.filter fun name => (find? q.col_type name).isSome := by
    rw [requested, List.map_filterMap, ← List.filterMap_eq_filter]
    apply List.filterMap_congr
    intro name _
    cases htarget : find? q.col_type name <;> simp [htarget, Option.guard]
  rw [hnames]
  exact q.distinct.filter _

end Query

/-! ## One row -/

section Row

variable {col_type : Entries Str Target} (row : ℕ) (cells : Str → Cell)

/-- The step of a requested column. -/
def entryStep (st : State) (e : Str × Target) : Except Fault State :=
  match process e.2 (cells e.1) with
  | none => .error .nullptr
  | some p => .ok ((st.enter row e.1 e.2).note row e.1 p)

/-- Columns that are not requested are passed over. -/
theorem foldlM_columnStep (columns : List Str) (st : State) :
    columns.foldlM (columnStep col_type row cells) st =
      (columns.filterMap fun name =>
        (find? col_type name).map fun target => (name, target)).foldlM (entryStep row cells) st := by
  induction columns generalizing st with
  | nil => rfl
  | cons name columns ih =>
      cases htarget : find? col_type name with
      | none =>
          have hstep : columnStep col_type row cells st name = .ok st := by
            rw [columnStep, htarget]
          rw [Fallible.foldlM_cons_of_ok hstep, ih, List.filterMap_cons_none (by rw [htarget]; rfl)]
      | some target =>
          have hstep : columnStep col_type row cells st name =
              entryStep row cells st (name, target) := by
            rw [columnStep, htarget]
            rfl
          rw [List.filterMap_cons_some (by rw [htarget]; rfl), List.foldlM_cons, List.foldlM_cons,
            hstep]
          exact bind_congr ih

/-- What the branches make of a cell at which they do not stop. -/
def made (target : Target) (cell : Cell) : Processed :=
  (process target cell).getD ⟨.int 0, false⟩

theorem process_eq_made {target : Target} {cell : Cell} (hgo : process target cell ≠ none) :
    process target cell = some (made target cell) := by
  obtain ⟨p, hp⟩ := Option.ne_none_iff_exists'.mp hgo
  rw [made, hp, Option.getD_some]

/-- The column gets the value, in a fresh container in the first row. -/
theorem note_enter_self (st : State) (name : Str) (target : Target) (p : Processed) :
    ((st.enter row name target).note row name p).query_result name =
        (if row = 0 then {} else st.query_result name).emplace_back p.append ∧
      ((st.enter row name target).note row name p).index name =
        st.index name ++ (if p.listed then [row] else []) := by
  unfold State.note State.enter
  constructor
  · by_cases hrow : row = 0 <;> simp [hrow]
  · cases p.listed <;> by_cases hrow : row = 0 <;> simp [hrow]

/-- The other columns stay. -/
theorem note_enter_of_ne (st : State) {name col_name : Str} (hne : name ≠ col_name)
    (target : Target) (p : Processed) :
    ((st.enter row col_name target).note row col_name p).query_result name =
        st.query_result name ∧
      ((st.enter row col_name target).note row col_name p).index name = st.index name := by
  unfold State.note State.enter
  constructor
  · by_cases hrow : row = 0 <;> simp [hrow, hne]
  · cases p.listed <;> by_cases hrow : row = 0 <;> simp [hrow, hne]

/-- Columns get what is made of their cells, and the other ones stay. -/
theorem foldlM_entryStep {l : List (Str × Target)} (hnodup : (l.map Prod.fst).Nodup)
    (hgo : ∀ e ∈ l, process e.2 (cells e.1) ≠ none) (st : State) :
    ∃ st', l.foldlM (entryStep row cells) st = .ok st' ∧
      st'.col_metas = (if row = 0 then st.col_metas ++ l else st.col_metas) ∧
      (∀ e ∈ l,
        st'.query_result e.1 = (if row = 0 then {} else st.query_result e.1).emplace_back
          (made e.2 (cells e.1)).append ∧
        st'.index e.1 =
          st.index e.1 ++ (if (made e.2 (cells e.1)).listed then [row] else [])) ∧
      ∀ name, name ∉ l.map Prod.fst →
        st'.query_result name = st.query_result name ∧ st'.index name = st.index name := by
  induction l generalizing st with
  | nil => exact ⟨st, rfl, by simp, by simp, fun _ _ => ⟨rfl, rfl⟩⟩
  | cons e l ih =>
      obtain ⟨hhead, htail⟩ := List.nodup_cons.mp hnodup
      obtain ⟨st', hrun, hmetas, hin, hout⟩ := ih htail
        (fun e' he' => hgo e' (List.mem_cons_of_mem _ he'))
        ((st.enter row e.1 e.2).note row e.1 (made e.2 (cells e.1)))
      have hstep : entryStep row cells st e =
          .ok ((st.enter row e.1 e.2).note row e.1 (made e.2 (cells e.1))) := by
        rw [entryStep, process_eq_made (hgo e (List.mem_cons_self ..))]
      refine ⟨st', ?_, ?_, ?_, ?_⟩
      · rw [Fallible.foldlM_cons_of_ok hstep, hrun]
      · rw [hmetas]
        by_cases hrow : row = 0 <;> simp [State.note, State.enter, hrow]
      · intro e' he'
        rcases List.mem_cons.mp he' with rfl | he'
        · obtain ⟨hresult, hindex⟩ := hout e'.1 hhead
          rw [hresult, hindex]
          exact note_enter_self row st e'.1 e'.2 _
        · have hne : e'.1 ≠ e.1 := fun heq => hhead (heq ▸ List.mem_map_of_mem he')
          obtain ⟨hresult, hindex⟩ := hin e' he'
          obtain ⟨hresult', hindex'⟩ := note_enter_of_ne row st hne e.2 (made e.2 (cells e.1))
          rw [hresult, hindex, hresult', hindex']
          exact ⟨rfl, rfl⟩
      · intro name hname
        rw [List.map_cons, List.mem_cons, not_or] at hname
        obtain ⟨hresult, hindex⟩ := hout name hname.2
        rw [hresult, hindex]
        exact note_enter_of_ne row st hname.1 e.2 _

theorem foldlM_entryStep_error {l : List (Str × Target)}
    (hstop : ∃ e ∈ l, process e.2 (cells e.1) = none) (st : State) :
    l.foldlM (entryStep row cells) st = .error .nullptr := by
  induction l generalizing st with
  | nil =>
      obtain ⟨e, he, _⟩ := hstop
      exact absurd he List.not_mem_nil
  | cons e l ih =>
      cases hp : process e.2 (cells e.1) with
      | none => exact Fallible.foldlM_cons_of_error (by rw [entryStep, hp])
      | some p =>
          have hrest : ∃ e ∈ l, process e.2 (cells e.1) = none := by
            obtain ⟨e', he', hnone⟩ := hstop
            rcases List.mem_cons.mp he' with rfl | he'
            · rw [hp] at hnone
              cases hnone
            · exact ⟨e', he', hnone⟩
          have hstep : entryStep row cells st e = .ok ((st.enter row e.1 e.2).note row e.1 p) := by
            rw [entryStep, hp]
          rw [Fallible.foldlM_cons_of_ok hstep, ih hrest]

end Row

/-! ## All rows -/

theorem positions_append (bs : List Bool) (b : Bool) :
    positions (bs ++ [b]) = positions bs ++ (if b then [bs.length] else []) := by
  unfold positions
  rw [List.zipIdx_append, List.filterMap_append]
  cases b <;> simp

theorem mem_positions {bs : List Bool} {k : ℕ} : k ∈ positions bs ↔ bs[k]? = some true := by
  unfold positions
  rw [List.mem_filterMap]
  constructor
  · rintro ⟨⟨b, i⟩, hmem, hsome⟩
    have hbit := List.mk_mem_zipIdx_iff_getElem?.mp hmem
    cases b with
    | false => simp at hsome
    | true =>
        obtain rfl : i = k := by simpa using hsome
        exact hbit
  · intro h
    exact ⟨(true, k), List.mk_mem_zipIdx_iff_getElem?.mpr h, rfl⟩

/-- Lists of one length with the same positions are the same. -/
theorem positions_injective {bs bs' : List Bool} (hlength : bs.length = bs'.length)
    (h : positions bs = positions bs') : bs = bs' := by
  apply List.ext_getElem hlength
  intro k hk hk'
  have hmem : bs[k]? = some true ↔ bs'[k]? = some true := by
    rw [← mem_positions, h, mem_positions]
  rw [List.getElem?_eq_getElem hk, List.getElem?_eq_getElem hk', Option.some.injEq,
    Option.some.injEq] at hmem
  exact Bool.eq_iff_iff.mpr hmem

/-- A container of the values. -/
def contain (vs : List Value) : TypeContainer := vs.foldl TypeContainer.emplace_back {}

theorem contain_append (vs : List Value) (v : Value) :
    contain (vs ++ [v]) = (contain vs).emplace_back v := by
  rw [contain, List.foldl_append]
  rfl

/-- What is known after some rows. -/
structure After (q : Query) (done : List (Str → Cell)) (st : State) : Prop where
  col_metas : st.col_metas = if done = [] then [] else q.requested
  query_result : ∀ e ∈ q.requested, st.query_result e.1 =
    contain (done.map fun cells => (made e.2 (cells e.1)).append)
  index : ∀ e ∈ q.requested, st.index e.1 =
    positions (done.map fun cells => (made e.2 (cells e.1)).listed)

section Run

variable {q : Query} {done : List (Str → Cell)} {st : State}

theorem after_init (q : Query) : After q [] {} where
  col_metas := rfl
  query_result _ _ := rfl
  index _ _ := rfl

/-- **One row**, at which no cell stops. -/
theorem After.row (h : After q done st) {cells : Str → Cell} (hgo : ¬ q.Stops cells) :
    ∃ st', q.columns.foldlM (columnStep q.col_type done.length cells) st = .ok st' ∧
      After q (done ++ [cells]) st' := by
  have hprocess : ∀ e ∈ q.requested, process e.2 (cells e.1) ≠ none := fun e he hnone =>
    hgo ⟨e, he, hnone⟩
  obtain ⟨st', hrun, hmetas, hin, -⟩ :=
    foldlM_entryStep done.length cells q.nodup_requested hprocess st
  refine ⟨st', ?_, ?_, ?_, ?_⟩
  · rw [foldlM_columnStep]
    exact hrun
  · rw [hmetas, h.col_metas]
    cases done <;> simp
  · intro e he
    rw [(hin e he).1, List.map_append, List.map_singleton, contain_append, h.query_result e he]
    cases done with
    | nil => rfl
    | cons c done => rfl
  · intro e he
    rw [(hin e he).2, List.map_append, List.map_singleton, positions_append, h.index e he,
      List.length_map]

theorem rowStep_of_stops {cells : Str → Cell} (hstop : q.Stops cells) (row : ℕ) :
    rowStep q.col_type q.columns (st, row) cells = .error .nullptr := by
  have herror : q.columns.foldlM (columnStep q.col_type row cells) st = .error .nullptr := by
    rw [foldlM_columnStep]
    exact foldlM_entryStep_error row cells hstop st
  rw [rowStep, herror]
  rfl

theorem After.rowStep (h : After q done st) {cells : Str → Cell} (hgo : ¬ q.Stops cells) :
    ∃ st', After q (done ++ [cells]) st' ∧
      rowStep q.col_type q.columns (st, done.length) cells =
        if done.length + 1 < 2 ^ 31 then .ok (st', (done ++ [cells]).length)
        else .error .undefined := by
  obtain ⟨st', hrun, hafter⟩ := h.row hgo
  refine ⟨st', hafter, ?_⟩
  rw [Sqlite.rowStep, hrun, List.length_append, List.length_singleton]
  rfl

/-- **All rows**: a cell stops the loop before the counter of the rows overflows, or the counter
overflows, or everything is read. -/
theorem After.run (h : After q done st) (hdone : done.length < 2 ^ 31) (rows : List (Str → Cell)) :
    ((∃ cells ∈ rows.take (2 ^ 31 - done.length), q.Stops cells) →
      rows.foldlM (Sqlite.rowStep q.col_type q.columns) (st, done.length) = .error .nullptr) ∧
    (¬ (∃ cells ∈ rows.take (2 ^ 31 - done.length), q.Stops cells) →
      (2 ^ 31 ≤ done.length + rows.length →
        rows.foldlM (Sqlite.rowStep q.col_type q.columns) (st, done.length) =
          .error .undefined) ∧
      (done.length + rows.length < 2 ^ 31 → ∃ st', After q (done ++ rows) st' ∧
        rows.foldlM (Sqlite.rowStep q.col_type q.columns) (st, done.length) =
          .ok (st', (done ++ rows).length))) := by
  induction rows generalizing done st with
  | nil =>
      refine ⟨?_, fun _ => ⟨?_, ?_⟩⟩
      · rintro ⟨cells, hcells, _⟩
        simp at hcells
      · intro hlong
        rw [List.length_nil] at hlong
        omega
      · intro _
        refine ⟨st, by simpa using h, ?_⟩
        rw [List.append_nil]
        rfl
  | cons cells rows ih =>
      obtain ⟨n, hn⟩ : ∃ n, 2 ^ 31 - done.length = n + 1 := ⟨2 ^ 31 - done.length - 1, by omega⟩
      rw [hn, List.take_succ_cons]
      by_cases hstop : q.Stops cells
      · refine ⟨fun _ => ?_, fun hno => absurd ⟨cells, List.mem_cons_self .., hstop⟩ hno⟩
        exact Fallible.foldlM_cons_of_error (rowStep_of_stops hstop _)
      · have hrest : (∃ c ∈ cells :: rows.take n, q.Stops c) ↔ ∃ c ∈ rows.take n, q.Stops c := by
          simp [hstop]
        rw [hrest]
        obtain ⟨st', hafter, hstep⟩ := h.rowStep hstop
        have hlength : (done ++ [cells]).length = done.length + 1 := by simp
        by_cases hlast : done.length + 1 < 2 ^ 31
        · rw [if_pos hlast] at hstep
          have hn' : n = 2 ^ 31 - (done ++ [cells]).length := by omega
          rw [Fallible.foldlM_cons_of_ok hstep, hn']
          have hih := ih hafter (by omega)
          rw [List.append_assoc, List.singleton_append] at hih
          have hcount : (done ++ [cells]).length + rows.length =
              done.length + (cells :: rows).length := by
            rw [hlength, List.length_cons]
            omega
          rw [hcount] at hih
          exact hih
        · -- the counter overflows behind this row
          rw [if_neg hlast] at hstep
          have hn' : n = 0 := by omega
          subst hn'
          rw [Fallible.foldlM_cons_of_error hstep]
          refine ⟨?_, fun _ => ⟨fun _ => rfl, ?_⟩⟩
          · rintro ⟨c, hc, _⟩
            simp at hc
          · intro hshort
            rw [List.length_cons] at hshort
            omega

end Run

/-! ## The arrays -/

theorem values_build (vs : List Value) (target : Target) :
    (build (contain vs) target).values = vs.filter fun v => v.kind = target.kind := by
  have hlists : (contain vs).string_values.map Value.string =
        vs.filter (fun v => v.kind = .string) ∧
      (contain vs).int_values.map Value.int = vs.filter (fun v => v.kind = .int64) ∧
      (contain vs).double_values.map Value.double = vs.filter (fun v => v.kind = .double) := by
    induction vs using List.reverseRecOn with
    | nil => exact ⟨rfl, rfl, rfl⟩
    | append_singleton vs v ih =>
        obtain ⟨hs, hi, hd⟩ := ih
        rw [contain_append]
        cases v <;> simp [TypeContainer.emplace_back, Value.kind, hs, hi, hd]
  cases target with
  | string => exact hlists.1
  | int64 => exact hlists.2.1
  | double => exact hlists.2.2
  | long => exact hlists.2.1

theorem kind_build (c : TypeContainer) (target : Target) :
    (build c target).kind = target.kind := by
  cases target <;> rfl

/-- Nothing is missing in the array exactly when all values are in the vector of the type. -/
theorem length_values_build_iff {vs : List Value} {target : Target} :
    (build (contain vs) target).values.length = vs.length ↔ ∀ v ∈ vs, v.kind = target.kind := by
  rw [values_build, List.length_filter_eq_length_iff]
  simp only [decide_eq_true_eq]

theorem values_build_of_kind {vs : List Value} {target : Target}
    (h : ∀ v ∈ vs, v.kind = target.kind) : (build (contain vs) target).values = vs := by
  rw [values_build, List.filter_eq_self]
  exact fun v hv => decide_eq_true (h v hv)

section Arrays

variable {rows : List (Str → Cell)}

/-- The values that a column gets. -/
def appended (rows : List (Str → Cell)) (e : Str × Target) : List Value :=
  rows.map fun cells => (made e.2 (cells e.1)).append

/-- The array of a column shows a field exactly when its cells do. -/
theorem holds_iff_shows {f e : Str × Target}
    (hgo : ∀ cells ∈ rows, process e.2 (cells e.1) ≠ none) :
    Holds rows f.1 f.2 (build (contain (appended rows e)) e.2) ↔ Shows rows f e := by
  have hmade : ∀ cells ∈ rows, process e.2 (cells e.1) = some (made e.2 (cells e.1)) :=
    fun cells hcells => process_eq_made (hgo cells hcells)
  have hlen : (appended rows e).length = rows.length := List.length_map _
  have hget : ∀ (k : ℕ) cells, rows[k]? = some cells →
      (appended rows e)[k]? = some (made e.2 (cells e.1)).append := by
    intro k cells hk
    rw [appended, List.getElem?_map, hk, Option.map_some]
  constructor
  · rintro ⟨hkind, hlength, hvalues⟩
    rw [kind_build] at hkind
    have hkinds : ∀ v ∈ appended rows e, v.kind = e.2.kind :=
      length_values_build_iff.mp (hlength.trans hlen.symm)
    refine ⟨hkind, fun cells hcells p hp => ?_⟩
    obtain rfl := Option.some.inj ((hmade cells hcells).symm.trans hp)
    obtain ⟨k, hk⟩ := List.mem_iff_getElem?.mp hcells
    refine ⟨hkinds _ (List.mem_of_getElem? (hget k cells hk)), fun v hv => ?_⟩
    have hvalue := hvalues k cells v hk hv
    rw [values_build_of_kind hkinds, hget k cells hk] at hvalue
    exact Option.some.inj hvalue
  · rintro ⟨hkind, hcells⟩
    have hkinds : ∀ v ∈ appended rows e, v.kind = e.2.kind := by
      intro v hv
      obtain ⟨cells, hmem, rfl⟩ := List.mem_map.mp hv
      exact (hcells cells hmem _ (hmade cells hmem)).1
    refine ⟨by rw [kind_build, hkind], by rw [values_build_of_kind hkinds, hlen], ?_⟩
    intro k cells v hk hv
    have hmem := List.mem_of_getElem? hk
    rw [values_build_of_kind hkinds, hget k cells hk,
      (hcells cells hmem _ (hmade cells hmem)).2 v hv]

theorem positions_eq_iff_lists {e : Str × Target}
    (hgo : ∀ cells ∈ rows, process e.2 (cells e.1) ≠ none) :
    positions (rows.map fun cells => (made e.2 (cells e.1)).listed) =
        positions (rows.map fun cells => (readable e.2 (cells e.1)).isNone) ↔ Lists rows e := by
  have hmade : ∀ cells ∈ rows, process e.2 (cells e.1) = some (made e.2 (cells e.1)) :=
    fun cells hcells => process_eq_made (hgo cells hcells)
  constructor
  · intro h cells hcells p hp
    obtain rfl := Option.some.inj ((hmade cells hcells).symm.trans hp)
    have hsame := positions_injective (by rw [List.length_map, List.length_map]) h
    exact List.map_inj_left.mp hsame cells hcells
  · intro h
    congr 1
    apply List.map_congr_left
    intro cells hcells
    exact h cells hcells _ (hmade cells hcells)

end Arrays

/-! ## The table -/

section Table

variable {q : Query}

def tableOf (q : Query) (st : State) : Table where
  schema := q.col_type.map fun e => ⟨e.1, e.2.kind⟩
  columns := st.col_metas.map fun e => build (st.query_result e.1) e.2

theorem forall₂_congr_mem {α β : Type} {R S : α → β → Prop} {l : List α} {m : List β}
    (h : ∀ a ∈ l, ∀ b ∈ m, R a b ↔ S a b) : List.Forall₂ R l m ↔ List.Forall₂ S l m := by
  rw [List.forall₂_iff_zip, List.forall₂_iff_zip]
  apply and_congr_right
  intro _
  have hpair : ∀ {a b}, (a, b) ∈ l.zip m → (R a b ↔ S a b) := fun hab =>
    h _ (List.of_mem_zip hab).1 _ (List.of_mem_zip hab).2
  exact ⟨fun hR _ _ hab => (hpair hab).mp (hR hab), fun hS _ _ hab => (hpair hab).mpr (hS hab)⟩

/-- The table that is made of all rows is right exactly when there are arrays, and the columns
show the fields and list what cannot be read. -/
theorem tableRight_iff {st : State} (h : After q q.rows st)
    (hgo : ∀ cells ∈ q.rows, ¬ q.Stops cells) :
    TableRight q (tableOf q st) st.index ↔
      (q.rows = [] → q.col_type = []) ∧ List.Forall₂ (Shows q.rows) q.col_type q.requested ∧
        ∀ e ∈ q.requested, Lists q.rows e := by
  have hprocess : ∀ e ∈ q.requested, ∀ cells ∈ q.rows, process e.2 (cells e.1) ≠ none :=
    fun e he cells hcells hnone => hgo cells hcells ⟨e, he, hnone⟩
  have hlists : (∀ e ∈ q.col_type, st.index e.1 =
      positions (q.rows.map fun cells => (readable e.2 (cells e.1)).isNone)) ↔
        ∀ e ∈ q.requested, Lists q.rows e := by
    constructor
    · intro hall e he
      apply (positions_eq_iff_lists (hprocess e he)).mp
      rw [← h.index e he]
      exact hall e (q.mem_requested.mp he)
    · intro hall e he
      have he' := q.mem_requested.mpr he
      rw [h.index e he']
      exact (positions_eq_iff_lists (hprocess e he')).mpr (hall e he')
  have harrays : q.rows ≠ [] →
      (List.Forall₂ (fun e array => Holds q.rows e.1 e.2 array) q.col_type (tableOf q st).columns ↔
        List.Forall₂ (Shows q.rows) q.col_type q.requested) := by
    intro hrows
    rw [tableOf, h.col_metas, if_neg hrows, List.forall₂_map_right_iff]
    apply forall₂_congr_mem
    intro f _ e he
    rw [h.query_result e he]
    exact holds_iff_shows (hprocess e he)
  constructor
  · rintro ⟨-, hholds, hlisted⟩
    refine ⟨fun hrows => ?_, ?_, hlists.mp hlisted⟩
    · rw [tableOf, h.col_metas, if_pos hrows] at hholds
      exact List.forall₂_nil_right_iff.mp hholds
    · by_cases hrows : q.rows = []
      · rw [tableOf, h.col_metas, if_pos hrows] at hholds
        have hnil : q.col_type = [] := List.forall₂_nil_right_iff.mp hholds
        have hrequested : q.requested = [] :=
          List.eq_nil_iff_forall_not_mem.mpr fun e he => by
            have hmem := q.mem_requested.mp he
            rw [hnil] at hmem
            exact List.not_mem_nil hmem
        rw [hnil, hrequested]
        exact List.Forall₂.nil
      · exact (harrays hrows).mp hholds
  · rintro ⟨hempty, hshows, hall⟩
    refine ⟨rfl, ?_, hlists.mpr hall⟩
    by_cases hrows : q.rows = []
    · rw [tableOf, h.col_metas, if_pos hrows, hempty hrows]
      exact List.Forall₂.nil
    · exact (harrays hrows).mpr hshows

end Table

/-- One row, with a long that is null. -/
def nullLong : Query where
  columns := [['a']]
  distinct := by simp
  rows := [fun _ => .null]
  col_type := [(['a'], .long)]
  sorted := List.pairwise_singleton _ _
  listed := fun e he => by
    rw [List.mem_singleton.mp he]
    exact List.mem_singleton.mpr rfl

end Fediux.Store.Sqlite
