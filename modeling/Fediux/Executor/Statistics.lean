import Fediux.Basic.OrderedMap
import Fediux.Operator.Compare
import Fediux.Util.StrSplit

set_option autoImplicit false

/-! # The tables of the statistics operators

What `executor/statistics.cc` reads of the three parties' tables: columns of arrow integers of
8 to 64 bits or of doubles, without nulls, in any chunks. A column of a party is declared with a
`ColumnDtype` beside its arrow type.
-/

namespace Fediux.Statistics

open Util (Str)
open OrderedMap (Entries find?)
open Replicated (Party)

inductive ColumnDtype where
  | STRING
  | INTEGER
  | DOUBLE
  | LONG
  | ENUM
  | BOOLEAN
  | UNKNOWN
  deriving DecidableEq, Repr

inductive Width where
  | w8
  | w16
  | w32
  | w64
  deriving DecidableEq, Repr

def Width.bits : Width → ℕ
  | w8 => 8
  | w16 => 16
  | w32 => 32
  | w64 => 64

/-- The arrow types of the columns, `INT8` to `UINT64` and `DOUBLE`. -/
inductive ArrowType where
  | integer (signed : Bool) (width : Width)
  | double
  deriving DecidableEq, Repr

namespace ArrowType

/-- A cell in the memory of an array; a double is its exact value. -/
def Cell : ArrowType → Type
  | integer _ width => BitVec width.bits
  | double => ℚ

/-- The value of a cell. -/
def value : (t : ArrowType) → t.Cell → ℚ
  | integer true _, c => (BitVec.toInt c : ℚ)
  | integer false _, c => (BitVec.toNat c : ℚ)
  | double, c => c

end ArrowType

/-- A chunked array under its name. -/
structure ArrowColumn where
  name : Str
  type : ArrowType
  chunks : List (List type.Cell)

def ArrowColumn.values (c : ArrowColumn) : List ℚ := c.chunks.flatten.map c.type.value

abbrev Table := List ArrowColumn

/-- Null for a name that is there twice. -/
def GetColumnByName (table : Table) (column : Str) : Option ArrowColumn :=
  match table.filter (·.name = column) with
  | [c] => some c
  | _ => none

/-! ## Declared types -/

/-- How the memory of a double reads as an integer, and that of an integer as a double. -/
structure Memory where
  toBits : ℚ → BitVec 64
  ofBits : BitVec 64 → ℚ

/-- The bits of zero for every number, where no declared type reads them. -/
def zeroBits : Memory := ⟨fun _ => 0, fun _ => 0⟩

/-- `Value(j)` of `DoubleArray`: narrower cells do not reach far enough. -/
def readDouble (M : Memory) : (t : ArrowType) → t.Cell → Option ℚ
  | .integer _ .w64, c => some (M.ofBits c)
  | .integer _ _, _ => none
  | .double, c => some c

theorem mapM_readDouble (M : Memory) (chunk : List ArrowType.double.Cell) :
    chunk.mapM (readDouble M .double) = some (chunk.map ArrowType.double.value) := by
  induction chunk with
  | nil => rfl
  | cons c chunk ih => rw [List.mapM_cons, ih]; rfl

/-- The declared type is of the kind of the arrow type. -/
def Declares : ColumnDtype → ArrowType → Prop
  | .INTEGER, .integer _ _ => True
  | .LONG, .integer _ _ => True
  | .DOUBLE, .double => True
  | _, _ => False

/-- The column is there, with a fitting declared type. -/
def Accepted (table : Table) (all_type : Entries Str ColumnDtype) (column : Str) : Prop :=
  ∃ c dtype, GetColumnByName table column = some c ∧ find? all_type column = some dtype ∧
    Declares dtype c.type

/-- The values of a column at one party. -/
def columnValues (table : Table) (column : Str) : List ℚ :=
  match GetColumnByName table column with
  | some c => c.values
  | none => []

/-- The values of a column over the rows of the three parties. -/
def pooled (tables : Party → Table) (column : Str) : List ℚ :=
  columnValues (tables 0) column ++ columnValues (tables 1) column ++ columnValues (tables 2) column

end Fediux.Statistics
