import Fediux.Arrow.DataType
import Fediux.Basic.FloatText
import Fediux.Util.StrSplit

set_option autoImplicit false

/-! # Arrays from texts

`MakeArrowArray` (`util/arrow_wrapper_util.cc`) chooses a builder by the type of a column, and the
builder turns each text of the column into a value. `faithful_iff` says for which types and texts
the array has the type of the column and the values of the texts.
-/

namespace Fediux.Arrow

open Util (Str)
open FloatText (Single Double stoFloat readNumber)
open Strto (readInt stoInt)

/-- A value of an array. -/
inductive Cell where
  | int (n : ℤ)
  | float (v : Single)
  | double (v : Double)
  | bytes (s : Str)
  deriving DecidableEq

/-- `arrow::Array`, where a value that is not valid is `none`. -/
structure ArrowArray where
  type : DataType
  values : List (Option Cell)
  deriving DecidableEq

/-! ## The builders -/

/-- `stoi`, or 0 when it throws. -/
def readInt32 (item : Str) : ℤ :=
  match stoInt 32 item with
  | .ok (n, _) => n
  | .error _ => 0

/-- `std::stof`, or 0 when it throws. -/
def readFloat (item : Str) : Single :=
  match stoFloat .binary32 item with
  | .ok (v, _) => v
  | .error _ => FloatText.ofInt .binary32 0

def Int32ArrowArrayBuilder (arr : List Str) : ArrowArray where
  type := .int32
  values := arr.map fun item => some (.int (readInt32 item))

def Int64ArrowArrayBuilder (arr : List Str) : ArrowArray where
  type := .int64
  values := arr.map fun item => some (.int (readInt32 item))

def FloatArrowArrayBuilder (arr : List Str) : ArrowArray where
  type := .float32
  values := arr.map fun item => some (.float (readFloat item))

def DoubleArrowArrayBuilder (arr : List Str) : ArrowArray where
  type := .float64
  values := arr.map fun item => some (.double ((readFloat item).convert .binary64))

def StringArrowArrayBuilder (arr : List Str) : ArrowArray where
  type := .utf8
  values := arr.map fun item => some (.bytes item)

def MakeArrowArray (field_type : TypeId) (arr : List Str) : ArrowArray :=
  match field_type with
  | .INT64 => Int64ArrowArrayBuilder arr
  | .UINT64 => Int64ArrowArrayBuilder arr
  | .INT32 => Int32ArrowArrayBuilder arr
  | .INT16 => Int32ArrowArrayBuilder arr
  | .INT8 => Int32ArrowArrayBuilder arr
  | .UINT32 => Int32ArrowArrayBuilder arr
  | .UINT16 => Int32ArrowArrayBuilder arr
  | .UINT8 => Int32ArrowArrayBuilder arr
  | .FLOAT => FloatArrowArrayBuilder arr
  | .DOUBLE => DoubleArrowArrayBuilder arr
  | .STRING => StringArrowArrayBuilder arr
  | _ => StringArrowArrayBuilder arr

/-- The type of the arrays that are made for a type. -/
def builderType (field_type : TypeId) : DataType := (MakeArrowArray field_type []).type

theorem MakeArrowArray_type (field_type : TypeId) (arr : List Str) :
    (MakeArrowArray field_type arr).type = builderType field_type := by
  cases field_type <;> rfl

/-- The types of one builder make the same arrays. -/
theorem MakeArrowArray_congr {field_type field_type' : TypeId}
    (h : builderType field_type = builderType field_type') (arr : List Str) :
    MakeArrowArray field_type arr = MakeArrowArray field_type' arr := by
  cases field_type <;> cases field_type' <;> first | rfl | cases h

/-! ## The types of the columns -/

/-- `sql_tyep_2_arrow_type_map`. -/
def sqlTypes : List (Str × TypeId) :=
  [("bigint".toList, .INT64), ("integer".toList, .INT64), ("tinyint".toList, .UINT8),
    ("int".toList, .INT32), ("mediumint".toList, .INT32), ("smallint".toList, .INT32),
    ("float".toList, .FLOAT), ("double".toList, .DOUBLE), ("varchar".toList, .STRING),
    ("char".toList, .STRING), ("text".toList, .STRING), ("binary".toList, .BINARY),
    ("varbinary".toList, .BINARY), ("blob".toList, .BINARY), ("datetime".toList, .DATE64),
    ("time".toList, .TIME64), ("year".toList, .DATE32), ("timestamp".toList, .STRING),
    ("DEFAULT_TYPE".toList, .STRING)]

def SqlType2ArrowType (sql_type : Str) : TypeId :=
  match sqlTypes.find? fun e => e.1 = sql_type.map Char.toLower with
  | some e => e.2
  | none => .STRING

/-! ## What a text stands for -/

/-- The text is an integer of the range. -/
def integerIn (low high : ℤ) (text : Str) : Option Cell :=
  match readInt text with
  | some (n, []) => if low ≤ n ∧ n < high then some (.int n) else none
  | _ => none

/-- The number that is the whole text, rounded, if it is in the range of the format. -/
def numberIn (spec : Float.Model.Format) (text : Str) : Option (FloatText.Binary spec) :=
  match readNumber text with
  | some (x, []) => if x.abs?.isSome ∧ x.outOfRange spec = false then some (x.round spec) else none
  | _ => none

/-- The value of a text in a column of the type, if it is one. The types without a case have no
builder of their own. -/
def valueOf (type : TypeId) (text : Str) : Option Cell :=
  match type with
  | .INT8 => integerIn (-2 ^ 7) (2 ^ 7) text
  | .INT16 => integerIn (-2 ^ 15) (2 ^ 15) text
  | .INT32 => integerIn (-2 ^ 31) (2 ^ 31) text
  | .INT64 => integerIn (-2 ^ 63) (2 ^ 63) text
  | .UINT8 => integerIn 0 (2 ^ 8) text
  | .UINT16 => integerIn 0 (2 ^ 16) text
  | .UINT32 => integerIn 0 (2 ^ 32) text
  | .UINT64 => integerIn 0 (2 ^ 64) text
  | .FLOAT => (numberIn .binary32 text).map .float
  | .DOUBLE => (numberIn .binary64 text).map .double
  | .STRING => some (.bytes text)
  | .BINARY => some (.bytes text)
  | _ => none

/-- The array has the type of the column and the values of the texts, and no valid value for a
text that is not one. -/
structure Faithful (type : TypeId) (texts : List Str) : Prop where
  sameType : (MakeArrowArray type texts).type = MakeArrowDataType type.toInt
  sameValues : (MakeArrowArray type texts).values = texts.map (valueOf type)

/-- The builder of the type makes arrays of this type, and it reads the text. -/
def Covered (type : TypeId) (texts : List Str) : Prop :=
  match type with
  | .STRING => True
  | .INT32 => ∀ text ∈ texts, (integerIn (-2 ^ 31) (2 ^ 31) text).isSome
  | .INT64 => ∀ text ∈ texts, (integerIn (-2 ^ 31) (2 ^ 31) text).isSome
  | .FLOAT => ∀ text ∈ texts, (numberIn .binary32 text).isSome
  | .DOUBLE => ∀ text ∈ texts, numberIn .binary64 text = some ((readFloat text).convert .binary64)
  | _ => False

/-! ## What the builders read -/

theorem eq_of_integerIn {low high : ℤ} {text : Str} {c : Cell}
    (h : integerIn low high text = some c) :
    ∃ n, readInt text = some (n, []) ∧ (low ≤ n ∧ n < high) ∧ c = .int n := by
  unfold integerIn at h
  split at h
  · rename_i n hread
    split at h
    · rename_i hrange
      exact ⟨n, hread, hrange, (Option.some.inj h).symm⟩
    · cases h
  · cases h

theorem readInt32_of_readInt {text rest : Str} {n : ℤ} (h : readInt text = some (n, rest)) :
    readInt32 text = if -2 ^ 31 ≤ n ∧ n < 2 ^ 31 then n else 0 := by
  unfold readInt32
  rw [Strto.stoInt_of_readInt h]
  split
  · rename_i heq
    split at heq
    · rename_i hrange
      rw [if_pos hrange]
      exact (Prod.mk.inj (Except.ok.inj heq)).1.symm
    · cases heq
  · rename_i heq
    split at heq
    · cases heq
    · rename_i hrange
      rw [if_neg hrange]

/-- What `stoi` makes of the text is its value in 32 bits, if it has one. -/
theorem integerIn_eq_readInt32_iff {high : ℤ} (hhigh : (2 : ℤ) ^ 31 ≤ high) {text : Str} :
    integerIn (-high) high text = some (.int (readInt32 text)) ↔
      (integerIn (-2 ^ 31) (2 ^ 31) text).isSome := by
  constructor
  · intro h
    obtain ⟨n, hread, hrange, hcell⟩ := eq_of_integerIn h
    rw [Cell.int.injEq, readInt32_of_readInt hread] at hcell
    have hin : -2 ^ 31 ≤ n ∧ n < 2 ^ 31 := by
      by_contra hout
      -- the value is 0 then, which is in the range
      rw [if_neg hout] at hcell
      rw [← hcell] at hout
      exact hout (by decide)
    rw [integerIn, hread]
    simp only
    rw [if_pos hin]
    rfl
  · intro h
    obtain ⟨c, hc⟩ := Option.isSome_iff_exists.mp h
    obtain ⟨n, hread, hrange, rfl⟩ := eq_of_integerIn hc
    rw [integerIn, hread]
    simp only
    rw [readInt32_of_readInt hread, if_pos hrange, if_pos (by omega)]

/-- What `stof` makes of the text is its value, if it has one. -/
theorem numberIn_eq_readFloat_iff {text : Str} :
    numberIn .binary32 text = some (readFloat text) ↔ (numberIn .binary32 text).isSome := by
  constructor
  · intro h
    rw [h]
    rfl
  · intro h
    obtain ⟨v, hv⟩ := Option.isSome_iff_exists.mp h
    rw [hv]
    unfold numberIn at hv
    split at hv
    · rename_i x hread
      split at hv
      · rename_i hrange
        rw [readFloat, stoFloat, hread]
        simp only
        rw [if_neg (by rw [hrange.2]; exact Bool.false_ne_true), ← Option.some.inj hv]
      · cases hv
    · cases hv

theorem map_eq_map_iff {f g : Str → Option Cell} {texts : List Str} :
    texts.map f = texts.map g ↔ ∀ text ∈ texts, g text = f text := by
  rw [List.map_inj_left]
  exact forall₂_congr fun _ _ => eq_comm

/-- **When an array has the type and the values of its column.** -/
theorem faithful_iff (type : TypeId) (texts : List Str) :
    Faithful type texts ↔ Covered type texts := by
  have hrest : builderType type ≠ MakeArrowDataType type.toInt → ¬ Faithful type texts :=
    fun hne h => hne ((MakeArrowArray_type type texts).symm.trans h.sameType)
  have hvalues : (MakeArrowArray type texts).type = MakeArrowDataType type.toInt →
      (Faithful type texts ↔
        (MakeArrowArray type texts).values = texts.map (valueOf type)) :=
    fun htype => ⟨Faithful.sameValues, fun h => ⟨htype, h⟩⟩
  cases type with
  | INT32 =>
      rw [hvalues rfl]
      exact map_eq_map_iff.trans (forall₂_congr fun text _ => integerIn_eq_readInt32_iff le_rfl)
  | INT64 =>
      rw [hvalues rfl]
      exact map_eq_map_iff.trans
        (forall₂_congr fun text _ => integerIn_eq_readInt32_iff (by decide))
  | FLOAT =>
      rw [hvalues rfl]
      refine map_eq_map_iff.trans (forall₂_congr fun text _ => ?_)
      rw [← numberIn_eq_readFloat_iff]
      show (numberIn .binary32 text).map Cell.float = some (.float (readFloat text)) ↔ _
      simp
  | DOUBLE =>
      rw [hvalues rfl]
      refine map_eq_map_iff.trans (forall₂_congr fun text _ => ?_)
      show (numberIn .binary64 text).map Cell.double = some (.double _) ↔ _
      simp
  | STRING =>
      rw [hvalues rfl]
      exact iff_of_true rfl trivial
  | BOOL | UINT8 | INT8 | UINT16 | INT16 | UINT32 | UINT64 | HALF_FLOAT | BINARY | DATE32 | DATE64
  | TIMESTAMP | TIME32 | TIME64 | DECIMAL128 | DECIMAL256 =>
      exact iff_of_false (hrest (by decide)) id

/-- A `bigint` that does not fit into 32 bits becomes 0. -/
theorem not_faithful_bigint :
    ¬ ∀ sql_type texts, Faithful (SqlType2ArrowType sql_type) texts := by
  intro h
  have hvalues := (h "bigint".toList ["2147483648".toList]).sameValues
  revert hvalues
  decide

end Fediux.Arrow
