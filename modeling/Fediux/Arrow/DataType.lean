import Mathlib.Data.Set.Insert

set_option autoImplicit false

/-! # Arrow types of columns

The types that `MakeArrowDataType` (`util/arrow_wrapper_util.cc`) has a case for. A dataset
schema is kept as a list of type ids, from which `MakeArrowDataType` builds the types again:
the id of a parameterised type does not say its parameters.
-/

namespace Fediux.Arrow

/-- `arrow::Type::type`, where `DECIMAL` is another name of `DECIMAL128`. -/
inductive TypeId where
  | BOOL
  | UINT8
  | INT8
  | UINT16
  | INT16
  | UINT32
  | INT32
  | UINT64
  | INT64
  | HALF_FLOAT
  | FLOAT
  | DOUBLE
  | STRING
  | BINARY
  | DATE32
  | DATE64
  | TIMESTAMP
  | TIME32
  | TIME64
  | DECIMAL128
  | DECIMAL256
  deriving DecidableEq, Repr

def TypeId.toInt : TypeId → ℤ
  | .BOOL => 1
  | .UINT8 => 2
  | .INT8 => 3
  | .UINT16 => 4
  | .INT16 => 5
  | .UINT32 => 6
  | .INT32 => 7
  | .UINT64 => 8
  | .INT64 => 9
  | .HALF_FLOAT => 10
  | .FLOAT => 11
  | .DOUBLE => 12
  | .STRING => 13
  | .BINARY => 14
  -- 15 is `FIXED_SIZE_BINARY`
  | .DATE32 => 16
  | .DATE64 => 17
  | .TIMESTAMP => 18
  | .TIME32 => 19
  | .TIME64 => 20
  -- 21 and 22 are the intervals
  | .DECIMAL128 => 23
  | .DECIMAL256 => 24

/-- The case of the `switch` that an integer takes, if it is not the default. -/
def TypeId.ofInt? (type : ℤ) : Option TypeId :=
  match type with
  | 1 => some .BOOL
  | 2 => some .UINT8
  | 3 => some .INT8
  | 4 => some .UINT16
  | 5 => some .INT16
  | 6 => some .UINT32
  | 7 => some .INT32
  | 8 => some .UINT64
  | 9 => some .INT64
  | 10 => some .HALF_FLOAT
  | 11 => some .FLOAT
  | 12 => some .DOUBLE
  | 13 => some .STRING
  | 14 => some .BINARY
  | 16 => some .DATE32
  | 17 => some .DATE64
  | 18 => some .TIMESTAMP
  | 19 => some .TIME32
  | 20 => some .TIME64
  | 23 => some .DECIMAL128
  | 24 => some .DECIMAL256
  | _ => none

theorem TypeId.ofInt?_toInt (t : TypeId) : TypeId.ofInt? t.toInt = some t := by
  cases t <;> rfl

/-- `arrow::TimeUnit::type`. -/
inductive TimeUnit where
  | SECOND
  | MILLI
  | MICRO
  | NANO
  deriving DecidableEq, Repr

/-- `arrow::DataType`. -/
inductive DataType where
  | boolean
  | uint8
  | int8
  | uint16
  | int16
  | uint32
  | int32
  | uint64
  | int64
  | float16
  | float32
  | float64
  | utf8
  | binary
  | date32
  | date64
  | timestamp (unit : TimeUnit) (timezone : List Char)
  | time32 (unit : TimeUnit)
  | time64 (unit : TimeUnit)
  | decimal128 (precision scale : ℤ)
  | decimal256 (precision scale : ℤ)
  deriving DecidableEq, Repr

def DataType.id : DataType → TypeId
  | .boolean => .BOOL
  | .uint8 => .UINT8
  | .int8 => .INT8
  | .uint16 => .UINT16
  | .int16 => .INT16
  | .uint32 => .UINT32
  | .int32 => .INT32
  | .uint64 => .UINT64
  | .int64 => .INT64
  | .float16 => .HALF_FLOAT
  | .float32 => .FLOAT
  | .float64 => .DOUBLE
  | .utf8 => .STRING
  | .binary => .BINARY
  | .date32 => .DATE32
  | .date64 => .DATE64
  | .timestamp _ _ => .TIMESTAMP
  | .time32 _ => .TIME32
  | .time64 _ => .TIME64
  | .decimal128 _ _ => .DECIMAL128
  | .decimal256 _ _ => .DECIMAL256

/-- `arrow::decimal`, which chooses the width by the precision. -/
def decimal (precision scale : ℤ) : DataType :=
  if precision ≤ 38 then .decimal128 precision scale else .decimal256 precision scale

def MakeArrowDataType (type : ℤ) : DataType :=
  match TypeId.ofInt? type with
  | some .BOOL => .boolean
  | some .UINT8 => .uint8
  | some .INT8 => .int8
  | some .UINT16 => .uint16
  | some .INT16 => .int16
  | some .UINT32 => .uint32
  | some .INT32 => .int32
  | some .UINT64 => .uint64
  | some .INT64 => .int64
  | some .HALF_FLOAT => .float16
  | some .FLOAT => .float32
  | some .DOUBLE => .float64
  | some .STRING => .utf8
  | some .BINARY => .binary
  | some .DATE32 => .date32
  | some .DATE64 => .date64
  | some .TIMESTAMP => .timestamp .MILLI []
  | some .TIME32 => .time32 .MILLI
  | some .TIME64 => .time64 .MICRO
  | some .DECIMAL128 => decimal 10 0
  | some .DECIMAL256 => decimal 10 0
  | none => .utf8

/-- A type that is made for an id has this id, `DECIMAL256` apart. -/
theorem id_MakeArrowDataType {t : TypeId} (h : t ≠ .DECIMAL256) :
    (MakeArrowDataType t.toInt).id = t := by
  unfold MakeArrowDataType
  rw [TypeId.ofInt?_toInt]
  cases t <;> first | rfl | exact absurd rfl h

/-- The type that a schema has for a column after its id was stored. -/
def DataType.stored (type : DataType) : DataType := MakeArrowDataType type.id.toInt

/-- A type that is made for some id stays the same. -/
theorem stored_MakeArrowDataType (n : ℤ) :
    (MakeArrowDataType n).stored = MakeArrowDataType n := by
  unfold MakeArrowDataType
  split <;> rfl

end Fediux.Arrow
