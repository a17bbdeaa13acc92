import Planner.Text.Blank
import Planner.Text.Capital

/-! # Column types

The six types a column may have, the numeric order they widen along, and the names they are
recognised by. -/

namespace Planner

/-- The type of the values in a column. -/
inductive ColumnType
  | boolean
  | int
  | long
  | float
  | double
  | string
  deriving DecidableEq, Repr

namespace ColumnType

/-- Place of a numeric type in the order `int < long < float < double`. -/
def rank : ColumnType → Option Nat
  | int => some 0
  | long => some 1
  | float => some 2
  | double => some 3
  | boolean => none
  | string => none

/-- Whether values of the type can be added. -/
def isNumeric (t : ColumnType) : Bool := t.rank.isSome

/-- Whether the type is one of the two binary fraction types. -/
def isFloating : ColumnType → Bool
  | float => true
  | double => true
  | _ => false

/-- The type of a sum of two numbers: the one of higher rank. -/
def widen (s t : ColumnType) : Option ColumnType :=
  match s.rank, t.rank with
  | some m, some n => some (if n ≤ m then s else t)
  | _, _ => none

/-- The type's name in messages. -/
def displayName : ColumnType → String
  | boolean => "BOOLEAN"
  | int => "INT"
  | long => "LONG"
  | float => "FLOAT"
  | double => "DOUBLE"
  | string => "STRING"

/-- The type's name in documents. -/
def code : ColumnType → String
  | boolean => "boolean"
  | int => "int"
  | long => "long"
  | float => "float"
  | double => "double"
  | string => "string"

/-- The type that a document's name stands for. -/
def ofCode? : String → Option ColumnType
  | "boolean" => some boolean
  | "int" => some int
  | "long" => some long
  | "float" => some float
  | "double" => some double
  | "string" => some string
  | _ => none

/-- The type of a name or one of its aliases, in any case and with blanks around it. -/
def ofName? (name : String) : Option ColumnType :=
  match Text.capitals (Text.trim name) with
  | "BOOL" | "BOOLEAN" => some boolean
  | "INT" | "INTEGER" | "INT4" | "INT_TYPE" => some int
  | "LONG" | "BIGINT" | "INT8" | "LONG_TYPE" => some long
  | "FLOAT" | "REAL" | "FLOAT4" | "FLOAT_TYPE" => some float
  | "DOUBLE" | "DOUBLE PRECISION" | "FLOAT8" | "DOUBLE_TYPE" => some double
  | "STRING" | "VARCHAR" | "TEXT" | "CHAR" | "STRING_TYPE" => some string
  | _ => none

theorem ofCode?_code (t : ColumnType) : ofCode? t.code = some t := by cases t <;> rfl

end ColumnType

end Planner
