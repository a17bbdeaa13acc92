import Planner.ColumnType

/-! # Schemes

A scheme is the ordered list of columns that a relation has.  A column may lack a name; then only
its position refers to it.  References are resolved in `Planner.Resolve`. -/

namespace Planner

/-- A column of a scheme. -/
structure Column where
  name : Option String
  type : ColumnType
  deriving DecidableEq, Repr

/-- The ordered columns of a relation. -/
structure Scheme where
  columns : List Column
  deriving DecidableEq, Repr

/-- A reference to a column of the input. -/
inductive ColumnRef
  | position (index : UInt64)
  | name (text : String)
  deriving DecidableEq, Repr

/-- A column with a name. -/
def Column.named (name : String) (type : ColumnType) : Column := ⟨some name, type⟩

/-- A column as messages show it: name and type. -/
def Column.text (c : Column) : String := c.name.getD "_" ++ ":" ++ c.type.displayName

namespace Scheme

/-- The scheme with no column. -/
def empty : Scheme := ⟨[]⟩

instance : Inhabited Scheme := ⟨empty⟩

/-- The number of columns. -/
def size (s : Scheme) : Nat := s.columns.length

/-- Whether there is no column. -/
def isEmpty (s : Scheme) : Bool := s.columns.isEmpty

/-- The column at a position. -/
def get? (s : Scheme) (index : Nat) : Option Column := s.columns[index]?

/-- The columns' names in order. -/
def names (s : Scheme) : List (Option String) := s.columns.map (·.name)

/-- The columns of one scheme, then those of another. -/
def append (s t : Scheme) : Scheme := ⟨s.columns ++ t.columns⟩

instance : Append Scheme := ⟨append⟩

@[simp] theorem columns_append (s t : Scheme) : (s ++ t).columns = s.columns ++ t.columns := rfl

@[simp] theorem size_append (s t : Scheme) : (s ++ t).size = s.size + t.size := by simp [size]

/-- A new scheme that takes the columns of one scheme and then those of another. -/
def concat (s t : Scheme) : Scheme := empty ++ s ++ t

/-- A scheme as messages show it. -/
def text (s : Scheme) : String := "[" ++ ", ".intercalate (s.columns.map Column.text) ++ "]"

end Scheme

/-- A reference as expressions show it. -/
def ColumnRef.text : ColumnRef → String
  | position index => "$" ++ toString index.toNat
  | name text => text

end Planner
