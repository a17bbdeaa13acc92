import Planner.Scheme
import Planner.Binary64.Shortest

/-! # Scalar expressions

Conditions, computed columns and aggregates are expressions over the columns of one input.  `text`
is how messages and listings show them, `refs` lists the columns they read from left to right. -/

namespace Planner

/-- A constant. -/
inductive Literal
  | boolean (value : Bool)
  | integer (value : Int64)
  | float (value : Binary64)
  | string (value : String)
  deriving DecidableEq, Repr

/-- Operators with one operand. -/
inductive UnaryOp
  | not
  | neg
  deriving DecidableEq, Repr

/-- Operators with two operands. -/
inductive BinaryOp
  | eq
  | notEq
  | lt
  | ltEq
  | gt
  | gtEq
  | and
  | or
  | plus
  | minus
  | times
  | divide
  deriving DecidableEq, Repr

/-- Aggregate functions. -/
inductive AggregateFunc
  | count
  | countAll
  | sum
  | min
  | max
  | avg
  deriving DecidableEq, Repr

/-- A scalar expression.  `tally` is an aggregate over whole rows, without an argument. -/
inductive Expr
  | attr (ref : ColumnRef)
  | literal (value : Literal)
  | unary (op : UnaryOp) (operand : Expr)
  | binary (op : BinaryOp) (left right : Expr)
  | aggregate (func : AggregateFunc) (input : Expr)
  | tally (func : AggregateFunc)
  deriving DecidableEq, Repr

namespace Literal

/-- The type of a constant. -/
def type : Literal → ColumnType
  | boolean _ => .boolean
  | integer _ => .long
  | float _ => .double
  | string _ => .string

/-- A constant as expressions show it. -/
def text : Literal → String
  | boolean true => "true"
  | boolean false => "false"
  | integer n => toString n.toInt
  | float x => x.format Binary64.plainStyle
  | string s => "'" ++ s ++ "'"

/-- Equality of constants: numbers are compared by value, so a NaN differs from itself. -/
def same : Literal → Literal → Bool
  | boolean a, boolean b => a == b
  | integer a, integer b => a == b
  | float a, float b => a.sameValue b
  | string a, string b => a == b
  | _, _ => false

end Literal

namespace BinaryOp

/-- Whether the operator compares. -/
def isComparison : BinaryOp → Bool
  | eq | notEq | lt | ltEq | gt | gtEq => true
  | _ => false

/-- Whether the operator joins truth values. -/
def isLogical : BinaryOp → Bool
  | and | or => true
  | _ => false

/-- The operator's name in capitals. -/
def kindName : BinaryOp → String
  | eq => "EQ"
  | notEq => "NEQ"
  | lt => "LT"
  | ltEq => "LTEQ"
  | gt => "GT"
  | gtEq => "GTEQ"
  | and => "AND"
  | or => "OR"
  | plus => "PLUS"
  | minus => "MINUS"
  | times => "TIMES"
  | divide => "DIVIDE"

/-- The operator's sign. -/
def sign : BinaryOp → String
  | eq => "="
  | notEq => "!="
  | lt => "<"
  | ltEq => "<="
  | gt => ">"
  | gtEq => ">="
  | and => "AND"
  | or => "OR"
  | plus => "+"
  | minus => "-"
  | times => "*"
  | divide => "/"

end BinaryOp

/-- The function's name in capitals. -/
def AggregateFunc.kindName : AggregateFunc → String
  | count => "COUNT"
  | countAll => "COUNTALL"
  | sum => "SUM"
  | min => "MIN"
  | max => "MAX"
  | avg => "AVG"

namespace Expr

/-- A column by name. -/
def named (name : String) : Expr := attr (.name name)

/-- A column by position. -/
def col (index : UInt64) : Expr := attr (.position index)

/-- The condition that two columns agree. -/
def eqCols (i j : UInt64) : Expr := binary .eq (col i) (col j)

/-- The reference, if the expression is nothing but one. -/
def ref? : Expr → Option ColumnRef
  | attr ref => some ref
  | _ => none

/-- Whether an aggregate occurs anywhere. -/
def isAggregate : Expr → Bool
  | attr _ => false
  | literal _ => false
  | unary _ e => e.isAggregate
  | binary _ l r => l.isAggregate || r.isAggregate
  | aggregate _ _ => true
  | tally _ => true

/-- The outermost kind in capitals. -/
def kindName : Expr → String
  | attr (.name _) => "NAMEDATTRIBUTEREF"
  | attr (.position _) => "UNNAMEDATTRIBUTEREF"
  | literal _ => "LITERAL"
  | unary .not _ => "NOT"
  | unary .neg _ => "NEG"
  | binary op _ _ => op.kindName
  | aggregate func _ => func.kindName
  | tally func => func.kindName

/-- The columns read, from left to right. -/
def refs : Expr → List ColumnRef
  | attr ref => [ref]
  | literal _ => []
  | unary _ e => e.refs
  | binary _ l r => l.refs ++ r.refs
  | aggregate _ e => e.refs
  | tally _ => []

/-- An expression as messages show it. -/
def text : Expr → String
  | attr ref => ref.text
  | literal value => value.text
  | unary .not e => "NOT(" ++ e.text ++ ")"
  | unary .neg e => "(-" ++ e.text ++ ")"
  | binary op l r => "(" ++ l.text ++ " " ++ op.sign ++ " " ++ r.text ++ ")"
  | aggregate func e => func.kindName ++ "(" ++ e.text ++ ")"
  | tally func => func.kindName

/-- Equality that compares constants by value. -/
def same : Expr → Expr → Bool
  | attr a, attr b => a == b
  | literal a, literal b => a.same b
  | unary o a, unary p b => o == p && a.same b
  | binary o a c, binary p b d => o == p && a.same b && c.same d
  | aggregate f a, aggregate g b => f == g && a.same b
  | tally f, tally g => f == g
  | _, _ => false

end Expr

end Planner
