import Planner.Resolve
import Planner.Data.Form

/-! # Schemes and expressions in documents

`toTree` writes a value as a tree and `ofTree` reads it back.  Fields that may be left out are
written only if they hold something.  A scalar's alternatives are tried in order: a position before
a name, a truth value before an integer before a fraction before a text. -/

namespace Planner

open Planner.Data

variable {σ : Type}

/-! ### Schemes -/

namespace ColumnType

/-- The tree of a type. -/
def toTree (t : ColumnType) : Tree := .string t.code

/-- Reads a type. -/
def ofTree : Tree → Decoder σ ColumnType := Decoder.named ofCode?

end ColumnType

namespace Column

/-- The tree of a column. -/
def toTree (c : Column) : Tree :=
  .ofFields ((match c.name with | some name => [("name", .string name)] | none => []) ++
    [("type", c.type.toTree)])

/-- Reads a column. -/
def ofTree : Tree → Decoder σ Column :=
  (((Form.optional "name" Decoder.text).both (.required "type" ColumnType.ofTree)).map
    fun (name, type) => ⟨name, type⟩).record true

end Column

namespace Scheme

/-- The tree of a scheme. -/
def toTree (s : Scheme) : Tree := .list (s.columns.map Column.toTree)

/-- Reads a scheme. -/
def ofTree (t : Tree) : Decoder σ Scheme := do
  let columns ← Decoder.listOf Column.ofTree t
  return ⟨columns⟩

end Scheme

namespace RelationKey

/-- The tree of a key. -/
def toTree (k : RelationKey) : Tree := .string k.text

/-- Reads a key. -/
def ofTree (t : Tree) : Decoder σ RelationKey := do
  let s ← Decoder.text t
  .ofOption (parse? s)

end RelationKey

namespace ColumnRef

/-- The tree of a reference. -/
def toTree : ColumnRef → Tree
  | position index => .nat index.toNat
  | name text => .string text

/-- The reference of a value. -/
def ofAtom? : Atom → Option ColumnRef
  | .int n =>
    if 0 ≤ n && n < (twoTo 64 : Int) then some (position (UInt64.ofNat n.toNat)) else none
  | .string s => some (name s)
  | _ => none

/-- Reads a reference. -/
def ofTree (t : Tree) : Decoder σ ColumnRef := do
  let a ← Decoder.value t
  .ofOption (ofAtom? a)

end ColumnRef

/-- Reads a count of sixty-four bits. -/
def word64 (t : Tree) : Decoder σ UInt64 := do
  let n ← Decoder.nat (twoTo 64) t
  return UInt64.ofNat n

/-! ### Expressions -/

namespace Literal

/-- The tree of a constant. -/
def toTree : Literal → Tree
  | boolean b => .bool b
  | integer n => .int n.toInt
  | float x => .atom (.float x)
  | string s => .string s

/-- The constant of a value. -/
def ofAtom? : Atom → Option Literal
  | .bool b => some (boolean b)
  | .int n =>
    if -(twoTo 63 : Int) ≤ n && n < (twoTo 63 : Int) then some (integer (Int64.ofInt n))
    else if 0 ≤ n && n < (twoTo 64 : Int) then some (float (Binary64.ofInt n))
    else none
  | .float x => some (float x)
  | .string s => some (string s)
  | .null => none

/-- Reads a constant. -/
def ofTree (t : Tree) : Decoder σ Literal := do
  let a ← Decoder.value t
  .ofOption (ofAtom? a)

end Literal

/-- The name of an operator in documents. -/
def UnaryOp.code : UnaryOp → String
  | not => "not"
  | neg => "neg"

/-- The operator of a name. -/
def UnaryOp.ofCode? : String → Option UnaryOp
  | "not" => some not
  | "neg" => some neg
  | _ => none

/-- The name of an operator in documents. -/
def BinaryOp.code : BinaryOp → String
  | eq => "eq"
  | notEq => "not_eq"
  | lt => "lt"
  | ltEq => "lt_eq"
  | gt => "gt"
  | gtEq => "gt_eq"
  | and => "and"
  | or => "or"
  | plus => "plus"
  | minus => "minus"
  | times => "times"
  | divide => "divide"

/-- The operator of a name. -/
def BinaryOp.ofCode? : String → Option BinaryOp
  | "eq" => some eq
  | "not_eq" => some notEq
  | "lt" => some lt
  | "lt_eq" => some ltEq
  | "gt" => some gt
  | "gt_eq" => some gtEq
  | "and" => some and
  | "or" => some or
  | "plus" => some plus
  | "minus" => some minus
  | "times" => some times
  | "divide" => some divide
  | _ => none

/-- The name of a function in documents. -/
def AggregateFunc.code : AggregateFunc → String
  | count => "count"
  | countAll => "count_all"
  | sum => "sum"
  | min => "min"
  | max => "max"
  | avg => "avg"

/-- The function of a name. -/
def AggregateFunc.ofCode? : String → Option AggregateFunc
  | "count" => some count
  | "count_all" => some countAll
  | "sum" => some sum
  | "min" => some min
  | "max" => some max
  | "avg" => some avg
  | _ => none

/-- A variant with fields. -/
def variantTree (tag : String) (fields : List (String × Tree)) : Tree :=
  .ofFields [(tag, .ofFields fields)]

namespace Expr

/-- The tree of an expression. -/
def toTree : Expr → Tree
  | attr ref => .ofFields [("attr", ref.toTree)]
  | literal value => .ofFields [("literal", value.toTree)]
  | unary op e => variantTree "unary" [("op", .string op.code), ("operand", e.toTree)]
  | binary op l r =>
    variantTree "binary" [("op", .string op.code), ("left", l.toTree), ("right", r.toTree)]
  | aggregate func e => variantTree "aggregate" [("func", .string func.code), ("input", e.toTree)]
  | tally func => variantTree "aggregate" [("func", .string func.code)]

/-- Reads the expression with a name, whose operands are read by `expr`. -/
def ofBody (expr : Tree → Decoder σ Expr) (tag : String) (body : Tree) : Decoder σ Expr := do
  match tag with
  | "attr" => return attr (← ColumnRef.ofTree body)
  | "literal" => return literal (← Literal.ofTree body)
  | "unary" =>
    let form := (Form.required "op" (.named UnaryOp.ofCode?)).both (.required "operand" expr)
    let (op, operand) ← form.body true body
    return unary op operand
  | "binary" =>
    let form := (Form.required "op" (.named BinaryOp.ofCode?)).both
      ((Form.required "left" expr).both (.required "right" expr))
    let (op, left, right) ← form.body true body
    return binary op left right
  | "aggregate" =>
    let form := (Form.required "func" (.named AggregateFunc.ofCode?)).both (.optional "input" expr)
    match ← form.body true body with
    | (func, some e) => return aggregate func e
    | (func, none) => return tally func
  | _ => .fail

/-- Reads an expression of at most `fuel` levels. -/
def decode : Nat → Tree → Decoder σ Expr
  | 0, _ => .fail
  | fuel + 1, t => .variant (fun _ => .fail) (ofBody (decode fuel)) t

/-- Reads an expression.  Every level of it opens a record, so the levels that may be open are
enough. -/
def ofTree (t : Tree) : Decoder σ Expr := do decode ((← Decoder.document).levels + 1) t

end Expr

end Planner
