import Planner.Resolve

/-! # The type of an expression

`typeOf` infers the type of an expression over a scheme.  Operands are typed from left to right and
the first failure is the answer.  The operand of `NOT` is not looked at. -/

namespace Planner

/-- The type of an operator's value, from its operands' types. -/
def BinaryOp.resultType (op : BinaryOp) (left right : ColumnType) : Option ColumnType :=
  if op.isComparison || op.isLogical then some .boolean
  else if op = .divide && left.isNumeric && right.isNumeric then some .double
  else left.widen right

/-- The type of an aggregate's value, from its argument's type. -/
def AggregateFunc.resultType : AggregateFunc → Option ColumnType → Option ColumnType
  | count, _ => some .long
  | countAll, _ => some .long
  | avg, _ => some .double
  | sum, some t => if t.isFloating then some .double else if t.isNumeric then some .long else none
  | sum, none => none
  | min, t => t
  | max, t => t

namespace Expr

/-- The type of an expression's values over an input scheme. -/
def typeOf (s : Scheme) : Expr → Except SchemeError ColumnType
  | attr ref => (s.resolve ref).map (·.type)
  | literal value => .ok value.type
  | unary .not _ => .ok .boolean
  | unary .neg e => do
    let t ← e.typeOf s
    if t.isNumeric then .ok t else .error (.typeMismatch (unary .neg e) (.negation t))
  | binary op l r => do
    let lt ← l.typeOf s
    let rt ← r.typeOf s
    match op.resultType lt rt with
    | some t => .ok t
    | none => .error (.typeMismatch (binary op l r) (.operands op lt rt))
  | aggregate func e => do
    let t ← e.typeOf s
    match func.resultType (some t) with
    | some u => .ok u
    | none => .error (.typeMismatch (aggregate func e) (.argument func (some t)))
  | tally func =>
    match func.resultType none with
    | some u => .ok u
    | none => .error (.typeMismatch (tally func) (.argument func none))

end Expr

end Planner
