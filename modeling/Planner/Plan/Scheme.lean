import Planner.Plan.Cells
import Planner.Expr.Typing

/-! # The scheme of a plan

Each operator turns the schemes of its inputs, or their failures, into its own.  The scheme of a
plan depends on an input only through the input's scheme. -/

namespace Planner

/-- Embeds the failures of schemes into those of plans. -/
def liftScheme {α : Type} (x : Except SchemeError α) : Except PlanError α := x.mapError .schema

/-- Refuses an empty list of output columns. -/
def requireColumns (operator : String) (count : Nat) : Except PlanError Unit :=
  if count = 0 then .error (.schema (.noColumns operator)) else .ok ()

/-- The columns that a list of references stands for. -/
def projectColumns (input : Scheme) (refs : List ColumnRef) : Except PlanError Scheme :=
  (refs.mapM (fun ref => liftScheme (input.resolve ref))).map Scheme.mk

/-- The name of a mapping's column: the given one, that of the column it copies, or its text. -/
def Mapping.outputName (m : Mapping) (input : Scheme) : String :=
  match m.name with
  | some name => name
  | none => ((m.expr.ref?.bind (fun ref => (input.resolve ref).toOption)).bind (·.name)).getD m.expr.text

/-- The column of a mapping. -/
def Mapping.column (input : Scheme) (m : Mapping) : Except PlanError Column := do
  let type ← liftScheme (m.expr.typeOf input)
  return .named (m.outputName input) type

/-- The column of a grouping's expression: the column it copies, or one named after the kind of the
expression and its position in the list. -/
def groupColumn (input : Scheme) (c : Nat × Expr) : Except PlanError Column :=
  match c.2.ref? with
  | some ref => liftScheme (input.resolve ref)
  | none => do
    let type ← liftScheme (c.2.typeOf input)
    return .named (c.2.kindName ++ toString c.1) type

/-- The scheme of a leaf. -/
def Leaf.scheme (cells : Cells) : Leaf → Except PlanError Scheme
  | scan _ scheme => .ok scheme
  | scanTemp _ scheme => .ok scheme
  | emptyRelation scheme => .ok scheme
  | singleton => .ok .empty
  | state name cell => cells.stateScheme name cell
  | fixpoint _ => .error (.recursion .openFixpoint)

/-- The scheme of an operator over one input. -/
def Unary.scheme (op : Unary) (input : Except PlanError Scheme) : Except PlanError Scheme :=
  match op with
  | project columns => do
    requireColumns "Project" columns.length
    projectColumns (← input) columns
  | apply mappings => do
    requireColumns "Apply" mappings.length
    let scheme ← input
    (mappings.mapM (Mapping.column scheme)).map Scheme.mk
  | groupBy columns => do
    requireColumns "GroupBy" columns.length
    let scheme ← input
    ((outputOrder columns).mapM (groupColumn scheme)).map Scheme.mk
  | _ => input

/-- The scheme of an operator over two inputs. -/
def Binary.scheme (op : Binary) (left right : Except PlanError Scheme) : Except PlanError Scheme :=
  match op with
  | join _ | crossProduct | projectingJoin _ none => do return (← left) ++ (← right)
  | projectingJoin _ (some columns) => do
    let both := (← left) ++ (← right)
    requireColumns "ProjectingJoin" columns.length
    projectColumns both columns
  | doWhile => .ok .empty
  | _ => left

/-- The scheme of an operator over any number of inputs. -/
def Nary.scheme (op : Nary) (inputs : List (Except PlanError Scheme)) : Except PlanError Scheme :=
  match op with
  | join _ => inputs.foldlM (fun acc input => do return acc ++ (← input)) .empty
  | sequence => .ok .empty

namespace Plan

mutual

/-- The scheme of a plan's rows. -/
def scheme (cells : Cells) : Plan → Except PlanError Scheme
  | leaf _ op => op.scheme cells
  | unary _ op input => op.scheme (scheme cells input)
  | binary _ op left right => op.scheme (scheme cells left) (scheme cells right)
  | nary _ op inputs => op.scheme (schemes cells inputs)

/-- The schemes of several plans. -/
def schemes (cells : Cells) : List Plan → List (Except PlanError Scheme)
  | [] => []
  | p :: rest => scheme cells p :: schemes cells rest

end

/-- The column of a plan's rows that a reference stands for. -/
def resolve (cells : Cells) (p : Plan) (ref : ColumnRef) : Except PlanError Column := do
  liftScheme ((← p.scheme cells).resolve ref)

end Plan

end Planner
