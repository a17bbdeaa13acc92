import Planner.Expr.Basic
import Planner.RelationKey

/-! # Plans

A plan is a tree of relational operators.  Operators are grouped by the number of their inputs, so
every plan has the inputs its operators ask for.  A fixpoint without a body is a leaf, one with a
body has it as its input.  Each node carries `Notes`, which passes and backends leave behind and
which play no part in what the plan means.

`fold` and `foldState` walk a plan from the leaves up; most listings are instances of them. -/

namespace Planner

/-- Number of a cell in the table of published schemes. -/
abbrev CellId := Nat

/-- What passes and backends note down at a node. -/
structure Notes where
  label : Option String := none
  bound : Option String := none
  cleanup : String := ""
  trace : List (String × String) := []
  deriving DecidableEq, Repr

/-- One output column of an `apply`: an expression and the name it gets. -/
structure Mapping where
  name : Option String
  expr : Expr
  deriving DecidableEq, Repr

/-- Operators without an input. -/
inductive Leaf
  /-- A stored relation. -/
  | scan (key : RelationKey) (scheme : Scheme)
  /-- A temporary relation that the program assigned before. -/
  | scanTemp (name : String) (scheme : Scheme)
  /-- A relation without rows. -/
  | emptyRelation (scheme : Scheme)
  /-- One row without columns. -/
  | singleton
  /-- What the fixpoint that owns the cell has computed so far. -/
  | state (name : String) (cell : Option CellId)
  /-- A recursive relation whose body is still to be bound. -/
  | fixpoint (cell : CellId)
  deriving DecidableEq, Repr

/-- Operators with one input. -/
inductive Unary
  | select (condition : Expr)
  | project (columns : List ColumnRef)
  | apply (mappings : List Mapping)
  | groupBy (columns : List Expr)
  | distinct
  | limit (count : UInt64)
  | shuffle (columns : List ColumnRef)
  | collect (server : Option UInt32)
  | broadcast
  | partitionBy (columns : List ColumnRef)
  | store (key : RelationKey)
  | storeTemp (name : String)
  /-- A recursive relation; the input is its body. -/
  | fixpoint (cell : CellId)
  deriving DecidableEq, Repr

/-- Operators with two inputs. -/
inductive Binary
  | join (condition : Expr)
  | crossProduct
  /-- A join whose columns are then projected. -/
  | projectingJoin (condition : Expr) (columns : Option (List ColumnRef))
  | union
  | unionAll
  | intersection
  | difference
  /-- Runs the first input, and again while the second has rows. -/
  | doWhile
  deriving DecidableEq, Repr

/-- Operators with any number of inputs. -/
inductive Nary
  /-- A join of all inputs; the positions in each group have to agree. -/
  | join (conditions : List (List UInt64))
  /-- Statements one after the other. -/
  | sequence
  deriving DecidableEq, Repr

/-- A plan. -/
inductive Plan
  | leaf (notes : Notes) (op : Leaf)
  | unary (notes : Notes) (op : Unary) (input : Plan)
  | binary (notes : Notes) (op : Binary) (left right : Plan)
  | nary (notes : Notes) (op : Nary) (inputs : List Plan)
  deriving Repr

instance : Inhabited Plan := ⟨.leaf {} .singleton⟩

/-! ### Column lists of a grouping -/

/-- The expressions of a list with their positions. -/
def indexed (columns : List Expr) : List (Nat × Expr) :=
  (List.range columns.length).zip columns

/-- The expressions grouped by, with their positions. -/
def grouping (columns : List Expr) : List (Nat × Expr) :=
  (indexed columns).filter (fun c => !c.2.isAggregate)

/-- The aggregates, with their positions. -/
def aggregates (columns : List Expr) : List (Nat × Expr) :=
  (indexed columns).filter (fun c => c.2.isAggregate)

/-- The order of a grouping's output: what is grouped by, then the aggregates. -/
def outputOrder (columns : List Expr) : List (Nat × Expr) := grouping columns ++ aggregates columns

/-! ### Descriptions of one node -/

/-- Texts with commas between them. -/
def commas (texts : List String) : String := ",".intercalate texts

/-- A mapping as listings show it. -/
def Mapping.text (m : Mapping) : String :=
  match m.name with
  | some name => name ++ "=" ++ m.expr.text
  | none => m.expr.text

namespace Leaf

/-- The operator's name. -/
def name : Leaf → String
  | scan _ _ => "Scan"
  | scanTemp _ _ => "ScanTemp"
  | emptyRelation _ => "EmptyRelation"
  | singleton => "SingletonRelation"
  | state _ _ => "State"
  | fixpoint _ => "Fixpoint"

/-- The operator with its arguments. -/
def short : Leaf → String
  | scan key _ => "Scan(" ++ key.text ++ ")"
  | scanTemp name scheme => "ScanTemp(" ++ name ++ "," ++ scheme.text ++ ")"
  | emptyRelation scheme => "EmptyRelation(" ++ scheme.text ++ ")"
  | singleton => "SingletonRelation"
  | state name _ => "State(" ++ name ++ ")"
  | fixpoint _ => "Fixpoint"

/-- Equality of what the operators mean; cells do not count. -/
def same : Leaf → Leaf → Bool
  | state a _, state b _ => a == b
  | fixpoint _, fixpoint _ => true
  | a, b => a == b

end Leaf

namespace Unary

/-- The operator's name. -/
def name : Unary → String
  | select _ => "Select"
  | project _ => "Project"
  | apply _ => "Apply"
  | groupBy _ => "GroupBy"
  | distinct => "Distinct"
  | limit _ => "Limit"
  | shuffle _ => "Shuffle"
  | collect _ => "Collect"
  | broadcast => "Broadcast"
  | partitionBy _ => "PartitionBy"
  | store _ => "Store"
  | storeTemp _ => "StoreTemp"
  | fixpoint _ => "Fixpoint"

/-- The operator with its arguments. -/
def short : Unary → String
  | select condition => "Select(" ++ condition.text ++ ")"
  | project columns => "Project(" ++ commas (columns.map ColumnRef.text) ++ ")"
  | apply mappings => "Apply(" ++ commas (mappings.map Mapping.text) ++ ")"
  | groupBy columns =>
    "GroupBy(" ++ commas ((grouping columns).map (·.2.text)) ++ "; " ++
      commas ((aggregates columns).map (·.2.text)) ++ ")"
  | distinct => "Distinct"
  | limit count => "Limit(" ++ toString count.toNat ++ ")"
  | shuffle columns => "Shuffle(" ++ commas (columns.map ColumnRef.text) ++ ")"
  | collect (some server) => "Collect(@" ++ toString server.toNat ++ ")"
  | collect none => "Collect"
  | broadcast => "Broadcast"
  | partitionBy columns => "PartitionBy(" ++ commas (columns.map ColumnRef.text) ++ ")"
  | store key => "Store(" ++ key.text ++ ")"
  | storeTemp name => "StoreTemp(" ++ name ++ ")"
  | fixpoint _ => "Fixpoint"

/-- Whether two lists have equal length and the elements agree pairwise. -/
def agree {α : Type} (f : α → α → Bool) : List α → List α → Bool
  | [], [] => true
  | a :: as, b :: bs => f a b && agree f as bs
  | _, _ => false

/-- Equality of what the operators mean: numbers are compared by value, cells do not count. -/
def same : Unary → Unary → Bool
  | select a, select b => a.same b
  | apply a, apply b => agree (fun m n => m.name == n.name && m.expr.same n.expr) a b
  | groupBy a, groupBy b => agree Expr.same a b
  | fixpoint _, fixpoint _ => true
  | a, b => a == b

end Unary

namespace Binary

/-- The operator's name. -/
def name : Binary → String
  | join _ => "Join"
  | crossProduct => "CrossProduct"
  | projectingJoin _ _ => "ProjectingJoin"
  | union => "Union"
  | unionAll => "UnionAll"
  | intersection => "Intersection"
  | difference => "Difference"
  | doWhile => "DoWhile"

/-- The operator with its arguments. -/
def short : Binary → String
  | join condition => "Join(" ++ condition.text ++ ")"
  | projectingJoin condition none => "ProjectingJoin(" ++ condition.text ++ ")"
  | projectingJoin condition (some columns) =>
    "ProjectingJoin(" ++ condition.text ++ "; " ++ commas (columns.map ColumnRef.text) ++ ")"
  | op => op.name

/-- Equality of what the operators mean: numbers are compared by value. -/
def same : Binary → Binary → Bool
  | join a, join b => a.same b
  | projectingJoin a cs, projectingJoin b ds => a.same b && cs == ds
  | a, b => a == b

end Binary

namespace Nary

/-- The operator's name. -/
def name : Nary → String
  | join _ => "NaryJoin"
  | sequence => "Sequence"

/-- The operator with its arguments. -/
def short : Nary → String
  | join conditions =>
    let group (positions : List UInt64) : String :=
      "[" ++ "=".intercalate (positions.map (fun p => "$" ++ toString p.toNat)) ++ "]"
    "NaryJoin(" ++ commas (conditions.map group) ++ ")"
  | sequence => "Sequence"

end Nary

namespace Plan

/-! ### Parts of a node -/

/-- The name of the operator at the root. -/
def name : Plan → String
  | leaf _ op => op.name
  | unary _ op _ => op.name
  | binary _ op _ _ => op.name
  | nary _ op _ => op.name

/-- The operator at the root with its arguments. -/
def short : Plan → String
  | leaf _ op => op.short
  | unary _ op _ => op.short
  | binary _ op _ _ => op.short
  | nary _ op _ => op.short

/-- The notes at the root. -/
def notes : Plan → Notes
  | leaf notes _ => notes
  | unary notes _ _ => notes
  | binary notes _ _ _ => notes
  | nary notes _ _ => notes

/-- The plan with other notes at the root. -/
def withNotes (notes : Notes) : Plan → Plan
  | leaf _ op => leaf notes op
  | unary _ op input => unary notes op input
  | binary _ op left right => binary notes op left right
  | nary _ op inputs => nary notes op inputs

/-- The inputs of the root, in order. -/
def inputs : Plan → List Plan
  | leaf _ _ => []
  | unary _ _ input => [input]
  | binary _ _ left right => [left, right]
  | nary _ _ inputs => inputs

/-- The plan with other inputs at the root, as many as there are. -/
def withInputs : Plan → List Plan → Plan
  | unary notes op _, [input] => unary notes op input
  | binary notes op _ _, [left, right] => binary notes op left right
  | nary notes op _, inputs => nary notes op inputs
  | p, _ => p

/-- Whether the root has no input. -/
def isLeaf (p : Plan) : Bool := p.inputs.isEmpty

/-! ### Walking from the leaves up -/

mutual

/-- Combines the results of the inputs at each node. -/
def fold {α : Type} (f : Plan → List α → α) : Plan → α
  | leaf notes op => f (leaf notes op) []
  | unary notes op input => f (unary notes op input) [fold f input]
  | binary notes op left right => f (binary notes op left right) [fold f left, fold f right]
  | nary notes op inputs => f (nary notes op inputs) (foldAll f inputs)

/-- The results of several plans. -/
def foldAll {α : Type} (f : Plan → List α → α) : List Plan → List α
  | [] => []
  | p :: rest => fold f p :: foldAll f rest

end

mutual

/-- Combines the results of the inputs at each node, handing a state from left to right. -/
def foldState {α σ : Type} (f : Plan → List α → σ → α × σ) : Plan → σ → α × σ
  | leaf notes op, s => f (leaf notes op) [] s
  | unary notes op input, s =>
    let (a, s) := foldState f input s
    f (unary notes op input) [a] s
  | binary notes op left right, s =>
    let (a, s) := foldState f left s
    let (b, s) := foldState f right s
    f (binary notes op left right) [a, b] s
  | nary notes op inputs, s =>
    let (as, s) := foldStateAll f inputs s
    f (nary notes op inputs) as s

/-- The results of several plans, one after the other. -/
def foldStateAll {α σ : Type} (f : Plan → List α → σ → α × σ) : List Plan → σ → List α × σ
  | [], s => ([], s)
  | p :: rest, s =>
    let (a, s) := foldState f p s
    let (as, s) := foldStateAll f rest s
    (a :: as, s)

end

theorem foldAll_eq_map {α : Type} (f : Plan → List α → α) (ps : List Plan) :
    foldAll f ps = ps.map (fold f) := by
  induction ps with
  | nil => rw [foldAll, List.map_nil]
  | cons p rest ih => rw [foldAll, ih, List.map_cons]

/-- A fold is the combination of the folds of the inputs. -/
theorem fold_eq {α : Type} (f : Plan → List α → α) (p : Plan) :
    fold f p = f p (p.inputs.map (fold f)) := by
  cases p <;> simp [fold, inputs, foldAll_eq_map]

/-- The number of nodes. -/
def size (p : Plan) : Nat := p.fold (fun _ sizes => total sizes + 1)

/-- The plan on one line, the inputs in brackets. -/
def text (p : Plan) : String :=
  p.fold (fun node inputs =>
    if inputs.isEmpty then node.short else node.short ++ "[" ++ ", ".intercalate inputs ++ "]")

mutual

/-- Equality of what two plans mean: notes and cells do not count, numbers are compared by value. -/
def same : Plan → Plan → Bool
  | leaf _ a, leaf _ b => a.same b
  | unary _ a p, unary _ b q => a.same b && p.same q
  | binary _ a l r, binary _ b m s => a.same b && l.same m && r.same s
  | nary _ a ps, nary _ b qs => a == b && sameAll ps qs
  | _, _ => false

/-- Pairwise equality of two lists of plans. -/
def sameAll : List Plan → List Plan → Bool
  | [], [] => true
  | p :: ps, q :: qs => p.same q && sameAll ps qs
  | _, _ => false

end

/-! ### Addressing a node -/

/-- The node that a path of input numbers leads to. -/
def at? : List Nat → Plan → Option Plan
  | [], p => some p
  | i :: path, p => (p.inputs[i]?).bind (at? path)

/-- The plan with the node at the end of a path replaced. -/
def modifyAt (f : Plan → Plan) : List Nat → Plan → Plan
  | [], p => f p
  | i :: path, p => p.withInputs (p.inputs.modify i (modifyAt f path))

/-- Replaces each input of the root, handing a state from left to right. -/
def mapInputs {σ : Type} (f : Plan → σ → Plan × σ) (p : Plan) (s : σ) : Plan × σ :=
  let (inputs, s) := p.inputs.foldl (fun (done, s) input =>
    let (q, s) := f input s
    (done ++ [q], s)) (([] : List Plan), s)
  (p.withInputs inputs, s)

end Plan

end Planner
