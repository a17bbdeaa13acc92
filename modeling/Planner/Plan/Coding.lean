import Planner.Plan.Fixpoint
import Planner.Expr.Coding

/-! # Plans in documents

A plan is written as a record of one field, named after the operator at the root, which holds a
record of the operator's arguments and inputs.  Cells and notes are not written.  A fixpoint gets its
cell as soon as it has been read, and states are read detached. -/

namespace Planner

open Planner.Data

namespace Mapping

/-- The tree of a mapping. -/
def toTree (m : Mapping) : Tree :=
  .ofFields ((match m.name with | some name => [("name", .string name)] | none => []) ++
    [("expr", m.expr.toTree)])

/-- Reads a mapping. -/
def ofTree {σ : Type} : Tree → Decoder σ Mapping :=
  (((Form.optional "name" Decoder.text).both (.required "expr" Expr.ofTree)).map
    fun (name, expr) => ⟨name, expr⟩).record true

end Mapping

/-! ### Writing -/

/-- The tree of a list of references. -/
def refsTree (refs : List ColumnRef) : Tree := .list (refs.map ColumnRef.toTree)

/-- The tree of a leaf. -/
def Leaf.toTree : Leaf → Tree
  | scan key scheme => variantTree "scan" [("relation_key", key.toTree), ("scheme", scheme.toTree)]
  | scanTemp name scheme =>
    variantTree "scan_temp" [("name", .string name), ("scheme", scheme.toTree)]
  | emptyRelation scheme => variantTree "empty_relation" [("scheme", scheme.toTree)]
  | singleton => .string "singleton_relation"
  | state name _ => variantTree "state" [("name", .string name)]
  | fixpoint _ => variantTree "fixpoint" []

/-- The tree of an operator over one input. -/
def Unary.toTree (op : Unary) (input : Tree) : Tree :=
  match op with
  | select condition => variantTree "select" [("condition", condition.toTree), ("input", input)]
  | project columns => variantTree "project" [("columns", refsTree columns), ("input", input)]
  | apply mappings =>
    variantTree "apply" [("mappings", .list (mappings.map Mapping.toTree)), ("input", input)]
  | groupBy columns =>
    variantTree "group_by" [("columns", .list (columns.map Expr.toTree)), ("input", input)]
  | distinct => variantTree "distinct" [("input", input)]
  | limit count => variantTree "limit" [("count", .nat count.toNat), ("input", input)]
  | shuffle columns => variantTree "shuffle" [("columns", refsTree columns), ("input", input)]
  | collect (some server) =>
    variantTree "collect" [("server", .nat server.toNat), ("input", input)]
  | collect none => variantTree "collect" [("input", input)]
  | broadcast => variantTree "broadcast" [("input", input)]
  | partitionBy columns =>
    variantTree "partition_by" [("columns", refsTree columns), ("input", input)]
  | store key => variantTree "store" [("relation_key", key.toTree), ("input", input)]
  | storeTemp name => variantTree "store_temp" [("name", .string name), ("input", input)]
  | fixpoint _ => variantTree "fixpoint" [("body", input)]

/-- The tree of an operator over two inputs. -/
def Binary.toTree (op : Binary) (left right : Tree) : Tree :=
  match op with
  | join condition =>
    variantTree "join" [("condition", condition.toTree), ("left", left), ("right", right)]
  | crossProduct => variantTree "cross_product" [("left", left), ("right", right)]
  | projectingJoin condition (some columns) =>
    variantTree "projecting_join"
      [("condition", condition.toTree), ("columns", refsTree columns), ("left", left),
        ("right", right)]
  | projectingJoin condition none =>
    variantTree "projecting_join"
      [("condition", condition.toTree), ("left", left), ("right", right)]
  | union => variantTree "union" [("left", left), ("right", right)]
  | unionAll => variantTree "union_all" [("left", left), ("right", right)]
  | intersection => variantTree "intersection" [("left", left), ("right", right)]
  | difference => variantTree "difference" [("left", left), ("right", right)]
  | doWhile => variantTree "do_while" [("body", left), ("condition", right)]

/-- The tree of an operator over any number of inputs. -/
def Nary.toTree (op : Nary) (inputs : List Tree) : Tree :=
  match op with
  | join conditions =>
    variantTree "nary_join"
      [("conditions", .list (conditions.map (fun group => .list (group.map (fun p => .nat p.toNat))))),
        ("inputs", .list inputs)]
  | sequence => variantTree "sequence" [("ops", .list inputs)]

namespace Plan

mutual

/-- The tree of a plan. -/
def toTree : Plan → Tree
  | leaf _ op => op.toTree
  | unary _ op input => op.toTree (toTree input)
  | binary _ op left right => op.toTree (toTree left) (toTree right)
  | nary _ op inputs => op.toTree (toTrees inputs)

/-- The trees of several plans. -/
def toTrees : List Plan → List Tree
  | [] => []
  | p :: rest => toTree p :: toTrees rest

end

end Plan

/-! ### Reading -/

/-- What reading plans leaves behind: the cells of their fixpoints and the lines of the log. -/
structure Trail where
  cells : Cells
  log : List LogLine := []

/-- Reads what holds plans, with the table of cells; the log is there even if reading fails. -/
def Cells.read {α : Type} (cells : Cells) (f : Tree → Decoder Trail α) (d : Document) :
    Logged (Option (α × Cells)) :=
  let (a, trail) := d.read f { cells := cells }
  ⟨a.map (fun a => (a, trail.cells)), trail.log⟩

namespace Plan

/-- Gives the fixpoint at the root its cell. -/
def settled (p : Plan) : Decoder Trail Plan := .update fun s =>
  let done := p.settle s.cells
  (done.value.1, { cells := done.value.2, log := s.log ++ done.log })

/-- Reads a list of references. -/
def refsOf {σ : Type} : Tree → Decoder σ (List ColumnRef) := .listOf ColumnRef.ofTree

section Operators

variable {σ δ α : Type} (plan : Tree → Decoder σ Plan)

/-- Reads a leaf. -/
def leafOf (form : Form σ δ α) (op : α → Leaf) (body : Tree) : Decoder σ Plan :=
  (form.map (fun a => leaf {} (op a))).body true body

/-- Reads an operator over the input in the field `input`. -/
def unaryOf (form : Form σ δ α) (op : α → Unary) (body : Tree) : Decoder σ Plan :=
  ((form.both (.required "input" plan)).map (fun (a, input) => unary {} (op a) input)).body true body

/-- Reads an operator without arguments over the input in the field `input`. -/
def plainUnary (op : Unary) (body : Tree) : Decoder σ Plan :=
  ((Form.required "input" plan).map (unary {} op)).body true body

/-- Reads an operator over the inputs in the fields `left` and `right`. -/
def binaryOf (form : Form σ δ α) (op : α → Binary) (body : Tree) : Decoder σ Plan :=
  ((form.both ((Form.required "left" plan).both (.required "right" plan))).map
    (fun (a, left, right) => binary {} (op a) left right)).body true body

/-- Reads an operator without arguments over the inputs in the fields with two names. -/
def plainBinary (left right : String) (op : Binary) (body : Tree) : Decoder σ Plan :=
  (((Form.required left plan).both (.required right plan)).map
    (fun (left, right) => binary {} op left right)).body true body

/-- Reads the operator with a name, whose inputs are read by `plan`. -/
def ofBody (tag : String) (body : Tree) : Decoder σ Plan :=
  match tag with
  | "scan" => leafOf ((Form.required "relation_key" RelationKey.ofTree).both
      (.required "scheme" Scheme.ofTree)) (fun (key, scheme) => .scan key scheme) body
  | "scan_temp" => leafOf ((Form.required "name" .text).both
      (.defaulted "scheme" .empty Scheme.ofTree)) (fun (name, scheme) => .scanTemp name scheme) body
  | "empty_relation" => leafOf (.defaulted "scheme" .empty Scheme.ofTree) .emptyRelation body
  | "singleton_relation" => do
    Decoder.absent body
    return leaf {} .singleton
  | "state" => leafOf (.required "name" .text) (.state · none) body
  | "select" => unaryOf plan (.required "condition" Expr.ofTree) .select body
  | "project" => unaryOf plan (.required "columns" refsOf) .project body
  | "apply" => unaryOf plan (.required "mappings" (.listOf Mapping.ofTree)) .apply body
  | "group_by" => unaryOf plan (.required "columns" (.listOf Expr.ofTree)) .groupBy body
  | "distinct" => plainUnary plan .distinct body
  | "limit" => unaryOf plan (.required "count" word64) .limit body
  | "shuffle" => unaryOf plan (.required "columns" refsOf) .shuffle body
  | "collect" => unaryOf plan (.optional "server" (.nat (twoTo 32)))
      (fun server => .collect (server.map UInt32.ofNat)) body
  | "broadcast" => plainUnary plan .broadcast body
  | "partition_by" => unaryOf plan (.required "columns" refsOf) .partitionBy body
  | "store" => unaryOf plan (.required "relation_key" RelationKey.ofTree) .store body
  | "store_temp" => unaryOf plan (.required "name" .text) .storeTemp body
  | "fixpoint" =>
    ((Form.optional "body" plan).map fun
      | some body => unary {} (.fixpoint 0) body
      | none => leaf {} (.fixpoint 0)).body true body
  | "join" => binaryOf plan (.required "condition" Expr.ofTree) .join body
  | "cross_product" => plainBinary plan "left" "right" .crossProduct body
  | "projecting_join" => binaryOf plan ((Form.required "condition" Expr.ofTree).both
      (.optional "columns" refsOf)) (fun (condition, columns) => .projectingJoin condition columns) body
  | "union" => plainBinary plan "left" "right" .union body
  | "union_all" => plainBinary plan "left" "right" .unionAll body
  | "intersection" => plainBinary plan "left" "right" .intersection body
  | "difference" => plainBinary plan "left" "right" .difference body
  | "do_while" => plainBinary plan "body" "condition" .doWhile body
  | "nary_join" =>
    (((Form.required "conditions" (.listOf (.listOf word64))).both
      (.required "inputs" (.listOf plan))).map
        (fun (conditions, inputs) => nary {} (.join conditions) inputs)).body true body
  | "sequence" => ((Form.required "ops" (.listOf plan)).map (nary {} .sequence)).body true body
  | _ => .fail

end Operators

/-- The operator that is written as its name alone. -/
def ofName? : String → Option Plan
  | "singleton_relation" => some (leaf {} .singleton)
  | _ => none

/-- Reads a plan of at most `fuel` levels. -/
def decode : Nat → Tree → Decoder Trail Plan
  | 0, _ => .fail
  | fuel + 1, t => do
    let p ← Decoder.variant (fun name => .ofOption (ofName? name)) (ofBody (decode fuel)) t
    settled p

/-- Reads a plan.  Every level of it but a last one opens a record, so the levels that may be open
are enough. -/
def ofTree (t : Tree) : Decoder Trail Plan := do decode ((← Decoder.document).levels + 1) t

end Plan

end Planner
