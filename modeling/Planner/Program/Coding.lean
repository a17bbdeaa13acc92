import Planner.Program.Basic
import Planner.Plan.Coding
import Planner.Json.Reader
import Planner.Yaml.Reader
import Planner.Yaml.Printer

/-! # Programs in documents

A statement is a record of one field, named after its kind.  Unlike plans, statements and programs
have no fields beyond the known ones. -/

namespace Planner

open Planner.Data

namespace Statement

mutual

/-- The tree of a statement. -/
def toTree : Statement → Tree
  | assign target plan => variantTree "assign" [("target", .string target), ("plan", plan.toTree)]
  | store key plan => variantTree "store" [("relation_key", key.toTree), ("plan", plan.toTree)]
  | doWhile body condition =>
    variantTree "do_while" [("body", .list (toTrees body)), ("condition", condition.toTree)]

/-- The trees of several statements. -/
def toTrees : List Statement → List Tree
  | [] => []
  | s :: rest => toTree s :: toTrees rest

end

/-- Reads the statement with a name; the statements of a loop are read by `statement`. -/
def ofBody (statement : Tree → Decoder Trail Statement) (tag : String) (body : Tree) :
    Decoder Trail Statement :=
  match tag with
  | "assign" =>
    (((Form.required "target" .text).both (.required "plan" Plan.ofTree)).map
      (fun (target, plan) => assign target plan)).body false body
  | "store" =>
    (((Form.required "relation_key" RelationKey.ofTree).both (.required "plan" Plan.ofTree)).map
      (fun (key, plan) => store key plan)).body false body
  | "do_while" =>
    (((Form.required "body" (.listOf statement)).both (.required "condition" Plan.ofTree)).map
      (fun (body, condition) => doWhile body condition)).body false body
  | _ => .fail

/-- Reads a statement of at most `fuel` levels. -/
def decode : Nat → Tree → Decoder Trail Statement
  | 0, _ => .fail
  | fuel + 1, t => .variant (fun _ => .fail) (ofBody (decode fuel)) t

/-- Reads a statement.  Every level of it opens a record, so the levels that may be open are
enough. -/
def ofTree (t : Tree) : Decoder Trail Statement := do decode ((← Decoder.document).levels + 1) t

end Statement

namespace Program

/-- The tree of a program. -/
def toTree (p : Program) : Tree := .ofFields [("statements", .list (Statement.toTrees p.statements))]

/-- Reads a program. -/
def ofTree : Tree → Decoder Trail Program :=
  ((Form.required "statements" (.listOf Statement.ofTree)).map Program.mk).record false

/-- The program of a document, with the table of its cells. -/
def ofDocument (d : Document) (table : Cells) : Logged (Except PlanError (Program × Cells)) := do
  match ← table.read ofTree d with
  | some p => return .ok p
  | none => return .error .unparsable

/-- The program of a JSON text. -/
def ofJson (s : String) : Cells → Logged (Except PlanError (Program × Cells)) :=
  ofDocument (Json.read s)

/-- The program of a YAML text. -/
def ofYaml (s : String) : Cells → Logged (Except PlanError (Program × Cells)) :=
  ofDocument (Yaml.read s)

/-- The program as a YAML text. -/
def toYaml (p : Program) : String := Yaml.write p.toTree

end Program

end Planner
