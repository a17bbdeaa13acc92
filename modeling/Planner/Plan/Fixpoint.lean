import Planner.Plan.Scheme
import Planner.Plan.Traversal
import Planner.Logged

/-! # Binding recursive relations

`bindBody` gives a fixpoint its body and publishes the body's scheme, `makeState` makes a state that
reads it.  `copy` gives every fixpoint of a plan a cell of its own that holds the same scheme, and
points the states of the plan that read it at the new cell; other states keep theirs.  `settle` gives
a fixpoint that was read from a document its cell. -/

namespace Planner

namespace Plan

/-- The cells of the plan's fixpoints, each once, in preorder. -/
def cells (p : Plan) : List CellId := (p.preorder.filterMap cell?).eraseDups

end Plan

/-- Makes a new cell with the same content for each cell of a list. -/
def Cells.duplicate (cells : Cells) : List CellId → List (CellId × CellId) × Cells
  | [] => ([], cells)
  | old :: rest =>
    let (fresh, cells) := cells.make (cells.scheme? old)
    let (moves, cells) := cells.duplicate rest
    ((old, fresh) :: moves, cells)

namespace Plan

/-- Renames a cell, if it is in the list. -/
def renamed (moves : List (CellId × CellId)) (cell : CellId) : CellId :=
  (moves.lookup cell).getD cell

/-- Renames the cell at the root. -/
def relinkRoot (moves : List (CellId × CellId)) : Plan → Plan
  | leaf notes (.fixpoint cell) => leaf notes (.fixpoint (renamed moves cell))
  | leaf notes (.state name (some cell)) => leaf notes (.state name (some (renamed moves cell)))
  | unary notes (.fixpoint cell) body => unary notes (.fixpoint (renamed moves cell)) body
  | p => p

/-- Renames every cell. -/
def relink (moves : List (CellId × CellId)) (p : Plan) : Plan :=
  p.fold (fun node inputs => (node.relinkRoot moves).withInputs inputs)

/-- A plan that means the same and shares no cell of a fixpoint; the root is not bound. -/
def copy (p : Plan) (table : Cells) : Plan × Cells :=
  let (moves, table) := table.duplicate p.cells
  let q := p.relink moves
  (q.withNotes { q.notes with bound := none, label := none }, table)

/-- The note in the log that a body has no scheme. -/
def unresolvedBody (e : PlanError) : String := "Fixpoint body scheme unresolved: " ++ e.message

/-- Gives a fixpoint its body and publishes the body's scheme. -/
def bindBody (p body : Plan) (table : Cells) : Logged (Except PlanError (Plan × Cells)) :=
  match p.cell? with
  | none => pure (.error (.unsupported .bindBody p.name))
  | some cell =>
    let bound := unary p.notes (.fixpoint cell) body
    match body.scheme table with
    | .ok scheme => pure (.ok (bound, table.publish cell (some scheme)))
    | .error e => do
      Logged.debug (unresolvedBody e)
      return .ok (bound, table.publish cell none)

/-- A state that reads a fixpoint. -/
def makeState (p : Plan) (name : String) : Except PlanError Plan :=
  match p.cell? with
  | some cell => .ok (leaf {} (.state name (some cell)))
  | none => .error (.unsupported .makeState p.name)

/-- Gives the fixpoint at the root a new cell with its body's scheme. -/
def settle (p : Plan) (table : Cells) : Logged (Plan × Cells) :=
  match p with
  | leaf notes (.fixpoint _) =>
    let (cell, table) := table.make none
    pure (leaf notes (.fixpoint cell), table)
  | unary notes (.fixpoint _) body =>
    match body.scheme table with
    | .ok scheme =>
      let (cell, table) := table.make (some scheme)
      pure (unary notes (.fixpoint cell) body, table)
    | .error e => do
      Logged.debug (unresolvedBody e)
      let (cell, table) := table.make none
      return (unary notes (.fixpoint cell) body, table)
  | p => pure (p, table)

end Plan

end Planner
