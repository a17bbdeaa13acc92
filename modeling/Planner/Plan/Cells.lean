import Planner.Plan.Basic
import Planner.Plan.Error

/-! # Cells

A fixpoint owns a cell in which it publishes the scheme of its body; states read it there.  `Cells`
is the table of all cells, numbered in the order in which they were made.  A cell is gone once no
fixpoint holds it, and a state that reads it is detached from then on. -/

namespace Planner

/-- What a cell holds. -/
inductive Cell
  /-- No body with a known scheme has been bound. -/
  | unbound
  /-- The scheme of the body. -/
  | bound (scheme : Scheme)
  /-- No fixpoint holds the cell any more. -/
  | gone
  deriving DecidableEq, Repr

/-- The table of cells. -/
structure Cells where
  table : List Cell
  deriving DecidableEq, Repr

/-- The cell that holds a scheme or none. -/
def Cell.ofScheme? : Option Scheme → Cell
  | some scheme => bound scheme
  | none => unbound

namespace Cells

/-- The table without a cell. -/
def empty : Cells := ⟨[]⟩

/-- The number of the next cell. -/
def next (cells : Cells) : CellId := cells.table.length

/-- What a cell holds; a cell that was never made counts as gone. -/
def get (cells : Cells) (id : CellId) : Cell := (cells.table[id]?).getD .gone

/-- The published scheme. -/
def scheme? (cells : Cells) (id : CellId) : Option Scheme :=
  match cells.get id with
  | .bound scheme => some scheme
  | _ => none

/-- Makes a cell. -/
def make (cells : Cells) (content : Option Scheme) : CellId × Cells :=
  (cells.next, ⟨cells.table ++ [.ofScheme? content]⟩)

/-- Publishes a scheme, or withdraws it. -/
def publish (cells : Cells) (id : CellId) (content : Option Scheme) : Cells :=
  ⟨cells.table.set id (.ofScheme? content)⟩

/-- Lets go of every cell that is not in a list. -/
def retain (cells : Cells) (live : List CellId) : Cells :=
  ⟨cells.table.mapIdx (fun id cell => if live.contains id then cell else .gone)⟩

/-- The scheme that a state reads. -/
def stateScheme (cells : Cells) (name : String) (cell : Option CellId) : Except PlanError Scheme :=
  match cell.map cells.get with
  | some (.bound scheme) => .ok scheme
  | some .unbound => .error (.recursion (.unboundState name))
  | _ => .error (.recursion (.detachedState name))

end Cells

/-- The cell of a fixpoint at the root. -/
def Plan.cell? : Plan → Option CellId
  | leaf _ (.fixpoint cell) => some cell
  | unary _ (.fixpoint cell) _ => some cell
  | _ => none

/-- The cell that a state at the root reads. -/
def Plan.stateCell? : Plan → Option CellId
  | leaf _ (.state _ cell) => cell
  | _ => none

/-- The operator without its cell, which tells fixpoints apart but is no part of what they mean. -/
def Leaf.bare : Leaf → Leaf
  | state name _ => state name none
  | fixpoint _ => fixpoint 0
  | op => op

/-- The operator without its cell. -/
def Unary.bare : Unary → Unary
  | fixpoint _ => fixpoint 0
  | op => op

end Planner
