import Planner.Program.Basic
import Planner.Flow.Structure

/-! # From programs to flow graphs

Statements become nodes in the order of the text.  A loop's condition is a node behind its body, with
an edge back to the body's first node.  Reads of temporary relations get the scheme of the latest
assignment, and the plan of every statement has to have a scheme. -/

namespace Planner

/-- What has been lowered so far, and the schemes of the relations assigned so far. -/
structure Lowering where
  graph : Flow.Graph
  temps : Temps

namespace Lowering

/-- Gives the reads of a plan their schemes and finds the plan's own. -/
def prepare (s : Lowering) (p : Plan) : Except PlanError (Plan × Scheme) :=
  match p.bindTemps s.temps with
  | (_, some e) => .error e
  | (q, none) => do return (q, ← q.scheme s.graph.cells)

/-- Adds a node that reads what its plan reads. -/
def add (s : Lowering) (op : Plan) (target : Option String) (reads : NameSet) : Logged Lowering := do
  return { s with graph := ← s.graph.add op target reads }

mutual

/-- Lowers a statement. -/
def statement : Statement → Lowering → Logged (Except PlanError Lowering)
  | .assign target plan, s => match s.prepare plan with
    | .error e => pure (.error e)
    | .ok (plan, scheme) => do
      let s ← s.add (.unary {} (.storeTemp target) plan) (some target) plan.temps
      return .ok { s with temps := (target, scheme) :: s.temps }
  | .store key plan, s => match s.prepare plan with
    | .error e => pure (.error e)
    | .ok (plan, _) => do return .ok (← s.add (.unary {} (.store key) plan) none plan.temps)
  | .doWhile body condition, s =>
    if body.isEmpty then pure (.error (.program .emptyBody))
    else do
      let header := s.graph.next
      match ← block body s with
      | .error e => return .error e
      | .ok s =>
        match s.prepare condition with
        | .error e => return .error e
        | .ok (condition, _) =>
          let terminator := s.graph.next
          let s ← s.add condition none condition.temps
          return (s.graph.connect terminator header).map (fun g => { s with graph := g })

/-- Lowers several statements. -/
def block : List Statement → Lowering → Logged (Except PlanError Lowering)
  | [], s => pure (.ok s)
  | first :: rest, s => do
    match ← statement first s with
    | .ok s => block rest s
    | .error e => return .error e

end

end Lowering

namespace Program

/-- The flow graph of a program. -/
def toGraph (p : Program) (cells : Cells) : Logged (Except PlanError Flow.Graph) := do
  match ← Lowering.block p.statements ⟨{ Flow.Graph.empty with cells := cells }, []⟩ with
  | .ok s => return .ok s.graph
  | .error e => return .error e

/-- The plan of a program, with the table of its cells. -/
def compile (p : Program) (cells : Cells) (config : Config) :
    Logged (Except PlanError (Plan × Cells)) := do
  match ← p.toGraph cells with
  | .error e => return .error e
  | .ok g =>
    let (g, plan) ← g.logicalPlan config
    return plan.map (fun plan => (plan, g.cells))

end Program

end Planner
