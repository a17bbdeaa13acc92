import Planner.Flow.DeadCode
import Planner.Flow.Chaining
import Planner.Config

/-! # From flow graphs to plans

The nodes are visited in order with a stack of open blocks.  A node opens a loop for each edge to it
beyond the first and closes one for each edge from it beyond the first; a node that closes loops is
their condition, any other one goes to the innermost block. -/

namespace Planner.Flow

/-- A block that is still open. -/
structure Block where
  /-- Whether the block is the body of a loop. -/
  isLoop : Bool
  plans : List Plan

namespace Block

/-- Adds a plan to the innermost block. -/
def push (p : Plan) : List Block → Option (List Block)
  | [] => none
  | b :: rest => some ({ b with plans := b.plans ++ [p] } :: rest)

/-- The plan of a loop. -/
def loop (body : List Plan) (condition : Plan) : Plan :=
  .binary {} .doWhile (.nary {} .sequence body) condition

/-- Closes the innermost loop. -/
def close (id : Nat) (condition : Plan) : List Block → Except PlanError (List Block)
  | ⟨true, body⟩ :: rest =>
    match push (loop body condition) rest with
    | some stack => .ok stack
    | none => .error (.unbalancedLoops (.closesOutermost id))
  | _ => .error (.unbalancedLoops (.neverOpened id))

/-- Opens a number of loops. -/
def openAll (id : Nat) : Nat → List Block → Logged (List Block)
  | 0, stack => pure stack
  | count + 1, stack => do
    Logged.info ("Introducing loop at node " ++ toString id)
    openAll id count (⟨true, []⟩ :: stack)

/-- Closes a number of loops. -/
def closeAll (id : Nat) (condition : Plan) :
    Nat → List Block → Logged (Except PlanError (List Block))
  | 0, stack => pure (.ok stack)
  | count + 1, stack => do
    Logged.info ("Terminating loop at node " ++ toString id)
    match close id condition stack with
    | .ok stack => closeAll id condition count stack
    | .error e => return .error e

end Block

namespace Graph

/-- Visits a node. -/
def enter (g : Graph) (n : Node) (stack : List Block) : Logged (Except PlanError (List Block)) := do
  let stack ← Block.openAll n.id (g.loopsOpened n.id) stack
  match g.loopsClosed n.id with
  | 0 =>
    Logged.debug ("Appending node " ++ toString n.id ++ " to current block")
    return .ok ((Block.push n.op stack).getD stack)
  | count => Block.closeAll n.id n.op count stack

/-- Visits several nodes. -/
def enterAll (g : Graph) : List Node → List Block → Logged (Except PlanError (List Block))
  | [], stack => pure (.ok stack)
  | n :: rest, stack => do
    match ← g.enter n stack with
    | .ok stack => enterAll g rest stack
    | .error e => return .error e

/-- The plan of the blocks once all nodes were visited. -/
def finish (stack : List Block) : Except PlanError Plan :=
  match stack with
  | [⟨false, plans⟩] => .ok (.nary {} .sequence plans)
  | _ => .error (.unbalancedLoops (.leftOpen (stack.length - 1)))

/-- The plan of a graph. -/
def toPlan (g : Graph) : Logged (Except PlanError Plan) := do
  match ← g.enterAll g.nodes [⟨false, []⟩] with
  | .ok stack => return finish stack
  | .error e => return .error e

/-- Runs a pass, if it is wanted and nothing failed before. -/
def runPass (wanted : Bool) (pass : Graph → Logged (Graph × Except PlanError Nat)) (g : Graph) :
    Logged (Graph × Except PlanError Unit) := do
  if wanted then
    let (g, count) ← pass g
    return (g, count.map (fun _ => ()))
  else return (g, .ok ())

/-- Runs the configured passes and gives the graph they leave and its plan. -/
def logicalPlan (config : Config) (g : Graph) : Logged (Graph × Except PlanError Plan) := do
  match ← runPass config.deadCode eliminate g with
  | (g, .error e) => return (g, .error e)
  | (g, .ok ()) =>
    match ← runPass config.chaining chain g with
    | (g, .error e) => return (g, .error e)
    | (g, .ok ()) => return (g, ← g.toPlan)

end Graph

end Planner.Flow
