import Planner.Plan.Traversal

/-! # Plans as graphs

`PlanGraph.ofPlan` numbers the nodes of a plan in the order in which they are met and records an edge
from each node to its parent.  A node is known by its place in the plan, the path of input numbers that
leads to it: a place is numbered once, and equal subplans at different places are different nodes.
`toDot` writes the graph for a drawing tool. -/

namespace Planner

/-- The nodes of a plan in order, and the edges from inputs to the nodes that read them. -/
structure PlanGraph where
  nodes : List Plan
  edges : List (Nat × Nat)

namespace PlanGraph

/-- A node that is to be visited: its place, the subplan there and the number of its parent. -/
structure Visit where
  place : List Nat
  plan : Plan
  parent : Option Nat

/-- The visits to the inputs of a node. -/
def Visit.inputs (visit : Visit) (number : Nat) : List Visit :=
  visit.plan.inputs.mapIdx (fun i input => ⟨visit.place ++ [i], input, some number⟩)

theorem Visit.map_plan_inputs (visit : Visit) (number : Nat) :
    (visit.inputs number).map plan = visit.plan.inputs := by
  apply List.ext_getElem?
  intro i
  simp [inputs, Function.comp_def]

theorem Visit.total_size_inputs (visit : Visit) (number : Nat) :
    total ((visit.inputs number).map (·.plan.size)) = total (visit.plan.inputs.map Plan.size) := by
  rw [← visit.map_plan_inputs number, List.map_map]
  rfl

/-- Records the edge from a node to its parent, if it has one; an edge is recorded once. -/
def link (graph : PlanGraph) (number : Nat) (parent : Option Nat) : PlanGraph :=
  match parent with
  | none => graph
  | some parent =>
    if graph.edges.contains (number, parent) then graph
    else { graph with edges := graph.edges ++ [(number, parent)] }

/-- Makes the visits on a stack.  `seen` has the numbers of the places that were met before. -/
def collect (graph : PlanGraph) (seen : List (List Nat × Nat)) (stack : List Visit) : PlanGraph :=
  match stack with
  | [] => graph
  | visit :: rest =>
    match seen.lookup visit.place with
    | some number => collect (graph.link number visit.parent) seen rest
    | none =>
      let number := graph.nodes.length
      let grown : PlanGraph := { graph with nodes := graph.nodes ++ [visit.plan] }
      collect (grown.link number visit.parent) ((visit.place, number) :: seen)
        (visit.inputs number ++ rest)
termination_by total (stack.map (·.plan.size))
decreasing_by
  · have := visit.plan.size_pos
    simp only [List.map_cons, total_cons]
    omega
  · simp only [List.map_append, total_append, List.map_cons, total_cons, Visit.total_size_inputs]
    rw [Plan.size_eq visit.plan]
    omega

/-- The graph of a plan. -/
def ofPlan (p : Plan) : PlanGraph := collect ⟨[], []⟩ [] [⟨[], p, none⟩]

/-- A character inside a label. -/
def labelChar (c : Char) : List Char :=
  if c = '"' then ['\\', '"']
  else if c = '\\' then ['\\', '\\']
  else if c = '\n' then ['\\', 'l']
  else [c]

/-- A label. -/
def label (s : String) : String := String.ofList (s.toList.flatMap labelChar)

/-- The line of a node. -/
def nodeLine (number : Nat) (p : Plan) : String :=
  "    " ++ toString number ++ " [ label = \"" ++ label p.short ++ "\" ]\n"

/-- The line of an edge. -/
def edgeLine (edge : Nat × Nat) : String :=
  "    " ++ toString edge.1 ++ " -> " ++ toString edge.2 ++ " [ ]\n"

/-- The graph as a drawing. -/
def toDot (graph : PlanGraph) : String :=
  "digraph \x7b\n" ++ String.join (graph.nodes.mapIdx nodeLine) ++
    String.join (graph.edges.map edgeLine) ++ "\x7d\n"

end PlanGraph

end Planner
