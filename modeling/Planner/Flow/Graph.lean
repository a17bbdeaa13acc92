import Planner.Plan.Substitution
import Planner.Text.Quoted

/-! # Flow graphs

The nodes of a flow graph are the statements and loop conditions of a program, numbered in the order
in which they were added; the edges are the ways that control can take.  A new node follows the last
one.  Entering the program counts as an edge to the first node and leaving it as an edge from the
last one; every further edge to a node opens a loop there, and every further edge from it closes
one. -/

namespace Planner.Flow

/-- A statement or a loop condition. -/
structure Node where
  id : Nat
  op : Plan
  /-- The temporary relation that the node assigns. -/
  target : Option String
  /-- The temporary relations that the node reads. -/
  uses : NameSet

/-- What a node computes for a temporary relation: the stored plan, or its own plan if it stores
nothing there. -/
def Node.stored (n : Node) (name : String) : Plan :=
  match n.op with
  | .unary _ (.storeTemp target) input => if target = name then input else n.op
  | op => op

/-- A way that control can take. -/
structure Edge where
  source : Nat
  target : Nat
  deriving DecidableEq, Repr

/-- Order by source, then by target. -/
def Edge.before (a b : Edge) : Bool :=
  a.source < b.source || (a.source == b.source && a.target < b.target)

instance : Ranked Edge where
  before := Edge.before
  irrefl a := by simp [Edge.before]
  trans a b c h₁ h₂ := by
    simp only [Edge.before, Bool.or_eq_true, Bool.and_eq_true, decide_eq_true_eq, beq_iff_eq] at *
    omega
  total a b h₁ h₂ := by
    cases a; cases b
    simp only [Edge.before, Bool.or_eq_false_iff, Bool.and_eq_false_iff, decide_eq_false_iff_not,
      beq_eq_false_iff_ne, Edge.mk.injEq] at *
    omega

/-- A flow graph. -/
structure Graph where
  /-- The nodes, in the order of their numbers. -/
  nodes : List Node
  edges : SortedSet Edge
  /-- The number of the next node. -/
  next : Nat
  /-- The cells of the fixpoints in the nodes' plans. -/
  cells : Cells

namespace Graph

/-- The graph without nodes. -/
def empty : Graph := ⟨[], .empty, 0, .empty⟩

/-! ### Looking around -/

/-- The numbers of the nodes. -/
def ids (g : Graph) : List Nat := g.nodes.map Node.id

/-- The node with a number. -/
def node? (g : Graph) (id : Nat) : Option Node := g.nodes.find? (fun n => n.id == id)

/-- Whether there is a node with a number. -/
def has (g : Graph) (id : Nat) : Bool := g.ids.contains id

/-- The number of the first node. -/
def first? (g : Graph) : Option Nat := g.ids.head?

/-- The number of the last node. -/
def last? (g : Graph) : Option Nat := g.ids.getLast?

/-- The nodes to which control may go next, in order. -/
def successors (g : Graph) (id : Nat) : List Nat :=
  (g.edges.toList.filter (fun e => e.source == id)).map Edge.target

/-- The nodes from which control may come, in order. -/
def predecessors (g : Graph) (id : Nat) : List Nat :=
  (g.edges.toList.filter (fun e => e.target == id)).map Edge.source

/-- The number of edges to a node, with entering the program. -/
def inDegree (g : Graph) (id : Nat) : Nat :=
  (g.predecessors id).length + (if g.first? = some id then 1 else 0)

/-- The number of edges from a node, with leaving the program. -/
def outDegree (g : Graph) (id : Nat) : Nat :=
  (g.successors id).length + (if g.last? = some id then 1 else 0)

/-- The number of loops that begin at a node. -/
def loopsOpened (g : Graph) (id : Nat) : Nat := g.inDegree id - 1

/-- The number of loops that end at a node. -/
def loopsClosed (g : Graph) (id : Nat) : Nat := g.outDegree id - 1

/-- Whether a loop begins at a node. -/
def isHeader (g : Graph) (id : Nat) : Bool := 0 < g.loopsOpened id

/-- Whether a loop ends at a node. -/
def isTerminator (g : Graph) (id : Nat) : Bool := 0 < g.loopsClosed id

/-! ### Changing the graph -/

/-- The graph with a node behind the last one. -/
def withNode (g : Graph) (op : Plan) (target : Option String) (uses : NameSet) : Graph :=
  { g with
    nodes := g.nodes ++ [⟨g.next, op, target, uses⟩]
    edges := match g.last? with
      | some last => g.edges.insert ⟨last, g.next⟩
      | none => g.edges
    next := g.next + 1 }

/-- Adds a node behind the last one. -/
def add (g : Graph) (op : Plan) (target : Option String) (uses : NameSet) : Logged Graph := do
  Logged.debug ("CFG node " ++ toString g.next ++ ": " ++ op.short ++ " def=" ++ target.getD "-" ++
    " uses=" ++ Text.quoteSet uses.toList)
  return g.withNode op target uses

/-- Adds an edge between two nodes. -/
def connect (g : Graph) (source target : Nat) : Except PlanError Graph :=
  if !g.has source then .error (.unknownNode source)
  else if !g.has target then .error (.unknownNode target)
  else .ok { g with edges := g.edges.insert ⟨source, target⟩ }

/-- The first node with a larger number. -/
def following? (g : Graph) (id : Nat) : Option Nat := g.ids.find? (fun i => id < i)

/-- The edges that lead past a node to the one that follows it. -/
def detours (g : Graph) (id : Nat) : List Edge :=
  match g.following? id with
  | some next => ((g.predecessors id).filter (· != id)).map (fun p => ⟨p, next⟩)
  | none => []

/-- The graph without a node; what led to it leads to the one that follows it. -/
def without (g : Graph) (id : Nat) : Graph :=
  { g with
    nodes := g.nodes.filter (fun n => n.id != id)
    edges := (g.edges.insertAll (g.detours id)).filter (fun e => e.source != id && e.target != id) }

/-- Deletes a node. -/
def delete (g : Graph) (id : Nat) : Except PlanError Graph :=
  if g.has id then .ok (g.without id) else .error (.unknownNode id)

/-- The graph with a node replaced. -/
def replaceNode (g : Graph) (n : Node) : Graph :=
  { g with nodes := g.nodes.map (fun m => if m.id = n.id then n else m) }

/-- Puts the plan of node `source` in place of the reads of `name` in node `target`, and deletes
`source`. -/
def inline (g : Graph) (source target : Nat) (name : String) : Logged (Except PlanError Graph) :=
  match g.node? target, g.node? source with
  | none, _ => pure (.error (.unknownNode target))
  | _, none => pure (.error (.unknownNode source))
  | some reader, some writer =>
    let (op, count, cells) := reader.op.substitute name (writer.stored name) g.cells
    if count = 0 then pure (.error (.inconsistentUses target name))
    else do
      Logged.debug ("Inlined node " ++ toString source ++ " into " ++ toString target ++ " (" ++
        toString count ++ " reads of '" ++ name ++ "')")
      let uses := (reader.uses.erase name).union writer.uses
      return ({ g with cells := cells }.replaceNode { reader with op := op, uses := uses }).delete source

/-! ### Listing -/

/-- A node on one line. -/
def nodeLine (n : Node) : String :=
  toString n.id ++ ": uses=[" ++ commas n.uses.toList ++ "] def=" ++ n.target.getD "-" ++ " op=" ++
    n.op.text

/-- The nodes, one to a line, and the edges on the last line. -/
def text (g : Graph) : String :=
  String.join (g.nodes.map (fun n => nodeLine n ++ "\n")) ++
    "; ".intercalate
      (g.edges.toList.map (fun e => toString e.source ++ "=>" ++ toString e.target))

end Graph

end Planner.Flow
