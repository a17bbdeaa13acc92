import Planner.Flow.Graph

/-! # Live temporary relations

A temporary relation is live where its value may still be read.  What is live behind a node is what
is live before one of its successors, and live before a node is what it reads and what is live
behind it and not assigned by it.  `Graph.liveness` solves these equations by sweeping over the nodes
from the last to the first until nothing changes. -/

namespace Planner.Flow

/-- What is live around a node. -/
structure LiveSets where
  id : Nat
  before : NameSet
  behind : NameSet
  deriving DecidableEq

/-- What is live around each node. -/
structure Liveness where
  entries : List LiveSets
  deriving DecidableEq

namespace Liveness

/-- What is live around a node; nothing is, around a node that is not in the table. -/
def get (l : Liveness) (id : Nat) : LiveSets :=
  (l.entries.find? (fun e => e.id == id)).getD ⟨id, .empty, .empty⟩

/-- What is live before a node. -/
def before (l : Liveness) (id : Nat) : NameSet := (l.get id).before

/-- What is live behind a node. -/
def behind (l : Liveness) (id : Nat) : NameSet := (l.get id).behind

/-- The table with another entry for a node. -/
def put (l : Liveness) (e : LiveSets) : Liveness :=
  ⟨l.entries.map (fun old => if old.id = e.id then e else old)⟩

/-- Where the sweeps start: before each node, what it reads. -/
def start (g : Graph) : Liveness := ⟨g.nodes.map (fun n => ⟨n.id, n.uses, .empty⟩)⟩

/-- What is live before some node of a list. -/
def beforeAny (l : Liveness) (ids : List Nat) : NameSet :=
  .ofList (ids.flatMap (fun id => (l.before id).toList))

/-- What is live before a node, from what is live behind it. -/
def through (n : Node) (behind : NameSet) : NameSet :=
  n.uses.union (behind.filter (fun x => n.target != some x))

/-- What is live around a node, from what is live before its successors. -/
def transfer (g : Graph) (l : Liveness) (n : Node) : LiveSets :=
  let behind := l.beforeAny (g.successors n.id)
  ⟨n.id, through n behind, behind⟩

/-- Updates one node; the flag turns true if its entry changes. -/
def visit (g : Graph) (n : Node) (s : Liveness × Bool) : Liveness × Bool :=
  let e := transfer g s.1 n
  if s.1.get n.id = e then s else (s.1.put e, true)

/-- Updates all nodes, from the last to the first. -/
def sweep (g : Graph) (l : Liveness) : Liveness × Bool := g.nodes.foldr (visit g) (l, false)

/-- Sweeps until nothing changes, at most `fuel` times; gives the number of sweeps too. -/
def solveWithin (g : Graph) : Nat → Nat → Liveness → Liveness × Nat
  | 0, count, l => (l, count)
  | fuel + 1, count, l =>
    match sweep g l with
    | (l, true) => solveWithin g fuel (count + 1) l
    | (l, false) => (l, count + 1)

/-- A number of sweeps that is always enough: each but the last adds a name to an entry. -/
def sweepBound (g : Graph) : Nat :=
  2 * g.nodes.length * total (g.nodes.map (fun n => n.uses.toList.length)) + 1

/-- The solution and the number of sweeps to it. -/
def solve (g : Graph) : Liveness × Nat := solveWithin g (sweepBound g) 0 (start g)

end Liveness

/-- What is live around each node of a graph. -/
def Graph.liveness (g : Graph) : Logged Liveness := do
  let (l, count) := Liveness.solve g
  Logged.debug ("Liveness converged after " ++ toString count ++ " iterations")
  return l

end Planner.Flow
