import Planner.Flow.Liveness

/-! # Deleting dead assignments

A node is dead if what it assigns is not live behind it.  `eliminate` deletes the first dead node
until there is none; a node that assigns nothing is never dead. -/

namespace Planner.Flow

/-- Whether what a node assigns is not live behind it. -/
def Liveness.isDead (l : Liveness) (n : Node) : Bool :=
  match n.target with
  | some name => !decide (name ∈ l.behind n.id)
  | none => false

namespace Graph

/-- The first dead node. -/
def dead? (g : Graph) (l : Liveness) : Option Nat := (g.nodes.find? l.isDead).map Node.id

/-- Deletes dead nodes, at most `fuel` times looking for one. -/
def eliminateWithin : Nat → Nat → Graph → Logged (Graph × Except PlanError Nat)
  | 0, removed, g => pure (g, .ok removed)
  | fuel + 1, removed, g => do
    match g.dead? (← g.liveness) with
    | none => return (g, .ok removed)
    | some id =>
      Logged.debug ("Removing dead node " ++ toString id)
      match g.delete id with
      | .ok h => eliminateWithin fuel (removed + 1) h
      | .error e => return (g, .error e)

/-- Deletes dead nodes until there is none; gives the number of deleted nodes. -/
def eliminate (g : Graph) : Logged (Graph × Except PlanError Nat) := do
  let (h, count) ← eliminateWithin (g.nodes.length + 1) 0 g
  match count with
  | .ok removed =>
    if 0 < removed then
      Logged.info ("Dead-code elimination removed " ++ toString removed ++ " statements")
  | .error _ => pure ()
  return (h, count)

end Graph

end Planner.Flow
