import Planner.Flow.Liveness

/-! # Moving assignments to their reader

Where a node assigns what the next node reads and nobody reads afterwards, and control can neither
enter between the two nor leave, the first node's plan can stand in the second one.  `chain` does this
for the first such pair until there is none. -/

namespace Planner.Flow

/-- A node whose plan can be moved into the next one. -/
structure Link where
  writer : Nat
  reader : Nat
  name : String
  deriving DecidableEq, Repr

namespace Graph

/-- Whether the first node's plan can be moved into the second one. -/
def link? (g : Graph) (l : Liveness) (a b : Node) : Option Link :=
  if g.isHeader b.id || g.isTerminator a.id then none
  else match a.target with
    | some name =>
      if name ∈ b.uses ∧ name ∉ l.behind b.id then some ⟨a.id, b.id, name⟩ else none
    | none => none

/-- The first pair of neighbours that can be joined. -/
def firstLink? (g : Graph) (l : Liveness) : Option Link :=
  (g.nodes.zip (g.nodes.drop 1)).findSome? (fun pair => g.link? l pair.1 pair.2)

/-- Joins neighbours, at most `fuel` times looking for a pair. -/
def chainWithin : Nat → Nat → Graph → Logged (Graph × Except PlanError Nat)
  | 0, fused, g => pure (g, .ok fused)
  | fuel + 1, fused, g => do
    match g.firstLink? (← g.liveness) with
    | none => return (g, .ok fused)
    | some link =>
      Logged.debug ("Chaining node " ++ toString link.writer ++ " into " ++ toString link.reader ++
        " through '" ++ link.name ++ "'")
      match ← g.inline link.writer link.reader link.name with
      | .ok h => chainWithin fuel (fused + 1) h
      | .error e => return (g, .error e)

/-- Joins neighbours until there is no pair; gives the number of joined pairs. -/
def chain (g : Graph) : Logged (Graph × Except PlanError Nat) := do
  let (h, count) ← chainWithin (g.nodes.length + 1) 0 g
  match count with
  | .ok fused =>
    if 0 < fused then Logged.info ("Chaining fused " ++ toString fused ++ " statements")
  | .error _ => pure ()
  return (h, count)

end Graph

end Planner.Flow
