import Planner.Plan.Fixpoint

/-! # Rules

A rule replaces one node.  It is applied to the root first and then to the inputs of what came out,
one after the other.  A rule that keeps making plans larger may never be done, and then there is no plan.

Rules hand a workspace along, in which they may put plans aside and keep what they saw.  What a rule drops
is let go of before it is applied again: a cell that was held there and nowhere else is gone from then
on.  With a log, a plan is kept until a rule is done with it, and its fixpoints hold their cells so
long. -/

namespace Planner

/-- What rules hand along: the cells, the plans that they put aside, and what else they keep. -/
structure Workspace (σ : Type) where
  cells : Cells
  stored : List Plan
  memory : σ

variable {σ : Type}

/-- Lets go of every cell that is not in a list and that no plan put aside holds. -/
def Workspace.release (w : Workspace σ) (held : List CellId) : Workspace σ :=
  { w with cells := w.cells.retain (held ++ w.stored.flatMap Plan.cells) }

/-- A replacement of one node, with a name for the log.  The list has the cells that are held outside
the node, apart from the plans put aside. -/
structure Rule (σ : Type) where
  name : String
  fire : List CellId → Plan → Workspace σ → Plan × Workspace σ

/-- A node with a singleton in place of one input, the one behind `done`. -/
def Plan.gap (q : Plan) (done rest : List Plan) : Plan :=
  q.withInputs (done ++ leaf {} .singleton :: rest)

namespace Rule

/-- Puts the replacement in place of a node and lets go of what was dropped. -/
def put (rule : Rule σ) (held : List CellId) (p : Plan) (w : Workspace σ) : Plan × Workspace σ :=
  let (q, w) := rule.fire held p w
  (q, w.release (held ++ q.cells))

mutual

/-- Applies a rule from the root down.  The plan may be part of a larger one: `around` has what stands
around it, and `others` the cells that are held outside the larger plan. -/
def apply (rule : Rule σ) (others : List CellId) (around : List Plan) (p : Plan) (w : Workspace σ) :
    Option (Plan × Workspace σ) :=
  let (q, w) := rule.put (others ++ around.flatMap Plan.cells) p w
  rule |>.applyInputs others around q [] q.inputs w
partial_fixpoint

/-- Applies a rule to the inputs of a node that are left.  An input is taken out of the node while the
rule is at it. -/
def applyInputs (rule : Rule σ) (others : List CellId) (around : List Plan) (q : Plan)
    (done todo : List Plan) (w : Workspace σ) : Option (Plan × Workspace σ) :=
  match todo with
  | [] => some (q.withInputs done, w)
  | p :: rest => do
    let (p, w) ← rule |>.apply others (q.gap done rest :: around) p w
    rule |>.applyInputs others around q (done ++ [p]) rest w
partial_fixpoint

end

/-- Applies each rule of a list in turn. -/
def applyEach (rules : List (Rule σ)) (others : List CellId) (p : Plan) (w : Workspace σ) :
    Option (Plan × Workspace σ) :=
  rules.foldlM (fun (p, w) rule => rule.apply others [] p w) (p, w)

/-- Applies one rule.  While developers read the log, the plan is kept until the rule is done, to tell
whether the rule changed it. -/
def runLogged (debugging : Bool) (rule : Rule σ) (others : List CellId) (p : Plan) (w : Workspace σ) :
    Logged (Option (Plan × Workspace σ)) := do
  if !debugging then return rule.apply others [] p w
  Logged.debug ("Applying rule " ++ rule.name)
  match rule.apply (others ++ p.cells) [] p w with
  | none => return none
  | some (q, w) =>
    if !p.same q then Logged.debug ("Rule " ++ rule.name ++ " rewrote plan to " ++ q.text)
    return some (q, w.release (others ++ q.cells))

/-- Applies each rule of a list in turn, with a log. -/
def runEach (debugging : Bool) : List (Rule σ) → List CellId → Plan → Workspace σ →
    Logged (Option (Plan × Workspace σ))
  | [], _, p, w => pure (some (p, w))
  | rule :: rest, others, p, w => do
    match ← rule.runLogged debugging others p w with
    | none => return none
    | some (q, w) => runEach debugging rest others q w

end Rule

end Planner
