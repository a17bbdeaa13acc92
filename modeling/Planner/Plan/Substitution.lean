import Planner.Plan.Fixpoint

/-! # Substitution and join conditions

Reads of temporary relations: which there are, giving them their schemes, and substituting a plan
for them.  Join conditions: requiring that a column of one input equals a column of the other. -/

namespace Planner

/-- The schemes of temporary relations, the latest first. -/
abbrev Temps := List (String × Scheme)

namespace Plan

/-- The temporary relation that the root reads. -/
def temp? : Plan → Option String
  | leaf _ (.scanTemp name _) => some name
  | _ => none

/-- The temporary relations that a plan reads. -/
def temps (p : Plan) : NameSet := .ofList (p.preorder.filterMap temp?)

/-- Gives the read at the root its scheme, unless it has one or a read before it failed. -/
def bindTemp (temps : Temps) (p : Plan) (failed : Option PlanError) : Plan × Option PlanError :=
  match failed, p with
  | none, leaf notes (.scanTemp name scheme) =>
    if scheme.isEmpty then
      match temps.lookup name with
      | some scheme => (leaf notes (.scanTemp name scheme), none)
      | none => (p, some (.program (.readBeforeAssigned name)))
    else (p, none)
  | failed, p => (p, failed)

/-- Gives reads without a scheme their schemes, from left to right up to the first that has none. -/
def bindTemps (temps : Temps) (p : Plan) : Plan × Option PlanError :=
  p.foldState (fun node inputs failed => bindTemp temps (node.withInputs inputs) failed) none

/-- Puts a copy of a plan in place of each read of a temporary relation, and counts them. -/
def substitute (p : Plan) (name : String) (replacement : Plan) (table : Cells) :
    Plan × Nat × Cells :=
  let (q, count, table) := p.foldState (fun node inputs (s : Nat × Cells) =>
    if node.temp? = some name then
      let (q, table) := replacement.copy s.2
      (q, s.1 + 1, table)
    else (node.withInputs inputs, s)) (0, table)
  (q, count, table)

/-- The inputs of a join that takes conditions. -/
def joinInputs? : Plan → Option (Plan × Plan)
  | binary _ (.join _) left right => some (left, right)
  | binary _ .crossProduct left right => some (left, right)
  | _ => none

/-- Checks that two positions are in range and belong to different inputs of a join. -/
def checkEquijoin (p : Plan) (table : Cells) (i j : UInt64) : Except PlanError Unit :=
  match p.joinInputs? with
  | none => .error (.unsupported .addEquijoin p.name)
  | some (left, right) => do
    let n := (← left.scheme table).size
    let total := n + (← right.scheme table).size
    if i.toNat < total && j.toNat < total && (decide (i.toNat < n) != decide (j.toNat < n)) then .ok ()
    else .error (.equijoinColumns i j n total)

/-- Requires that two columns agree; a product becomes a join. -/
def addEquijoin (p : Plan) (table : Cells) (i j : UInt64) : Except PlanError Plan := do
  p.checkEquijoin table i j
  match p with
  | binary notes (.join condition) left right =>
    .ok (binary notes (.join (.binary .and condition (.eqCols i j))) left right)
  | binary _ .crossProduct left right => .ok (binary {} (.join (.eqCols i j)) left right)
  | p => .error (.unsupported .addEquijoin p.name)

end Plan

end Planner
