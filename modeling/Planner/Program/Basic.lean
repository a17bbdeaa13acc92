import Planner.Plan.Fixpoint

/-! # Programs

A program is a list of statements: assignments to temporary relations, stores into named relations,
and loops that run their body and then again as long as a condition has rows. -/

namespace Planner

/-- A statement. -/
inductive Statement
  | assign (target : String) (plan : Plan)
  | store (key : RelationKey) (plan : Plan)
  | doWhile (body : List Statement) (condition : Plan)

/-- A program. -/
structure Program where
  statements : List Statement

namespace Statement

mutual

/-- Equality of what two statements mean. -/
def same : Statement → Statement → Bool
  | assign a p, assign b q => a == b && p.same q
  | store a p, store b q => a == b && p.same q
  | doWhile as p, doWhile bs q => sameAll as bs && p.same q
  | _, _ => false

/-- Pairwise equality of two lists of statements. -/
def sameAll : List Statement → List Statement → Bool
  | [], [] => true
  | a :: as, b :: bs => a.same b && sameAll as bs
  | _, _ => false

end

end Statement

namespace Program

/-- Equality of what two programs mean. -/
def same (p q : Program) : Bool := Statement.sameAll p.statements q.statements

end Program

end Planner
