import Planner.Resolve

/-! # Why planning fails

`PlanError` is the cause of a failure and `message` its text. -/

namespace Planner

/-- Why a recursive relation has no scheme. -/
inductive RecursionFault
  /-- The fixpoint has no body. -/
  | openFixpoint
  /-- No fixpoint defines the state. -/
  | detachedState (name : String)
  /-- The state's fixpoint has no body whose scheme is known. -/
  | unboundState (name : String)
  deriving DecidableEq, Repr

/-- Why loops do not nest. -/
inductive LoopFault
  | neverOpened (node : Nat)
  | closesOutermost (node : Nat)
  | leftOpen (count : Nat)
  deriving DecidableEq, Repr

/-- Why a program is refused. -/
inductive ProgramFault
  | readBeforeAssigned (temp : String)
  | emptyBody
  deriving DecidableEq, Repr

/-- Operations that only some operators admit. -/
inductive Operation
  | addEquijoin
  | bindBody
  | makeState
  deriving DecidableEq, Repr

/-- Why planning failed. -/
inductive PlanError
  | schema (error : SchemeError)
  | recursion (fault : RecursionFault)
  | equijoinColumns (first second : UInt64) (leftSize total : Nat)
  | unsupported (operation : Operation) (operator : String)
  | unbalancedLoops (fault : LoopFault)
  | unknownNode (node : Nat)
  | inconsistentUses (node : Nat) (temp : String)
  | program (fault : ProgramFault)
  | unparsable
  deriving DecidableEq, Repr

/-- The text of a fault. -/
def RecursionFault.message : RecursionFault → String
  | openFixpoint => "Fixpoint scheme requested before its body was bound"
  | detachedState name => "State '" ++ name ++ "' is not attached to a live Fixpoint"
  | unboundState name => "State '" ++ name ++ "' read before its Fixpoint body was bound"

/-- The text of a fault. -/
def LoopFault.message : LoopFault → String
  | neverOpened node => "node " ++ toString node ++ " ends a loop that was never opened"
  | closesOutermost node => "node " ++ toString node ++ " closes the outermost block"
  | leftOpen count => toString count ++ " loop(s) left open at end of program"

/-- The text of a fault. -/
def ProgramFault.message : ProgramFault → String
  | readBeforeAssigned temp => "temp '" ++ temp ++ "' is read before it is assigned"
  | emptyBody => "do/while body is empty"

/-- The name of an operation in messages. -/
def Operation.text : Operation → String
  | addEquijoin => "add_equijoin_condition"
  | bindBody => "loop_body"
  | makeState => "state_for"

namespace PlanError

/-- The text of an error. -/
def message : PlanError → String
  | schema error => "[P001] Schema error: " ++ error.message
  | recursion fault => "[P002] Recursion error: " ++ fault.message
  | equijoinColumns first second leftSize total =>
    "[P003] Equijoin columns $" ++ toString first.toNat ++ " and $" ++ toString second.toNat ++
      " must reference one column from each input (left has " ++ toString leftSize ++ " of " ++
      toString total ++ " columns)"
  | unsupported operation operator =>
    "[P004] " ++ operation.text ++ " is not supported on " ++ operator
  | unbalancedLoops fault => "[P005] Unbalanced loop structure: " ++ fault.message
  | unknownNode node => "[P006] Unknown CFG node " ++ toString node
  | inconsistentUses node temp =>
    "[P007] Node " ++ toString node ++ " lists '" ++ temp ++ "' as a use but never scans it"
  | program fault => "[P008] Invalid program: " ++ fault.message
  | unparsable => "[P009] Program parse error:"

/-- Whether the failure is about a scheme. -/
def isSchemaError : PlanError → Bool
  | schema _ => true
  | _ => false

end PlanError

end Planner
