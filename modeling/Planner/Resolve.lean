import Planner.Expr.Basic
import Planner.RelationKey

/-! # Resolving references, and what can go wrong

`SchemeError` is why a reference, a type or a relation key was refused, `message` its text.  A
scheme resolves a name that exactly one column carries, and a position below its size. -/

namespace Planner

/-- Why the operands of an expression do not fit. -/
inductive Mismatch
  | negation (type : ColumnType)
  | operands (op : BinaryOp) (left right : ColumnType)
  | argument (func : AggregateFunc) (type : Option ColumnType)
  deriving DecidableEq, Repr

/-- Why a scheme, a type or a key was refused. -/
inductive SchemeError
  | unknownColumn (name : String) (scheme : Scheme)
  | ambiguousColumn (name : String) (first second : Nat)
  | columnOutOfRange (position : UInt64) (size : Nat)
  | noColumns (operator : String)
  | unknownType (name : String)
  | typeMismatch (expr : Expr) (cause : Mismatch)
  | invalidRelationKey (key : String)
  deriving DecidableEq, Repr

/-- The text of a mismatch. -/
def Mismatch.message : Mismatch → String
  | negation type => "cannot negate " ++ type.displayName
  | operands op left right => op.sign ++ " over " ++ left.displayName ++ " and " ++ right.displayName
  | argument func type =>
    func.kindName ++ " over " ++ (type.map ColumnType.displayName).getD "*"

namespace SchemeError

/-- The text of an error. -/
def message : SchemeError → String
  | unknownColumn name scheme => "[S001] Unknown column '" ++ name ++ "' in scheme " ++ scheme.text
  | ambiguousColumn name first second =>
    "[S002] Ambiguous column '" ++ name ++ "': bound at positions " ++ toString first ++ " and " ++
      toString second
  | columnOutOfRange position size =>
    "[S003] Column position $" ++ toString position.toNat ++ " out of range for scheme of " ++
      toString size ++ " columns"
  | noColumns operator =>
    "[S004] Invalid column list: " ++ operator ++ " needs at least one output column"
  | unknownType name => "[T001] Unknown column type '" ++ name ++ "'"
  | typeMismatch expr cause => "[T002] Type mismatch in '" ++ expr.text ++ "': " ++ cause.message
  | invalidRelationKey key =>
    "[R001] Invalid relation key '" ++ key ++
      "': expected 'relation' or 'user:program:relation'"

/-- Whether the error is about the columns of a scheme. -/
def isSchemaError : SchemeError → Bool
  | unknownColumn _ _ | ambiguousColumn _ _ _ | columnOutOfRange _ _ | noColumns _ => true
  | _ => false

end SchemeError

/-- The type that a name stands for. -/
def ColumnType.parse (name : String) : Except SchemeError ColumnType :=
  match ofName? name with
  | some type => .ok type
  | none => .error (.unknownType name)

/-- The key that a text stands for. -/
def RelationKey.parse (s : String) : Except SchemeError RelationKey :=
  match parse? s with
  | some key => .ok key
  | none => .error (.invalidRelationKey s)

namespace Scheme

/-- Walks the columns from position `i` on; `found` is where the name was met before. -/
def scan (name : String) : List Column → Nat → Option Nat → Except (Option (Nat × Nat)) Nat
  | [], _, some found => .ok found
  | [], _, none => .error none
  | c :: rest, i, found =>
    if c.name = some name then
      match found with
      | some first => .error (some (first, i))
      | none => scan name rest (i + 1) (some i)
    else scan name rest (i + 1) found

/-- The position of the one column with a name. -/
def positionOf (s : Scheme) (name : String) : Except SchemeError Nat :=
  match scan name s.columns 0 none with
  | .ok i => .ok i
  | .error (some (first, second)) => .error (.ambiguousColumn name first second)
  | .error none => .error (.unknownColumn name s)

/-- Whether exactly one column has a name. -/
def contains (s : Scheme) (name : String) : Bool := (s.positionOf name).toOption.isSome

/-- The column at a position. -/
def columnAt (s : Scheme) (position : UInt64) : Except SchemeError Column :=
  match s.get? position.toNat with
  | some c => .ok c
  | none => .error (.columnOutOfRange position s.size)

/-- The position that a reference stands for. -/
def resolvePosition (s : Scheme) : ColumnRef → Except SchemeError Nat
  | .name name => s.positionOf name
  | .position index => (s.columnAt index).map (fun _ => index.toNat)

/-- The column that a reference stands for. -/
def resolve (s : Scheme) (ref : ColumnRef) : Except SchemeError Column := do
  let position ← s.resolvePosition ref
  match s.get? position with
  | some c => .ok c
  | none => .error (.columnOutOfRange (UInt64.ofNat position) s.size)

end Scheme

end Planner
