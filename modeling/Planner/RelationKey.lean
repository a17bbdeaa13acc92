import Planner.Text.Blank
import Planner.SortedSet

/-! # Relation keys

A stored relation is known by user, program and name.  A key is written `user:program:relation`; a
name alone belongs to the user `public` and the program `adhoc`. -/

namespace Planner

/-- The identity of a stored relation. -/
structure RelationKey where
  user : String
  program : String
  relation : String
  deriving DecidableEq, Repr

namespace RelationKey

/-- The user of a relation given by its name alone. -/
def defaultUser : String := "public"

/-- The program of a relation given by its name alone. -/
def defaultProgram : String := "adhoc"

/-- Reads a key: one part, or three parts between colons, none of them empty.  Blanks around the
whole text do not count. -/
def parse? (s : String) : Option RelationKey :=
  match Text.splitAt ':' (Text.trimChars s.toList) with
  | [relation] =>
    if relation.isEmpty then none
    else some ⟨defaultUser, defaultProgram, String.ofList relation⟩
  | [user, program, relation] =>
    if user.isEmpty || program.isEmpty || relation.isEmpty then none
    else some ⟨String.ofList user, String.ofList program, String.ofList relation⟩
  | _ => none

/-- A key in full. -/
def text (k : RelationKey) : String := k.user ++ ":" ++ k.program ++ ":" ++ k.relation

/-- Keys are ordered by user, then program, then relation. -/
def before (j k : RelationKey) : Bool :=
  if Ranked.before j.user k.user then true
  else if Ranked.before k.user j.user then false
  else if Ranked.before j.program k.program then true
  else if Ranked.before k.program j.program then false
  else Ranked.before j.relation k.relation

/-- A list of keys in order; equal keys stay. -/
def sort (keys : List RelationKey) : List RelationKey := keys.mergeSort (fun j k => !before k j)

end RelationKey

end Planner
