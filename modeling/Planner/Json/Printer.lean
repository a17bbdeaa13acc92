import Planner.Data.Tree
import Planner.Binary64.Shortest

/-! # Writing JSON texts

`write` puts a tree on one line without blanks; `writePretty` gives every item and field a line of
its own, two blanks deeper for each level.  Texts escape quotes, backslashes and control characters
only.  A number that is not finite is the missing value. -/

namespace Planner.Json

open Planner.Data

/-- Numbers in JSON: with a point, and an exponent with its sign for large and small ones. -/
def numberStyle : Binary64.NumberStyle where
  positional := some (-5, 15)
  keepsPoint := true
  exponentSign := "+"
  ties := .even
  nan := "null"
  infinity := "null"
  negativeInfinity := "null"

/-- A digit in lower-case hexadecimal. -/
def hexDigit (n : Nat) : Char := if n < 10 then Char.ofNat (48 + n) else Char.ofNat (87 + n)

/-- A character inside quotes. -/
def quoteChar (c : Char) : List Char :=
  if c = '"' then ['\\', '"']
  else if c = '\\' then ['\\', '\\']
  else if c = '\x08' then ['\\', 'b']
  else if c = '\x0c' then ['\\', 'f']
  else if c = '\n' then ['\\', 'n']
  else if c = '\r' then ['\\', 'r']
  else if c = '\t' then ['\\', 't']
  else if c.toNat < 0x20 then ['\\', 'u', '0', '0', hexDigit (c.toNat / 16), hexDigit (c.toNat % 16)]
  else [c]

/-- A text in quotes. -/
def quote (s : String) : String := String.ofList ('"' :: s.toList.flatMap quoteChar ++ ['"'])

/-- A single value. -/
def writeAtom : Atom → String
  | .null => "null"
  | .bool true => "true"
  | .bool false => "false"
  | .int n => toString n
  | .float x => x.format numberStyle
  | .string s => quote s

mutual

/-- A tree on one line. -/
def write : Tree → String
  | .atom a => writeAtom a
  | .word w => quote w.text
  | .list items => "[" ++ ",".intercalate (writeItems items) ++ "]"
  | .record fields => "\x7b" ++ ",".intercalate (writeFields fields) ++ "\x7d"
  | .tagged body => write body
  | _ => "null"

/-- The items of a list. -/
def writeItems : List Tree → List String
  | [] => []
  | t :: rest => write t :: writeItems rest

/-- The fields of a record. -/
def writeFields : List (Tree × Tree) → List String
  | [] => []
  | (name, t) :: rest => (quote name.nameText ++ ":" ++ write t) :: writeFields rest

end

/-- A line break and the blanks of a level. -/
def lineAt (level : Nat) : String := "\n" ++ String.ofList (List.replicate (2 * level) ' ')

mutual

/-- A tree over several lines, `level` levels deep. -/
def writePretty (level : Nat) : Tree → String
  | .atom a => writeAtom a
  | .word w => quote w.text
  | .list [] => "[]"
  | .list (t :: rest) =>
    "[" ++ lineAt (level + 1) ++
      ("," ++ lineAt (level + 1)).intercalate (writeItemsPretty (level + 1) (t :: rest)) ++
      lineAt level ++ "]"
  | .record [] => "\x7b\x7d"
  | .record (f :: rest) =>
    "\x7b" ++ lineAt (level + 1) ++
      ("," ++ lineAt (level + 1)).intercalate (writeFieldsPretty (level + 1) (f :: rest)) ++
      lineAt level ++ "\x7d"
  | .tagged body => writePretty level body
  | _ => "null"

/-- The items of a list. -/
def writeItemsPretty (level : Nat) : List Tree → List String
  | [] => []
  | t :: rest => writePretty level t :: writeItemsPretty level rest

/-- The fields of a record. -/
def writeFieldsPretty (level : Nat) : List (Tree × Tree) → List String
  | [] => []
  | (name, t) :: rest =>
    (quote name.nameText ++ ": " ++ writePretty level t) :: writeFieldsPretty level rest

end

end Planner.Json
