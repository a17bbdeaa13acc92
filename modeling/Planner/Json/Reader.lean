import Planner.Json.Number
import Planner.Data.Tree

/-! # Reading JSON texts

`read` gives the document of a text that holds one JSON value.  Where the text is faulty the tree
breaks off, and what stands before is still there.  Fields keep their order and may repeat; what
repeats is up to whoever reads the tree.  A number out of range and a text with half of a surrogate
pair are unreadable. -/

namespace Planner.Json

open Planner.Data

/-- The blanks between tokens. -/
def isSpace (c : Char) : Bool := c == ' ' || c == '\n' || c == '\t' || c == '\r'

/-- A text without the blanks before it. -/
def skip (cs : List Char) : List Char := cs.dropWhile isSpace

/-- The value of four hexadecimal digits. -/
def hex4? : List Char → Option (Nat × List Char)
  | a :: b :: c :: d :: rest => (digits? 16 [a, b, c, d]).map (fun n => (n, rest))
  | _ => none

/-- The character of an escape of one letter. -/
def escape? : Char → Option Char
  | '"' => some '"'
  | '\\' => some '\\'
  | '/' => some '/'
  | 'b' => some '\x08'
  | 'f' => some '\x0c'
  | 'n' => some '\n'
  | 'r' => some '\r'
  | 't' => some '\t'
  | _ => none

/-- The second half of a surrogate pair, if it follows. -/
def lowHalf? : List Char → Option (Nat × List Char)
  | '\\' :: 'u' :: rest => match hex4? rest with
    | some (n, rest) => if 0xDC00 ≤ n && n ≤ 0xDFFF then some (n, rest) else none
    | none => none
  | _ => none

/-- Reads a text up to its closing quote.  `sound` turns false at half of a surrogate pair. -/
def readString : Nat → List Char → Bool → List Char → Option (Option String × List Char)
  | 0, _, _, _ => none
  | fuel + 1, acc, sound, cs =>
    match cs with
    | [] => none
    | '"' :: rest => some (if sound then some (String.ofList acc.reverse) else none, rest)
    | '\\' :: 'u' :: rest => do
      let (n, rest) ← hex4? rest
      if 0xD800 ≤ n && n ≤ 0xDBFF then
        match lowHalf? rest with
        | some (m, rest) =>
          readString fuel (Char.ofNat (0x10000 + (n - 0xD800) * 0x400 + (m - 0xDC00)) :: acc) sound rest
        | none => readString fuel acc false rest
      else if 0xDC00 ≤ n && n ≤ 0xDFFF then readString fuel acc false rest
      else readString fuel (Char.ofNat n :: acc) sound rest
    | '\\' :: c :: rest => do
      let d ← escape? c
      readString fuel (d :: acc) sound rest
    | c :: rest => if c.toNat < 0x20 then none else readString fuel (c :: acc) sound rest

/-- The tree of a text, if there is one and it is readable. -/
def stringTree : Option String → Tree
  | some s => .string s
  | none => .unreadable

/-- Reads the name of a field. -/
def readName (cs : List Char) : Tree × List Char :=
  match skip cs with
  | '"' :: rest => match readString (rest.length + 1) [] true rest with
    | some (s, rest) => (stringTree s, rest)
    | none => (.broken, [])
  | _ => (.broken, [])

mutual

/-- Reads a value. -/
def readValue : Nat → List Char → Tree × List Char
  | 0, _ => (.broken, [])
  | fuel + 1, cs =>
    match skip cs with
    | '"' :: rest => match readString (rest.length + 1) [] true rest with
      | some (s, rest) => (stringTree s, rest)
      | none => (.broken, [])
    | '[' :: rest => match skip rest with
      | ']' :: rest => (.list [], rest)
      | rest =>
        let (items, rest) := readItems fuel rest
        (.list items, rest)
    | '\x7b' :: rest => match skip rest with
      | '\x7d' :: rest => (.record [], rest)
      | rest =>
        let (fields, rest) := readFields fuel rest
        (.record fields, rest)
    | 't' :: 'r' :: 'u' :: 'e' :: rest => (.bool true, rest)
    | 'f' :: 'a' :: 'l' :: 's' :: 'e' :: rest => (.bool false, rest)
    | 'n' :: 'u' :: 'l' :: 'l' :: rest => (.null, rest)
    | cs => match numeral? cs with
      | some (n, rest) => ((n.value?.map Tree.atom).getD .unreadable, rest)
      | none => (.broken, [])

/-- Reads the items of a list up to its closing bracket. -/
def readItems : Nat → List Char → List Tree × List Char
  | 0, _ => ([.broken], [])
  | fuel + 1, cs =>
    let (t, rest) := readValue fuel cs
    match skip rest with
    | ']' :: rest => ([t], rest)
    | ',' :: rest =>
      let (items, rest) := readItems fuel rest
      (t :: items, rest)
    | _ => ([t, .broken], [])

/-- Reads the fields of a record up to its closing brace. -/
def readFields : Nat → List Char → List (Tree × Tree) × List Char
  | 0, _ => ([(.broken, .broken)], [])
  | fuel + 1, cs =>
    let (name, rest) := readName cs
    match skip rest with
    | ':' :: rest =>
      let (t, rest) := readValue fuel rest
      match skip rest with
      | '\x7d' :: rest => ([(name, t)], rest)
      | ',' :: rest =>
        let (fields, rest) := readFields fuel rest
        ((name, t) :: fields, rest)
      | _ => ([(name, t), (.broken, .broken)], [])
    | _ => ([(name, .broken)], [])

end

/-- How many lists and records may be open at a time. -/
def maxLevels : Nat := 127

/-- The document of a text. -/
def read (s : String) : Document :=
  let cs := s.toList
  let (t, rest) := readValue (cs.length + 1) cs
  { root := t, layout := .jsonText, levels := maxLevels, sound := (skip rest).isEmpty }

end Planner.Json
