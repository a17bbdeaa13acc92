import Planner.Yaml.Cursor
import Planner.Data.Tree
import Planner.Binary64.Shortest

/-! # Writing YAML texts

Collections are written as blocks, two columns deeper for each level; a list in a field is not
indented, and an empty collection is a pair of brackets.  A text is plain where it then reads as
itself, a `|` block if it has several lines, and otherwise stands in single quotes, or in double
quotes if a character has to be escaped. -/

namespace Planner.Yaml

open Planner.Data

/-- Numbers in YAML: with a point, and an exponent without a plus sign for large and small ones. -/
def numberStyle : Binary64.NumberStyle where
  positional := some (-5, 15)
  keepsPoint := true
  exponentSign := ""
  ties := .even
  nan := ".nan"
  infinity := ".inf"
  negativeInfinity := "-.inf"

/-! ### What a text admits -/

/-- The characters that need no escape. -/
def isPrintable (c : Char) : Bool :=
  let n := c.toNat
  n == 0x0A || (0x20 ≤ n && n ≤ 0x7E) || (0xA0 ≤ n && n ≤ 0xFFFD && n != 0xFEFF) || 0x10000 ≤ n

/-- Whether a word ends before what is left of a text. -/
def wordEnds : List Char → Bool
  | [] => true
  | c :: _ => isGap c || isBreak c

/-- Whether a text begins with a mark that a plain scalar may not begin with. -/
def startsMarked : List Char → Bool
  | [] => false
  | c :: rest =>
    ['#', ',', '[', ']', '\x7b', '\x7d', '&', '*', '!', '|', '>', '\'', '"', '%', '@',
      '\x60'].contains c ||
      ((c == '-' || c == '?' || c == ':') && wordEnds rest)

/-- Whether a text begins like a mark between documents. -/
def startsDocument (cs : List Char) : Bool :=
  cs.take 3 == ['-', '-', '-'] || cs.take 3 == ['.', '.', '.']

/-- Whether a colon before a blank or a number sign after one stands behind the character `before`. -/
def holdsMark : Char → List Char → Bool
  | _, [] => false
  | before, c :: rest =>
    (c == ':' && wordEnds rest) || (c == '#' && (isGap before || isBreak before)) || holdsMark c rest

/-- Whether a character of one class stands right before one of another. -/
def holdsPair (p q : Char → Bool) (cs : List Char) : Bool :=
  (cs.zip (cs.drop 1)).any (fun c => p c.1 && q c.2)

/-- Whether a character is a blank. -/
def isSpace (c : Char) : Bool := c == ' '

/-- Whether a text holds nothing that quotes alone cannot carry. -/
def isClean (cs : List Char) : Bool := cs.all isPrintable && !holdsPair isSpace isBreak cs

/-- Whether a text may be plain. -/
def admitsPlain (cs : List Char) : Bool :=
  isClean cs && !cs.any isBreak && !(cs.head?.any isSpace) && !(cs.getLast?.any isSpace) &&
    !startsMarked cs && !startsDocument cs && !holdsMark (cs.headD ' ') (cs.drop 1)

/-- Whether a text may stand in single quotes. -/
def admitsQuotes (cs : List Char) : Bool := isClean cs && !holdsPair isBreak isSpace cs

/-- Whether a text may be a block. -/
def admitsBlock (cs : List Char) : Bool := isClean cs && !(cs.getLast?.any isSpace)

/-- Whether a plain scalar would read as something other than a text. -/
def readsOtherwise (s : String) : Bool :=
  isPaddedRun s.toList ||
    match plainValue s with
    | .string _ => false
    | _ => true

/-! ### Texts -/

/-- The blanks of an indentation. -/
def blanks (indent : Nat) : List Char := List.replicate indent ' '

/-- The inside of single quotes: a quote is written twice, a new line is indented. -/
def singleInside (indent : Nat) : Bool → List Char → List Char
  | broken, [] => if broken then blanks indent else []
  | broken, c :: rest =>
    if isBreak c then c :: singleInside indent true rest
    else
      (if broken then blanks indent else []) ++ (if c == '\'' then ['\'', '\''] else [c]) ++
        singleInside indent false rest

/-- A digit in upper-case hexadecimal. -/
def hexDigit (n : Nat) : Char := if n < 10 then Char.ofNat (48 + n) else Char.ofNat (55 + n)

/-- A number in hexadecimal, of a given width. -/
def hexDigits : Nat → Nat → List Char
  | 0, _ => []
  | width + 1, n => hexDigits width (n / 16) ++ [hexDigit (n % 16)]

/-- The letter of an escape that has one. -/
def escapeLetter? (c : Char) : Option Char :=
  match c.toNat with
  | 0x00 => some '0'
  | 0x07 => some 'a'
  | 0x08 => some 'b'
  | 0x09 => some 't'
  | 0x0A => some 'n'
  | 0x0B => some 'v'
  | 0x0C => some 'f'
  | 0x0D => some 'r'
  | 0x1B => some 'e'
  | 0x22 => some '"'
  | 0x5C => some '\\'
  | 0x85 => some 'N'
  | 0x2028 => some 'L'
  | 0x2029 => some 'P'
  | _ => none

/-- A character in double quotes. -/
def doubleChar (c : Char) : List Char :=
  if isPrintable c && !isBreak c && c != '"' && c != '\\' then [c]
  else match escapeLetter? c with
    | some letter => ['\\', letter]
    | none =>
      let n := c.toNat
      if n ≤ 0xFF then '\\' :: 'x' :: hexDigits 2 n
      else if n ≤ 0xFFFF then '\\' :: 'u' :: hexDigits 4 n
      else '\\' :: 'U' :: hexDigits 8 n

/-- The lines of a block. -/
def blockLines (indent : Nat) : Bool → List Char → List Char
  | _, [] => []
  | broken, c :: rest =>
    if isBreak c then c :: blockLines indent true rest
    else (if broken then blanks indent else []) ++ c :: blockLines indent false rest

/-- Whether a block ends with more line breaks than one. -/
def isOpenEnded (cs : List Char) : Bool :=
  match cs.reverse with
  | [c] => isBreak c
  | c :: d :: _ => isBreak c && isBreak d
  | [] => false

/-- The marks of a block: its indentation where the first line does not show it, and what becomes
of the breaks at its end. -/
def blockMarks (cs : List Char) : List Char :=
  (if cs.head?.any (fun c => c == ' ' || isBreak c) then ['2'] else []) ++
    (if !(cs.getLast?.any isBreak) then ['-'] else if isOpenEnded cs then ['+'] else [])

/-! ### Trees -/

/-- What is written so far. -/
structure Sheet where
  text : String := ""
  /-- Whether nothing stands on the last line. -/
  fresh : Bool := true
  /-- Whether the last block may go on for any number of empty lines. -/
  openEnded : Bool := false

/-- Where a value stands. -/
inductive Place
  | root
  | field
  | item
  deriving DecidableEq

namespace Sheet

/-- Adds a text to the last line. -/
def add (s : Sheet) (text : String) : Sheet := { s with text := s.text ++ text, fresh := false }

/-- Starts a new line. -/
def newLine (s : Sheet) (indent : Nat) : Sheet :=
  { s with
    text := (if s.fresh then s.text else s.text ++ "\n") ++ String.ofList (blanks indent)
    fresh := false }

/-- Adds a scalar that goes on one line. -/
def addInline (s : Sheet) (place : Place) (text : String) : Sheet :=
  s.add (if place = .root then text else " " ++ text)

/-- Adds a text. -/
def addText (s : Sheet) (place : Place) (indent : Nat) (value : String) : Sheet :=
  let cs := value.toList
  let double := String.ofList ('"' :: cs.flatMap doubleChar ++ ['"'])
  if cs.contains '\n' then
    if admitsBlock cs then
      let s := s.addInline place (String.ofList ('|' :: blockMarks cs ++ '\n' :: blockLines indent true cs))
      { s with fresh := cs.getLast?.any isBreak, openEnded := isOpenEnded cs }
    else s.addInline place double
  else if !readsOtherwise value && admitsPlain cs then s.addInline place value
  else if admitsQuotes cs then
    s.addInline place (String.ofList ('\'' :: singleInside indent false cs ++ ['\'']))
  else s.addInline place double

/-- Adds a single value. -/
def addAtom (s : Sheet) (place : Place) (indent : Nat) : Atom → Sheet
  | .null => s.addInline place "null"
  | .bool true => s.addInline place "true"
  | .bool false => s.addInline place "false"
  | .int n => s.addInline place (toString n)
  | .float x => s.addInline place (x.format numberStyle)
  | .string text => s.addText place indent text

/-- Goes to where the next entry of a collection begins: the first one stays on the line of the
item that it is. -/
def entry (s : Sheet) (place : Place) (first : Bool) (indent : Nat) : Sheet :=
  if first && place = .item then s.add " "
  else if first && place = .root then s
  else s.newLine indent

end Sheet

/-- The indentation of a list. -/
def listIndent (place : Place) (indent : Nat) : Nat :=
  match place with
  | .root => 0
  | .field => indent
  | .item => indent + 2

/-- The indentation of a record. -/
def recordIndent (place : Place) (indent : Nat) : Nat :=
  match place with
  | .root => 0
  | _ => indent + 2

mutual

/-- Adds a tree; `indent` is the indentation of the collection around it. -/
def addTree (place : Place) (indent : Nat) : Tree → Sheet → Sheet
  | .atom a, s => s.addAtom place (indent + 2) a
  | .word w, s => s.addText place (indent + 2) w.text
  | .list [], s => s.addInline place "[]"
  | .list (t :: rest), s => addItems place true (listIndent place indent) (t :: rest) s
  | .record [], s => s.addInline place "\x7b\x7d"
  | .record (f :: rest), s => addFields place true (recordIndent place indent) (f :: rest) s
  | .tagged body, s => addTree place indent body s
  | _, s => s.addInline place "null"

/-- Adds the items of a list. -/
def addItems (place : Place) (first : Bool) (indent : Nat) : List Tree → Sheet → Sheet
  | [], s => s
  | t :: rest, s =>
    addItems place false indent rest (addTree .item indent t ((s.entry place first indent).add "-"))

/-- Adds the fields of a record. -/
def addFields (place : Place) (first : Bool) (indent : Nat) : List (Tree × Tree) → Sheet → Sheet
  | [], s => s
  | (name, t) :: rest, s =>
    addFields place false indent rest
      (addTree .field indent t ((s.entry place first indent).add (name.nameText ++ ":")))

end

/-- A tree as a text. -/
def write (t : Tree) : String :=
  let s := addTree .root 0 t {}
  (if s.fresh then s.text else s.text ++ "\n") ++ (if s.openEnded then "...\n" else "")

end Planner.Yaml
