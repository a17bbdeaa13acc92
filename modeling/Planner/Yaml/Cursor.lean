import Planner.Counting

/-! # Positions in a YAML text

A `Cursor` is what is left of a text together with the line and column it starts at, and the number
of octets before it.  Every function that reads from a text takes a cursor and gives the one behind
what it read. -/

namespace Planner.Yaml

/-- The mark that may stand at the beginning of a line. -/
def byteOrderMark : Char := '\ufeff'

/-- The characters that a text may hold. -/
def isAllowed (c : Char) : Bool :=
  let n := c.toNat
  n == 0x09 || n == 0x0A || n == 0x0D || (0x20 ≤ n && n ≤ 0x7E) || n == 0x85 ||
    (0xA0 ≤ n && n ≤ 0xFFFD) || 0x10000 ≤ n

/-- The characters that end a line. -/
def isBreak (c : Char) : Bool :=
  let n := c.toNat
  n == 0x0A || n == 0x0D || n == 0x85 || n == 0x2028 || n == 0x2029

/-- The characters between words on a line. -/
def isGap (c : Char) : Bool := c == ' ' || c == '\t'

/-- The characters of names. -/
def isNameChar (c : Char) : Bool := c.isAlphanum || c == '_' || c == '-'

/-- What is left of a text, and where it starts. -/
structure Cursor where
  rest : List Char
  /-- The number of octets before it. -/
  index : Nat
  line : Nat
  column : Nat
  /-- The length of the whole text, which bounds the number of steps from anywhere. -/
  size : Nat

namespace Cursor

/-- The beginning of a text; a mark in front of it does not count. -/
def start (cs : List Char) : Cursor :=
  let cs := if cs.head? == some byteOrderMark then cs.drop 1 else cs
  ⟨cs, 0, 0, 0, cs.length⟩

/-- More than the number of characters that are left. -/
def fuel (c : Cursor) : Nat := c.size + 1

/-- The character `n` places further on. -/
def peek? (c : Cursor) (n : Nat) : Option Char := c.rest[n]?

/-- Whether the character `n` places further on is the given one. -/
def sees (c : Cursor) (n : Nat) (x : Char) : Bool := c.peek? n == some x

/-- Whether the text is at its end. -/
def atEnd (c : Cursor) : Bool := c.rest.isEmpty

/-- Whether a line ends here. -/
def atBreak (c : Cursor) : Bool := (c.peek? 0).any isBreak

/-- Whether a line or the text ends here. -/
def atLineEnd (c : Cursor) : Bool := c.atEnd || c.atBreak

/-- Whether a blank stands here. -/
def atGap (c : Cursor) : Bool := (c.peek? 0).any isGap

/-- Whether a word ends `n` places further on. -/
def wordEndsAt (c : Cursor) (n : Nat) : Bool := (c.peek? n).all (fun x => isGap x || isBreak x)

/-- Moves on by `n` characters of a line. -/
def skip (c : Cursor) (n : Nat) : Cursor :=
  { c with
    rest := c.rest.drop n
    index := c.index + total ((c.rest.take n).map Char.utf8Size)
    column := c.column + n }

/-- The characters on from here that satisfy a test. -/
def run (c : Cursor) (p : Char → Bool) : List Char := c.rest.takeWhile p

/-- Moves on over the characters that satisfy a test. -/
def skipWhile (c : Cursor) (p : Char → Bool) : Cursor := c.skip (c.run p).length

/-- Moves on over a line break. -/
def skipBreak (c : Cursor) : Cursor :=
  match c.rest with
  | '\r' :: '\n' :: rest => ⟨rest, c.index + 2, c.line + 1, 0, c.size⟩
  | x :: rest => if isBreak x then ⟨rest, c.index + x.utf8Size, c.line + 1, 0, c.size⟩ else c
  | [] => c

/-- A line break as it counts in a scalar: a separator stands for itself, all others are alike. -/
def breakText (c : Cursor) : List Char :=
  match c.rest with
  | x :: _ =>
    if x.toNat == 0x2028 || x.toNat == 0x2029 then [x] else if isBreak x then ['\n'] else []
  | [] => []

/-- Moves on over a mark at the beginning of a line. -/
def skipMark (c : Cursor) : Cursor :=
  if c.column == 0 && c.sees 0 byteOrderMark then c.skip 1 else c

/-- Moves on to the end of the line. -/
def skipLine (c : Cursor) : Cursor := c.skipWhile (fun x => !isBreak x)

/-- Moves on over a comment, if one starts here. -/
def skipComment (c : Cursor) : Cursor := if c.sees 0 '#' then c.skipLine else c

/-- Whether three marks at the beginning of a line begin or end a document here. -/
def atMarker (c : Cursor) (mark : Char) : Bool :=
  c.column == 0 && c.sees 0 mark && c.sees 1 mark && c.sees 2 mark && c.wordEndsAt 3

/-- Whether a document begins or ends here. -/
def atDocumentEdge (c : Cursor) : Bool := c.atMarker '-' || c.atMarker '.'

end Cursor

end Planner.Yaml
