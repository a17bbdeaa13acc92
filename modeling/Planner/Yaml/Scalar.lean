import Planner.Yaml.Cursor
import Planner.Data.Word

/-! # Scalars

The four ways to write a text: plain, in single or double quotes, and as a block.  Where a text goes
over several lines, a single line break counts as a blank, and of more breaks all but the first
count; blocks with `|` keep every break. -/

namespace Planner.Yaml

open Planner.Data

/-! ### Blanks and breaks between words -/

/-- What stands between two words. -/
structure Gap where
  /-- The blanks, latest first, as long as there is no line break. -/
  blanks : List Char := []
  /-- Whether there is a line break. -/
  broken : Bool := false
  /-- The first line break. -/
  first : List Char := []
  /-- The other line breaks. -/
  more : List Char := []

/-- How line breaks count: a single break is a blank. -/
def foldBreaks (first more : List Char) : List Char :=
  if first.head? == some '\n' then if more.isEmpty then [' '] else more else first ++ more

/-- How a gap counts. -/
def Gap.text (g : Gap) : List Char :=
  if g.broken then foldBreaks g.first g.more else g.blanks.reverse

/-- Reads the blanks and breaks from here on; a tab left of column `indent` is refused. -/
def readGap (indent : Int) : Nat → Gap → Cursor → Option (Gap × Cursor)
  | 0, _, _ => none
  | fuel + 1, g, c =>
    match c.rest with
    | [] => some (g, c)
    | x :: _ =>
      if isGap x then
        if !g.broken then readGap indent fuel { g with blanks := x :: g.blanks } (c.skip 1)
        else if x == '\t' && (c.column : Int) < indent then none
        else readGap indent fuel g (c.skip 1)
      else if isBreak x then
        if g.broken then readGap indent fuel { g with more := g.more ++ c.breakText } c.skipBreak
        else readGap indent fuel ⟨[], true, c.breakText, []⟩ c.skipBreak
      else some (g, c)

/-! ### Plain scalars -/

/-- The characters that end a plain scalar between brackets. -/
def isFlowMark (c : Char) : Bool := c == ',' || c == '[' || c == ']' || c == '\x7b' || c == '\x7d'

/-- The characters of a plain scalar up to a blank or a mark, latest first. -/
def plainRun (flow : Bool) : Nat → List Char → Cursor → Option (List Char × Cursor)
  | 0, _, _ => none
  | fuel + 1, acc, c =>
    match c.rest with
    | [] => some (acc, c)
    | x :: _ =>
      if isGap x || isBreak x then some (acc, c)
      else if flow && x == ':' && (c.peek? 1).any (fun y => isFlowMark y || y == '?') then none
      else if (x == ':' && c.wordEndsAt 1) || (flow && isFlowMark x) then some (acc, c)
      else plainRun flow fuel (x :: acc) (c.skip 1)

/-- Reads a plain scalar; the flag tells whether line breaks follow it. -/
def readPlain (flow : Bool) (indent : Int) :
    Nat → List Char → Gap → Cursor → Option (String × Bool × Cursor)
  | 0, _, _, _ => none
  | fuel + 1, acc, gap, c => do
    if c.atDocumentEdge || c.sees 0 '#' then return (String.ofList acc.reverse, gap.broken, c)
    let (word, c) ← plainRun flow c.fuel [] c
    let (acc, gap) := if word.isEmpty then (acc, gap) else (word ++ gap.text.reverse ++ acc, {})
    if !(c.atGap || c.atBreak) then return (String.ofList acc.reverse, gap.broken, c)
    let (gap, c) ← readGap indent c.fuel gap c
    if !flow && (c.column : Int) < indent then return (String.ofList acc.reverse, gap.broken, c)
    readPlain flow indent fuel acc gap c

/-! ### Scalars in quotes -/

/-- The character of an escape of one letter. -/
def escape? : Char → Option Char
  | '0' => some '\x00'
  | 'a' => some '\x07'
  | 'b' => some '\x08'
  | 't' => some '\t'
  | '\t' => some '\t'
  | 'n' => some '\n'
  | 'v' => some '\x0b'
  | 'f' => some '\x0c'
  | 'r' => some '\r'
  | 'e' => some '\x1b'
  | ' ' => some ' '
  | '"' => some '"'
  | '/' => some '/'
  | '\\' => some '\\'
  | 'N' => some '\u0085'
  | '_' => some '\u00a0'
  | 'L' => some '\u2028'
  | 'P' => some '\u2029'
  | _ => none

/-- The number of hexadecimal digits of an escape. -/
def escapeWidth? : Char → Option Nat
  | 'x' => some 2
  | 'u' => some 4
  | 'U' => some 8
  | _ => none

/-- Reads an escape, from its backslash on. -/
def readEscape (c : Cursor) : Option (Char × Cursor) := do
  let letter ← c.peek? 1
  match escapeWidth? letter with
  | some width =>
    let digits := (c.rest.drop 2).take width
    if digits.length < width then none
    let n ← digits? 16 digits
    if n.isValidChar then return (Char.ofNat n, c.skip (2 + width)) else none
  | none => return (← escape? letter, c.skip 2)

/-- The characters in quotes up to a blank, a break or the closing quote, latest first; the flag
tells whether they end with an escaped line break. -/
def quotedRun (quote : Char) : Nat → List Char → Cursor → Option (List Char × Bool × Cursor)
  | 0, _, _ => none
  | fuel + 1, acc, c =>
    match c.rest with
    | [] => some (acc, false, c)
    | x :: _ =>
      if isGap x || isBreak x then some (acc, false, c)
      else if quote == '\'' && x == '\'' && c.sees 1 '\'' then
        quotedRun quote fuel ('\'' :: acc) (c.skip 2)
      else if x == quote then some (acc, false, c)
      else if quote == '"' && x == '\\' then
        if (c.peek? 1).any isBreak then some (acc, true, (c.skip 1).skipBreak)
        else do
          let (y, c) ← readEscape c
          quotedRun quote fuel (y :: acc) c
      else quotedRun quote fuel (x :: acc) (c.skip 1)

/-- Reads a scalar behind its opening quote. -/
def readQuoted (quote : Char) : Nat → List Char → Cursor → Option (String × Cursor)
  | 0, _, _ => none
  | fuel + 1, acc, c => do
    if c.atDocumentEdge || c.atEnd then none
    let (acc, escaped, c) ← quotedRun quote c.fuel acc c
    if c.sees 0 quote then return (String.ofList acc.reverse, c.skip 1)
    let (gap, c) ← readGap 0 c.fuel { broken := escaped } c
    readQuoted quote fuel (gap.text.reverse ++ acc) c

/-! ### Blocks -/

/-- What happens to the line breaks at the end of a block. -/
inductive Chomping
  /-- None is kept. -/
  | strip
  /-- One is kept. -/
  | clip
  /-- All are kept. -/
  | keep
  deriving DecidableEq

/-- Reads a block's chomping mark. -/
def readChomping (c : Cursor) : Option Chomping × Cursor :=
  if c.sees 0 '+' then (some .keep, c.skip 1)
  else if c.sees 0 '-' then (some .strip, c.skip 1)
  else (none, c)

/-- Reads a block's indentation mark; zero stands for none. -/
def readIndentMark (c : Cursor) : Option (Nat × Cursor) :=
  match c.peek? 0 with
  | some x =>
    if x.isDigit then if x == '0' then none else some (x.toNat - 48, c.skip 1) else some (0, c)
  | none => some (0, c)

/-- Reads a block's marks, in either order. -/
def readBlockMarks (c : Cursor) : Option (Chomping × Nat × Cursor) := do
  match readChomping c with
  | (some chomping, c) =>
    let (increment, c) ← readIndentMark c
    return (chomping, increment, c)
  | (none, c) =>
    let (increment, c) ← readIndentMark c
    if increment = 0 then return (.clip, 0, c)
    let (chomping, c) := readChomping c
    return (chomping.getD .clip, increment, c)

/-- Reads the empty lines of a block and the indentation of the next one; an indentation of zero
is not known yet.  Gives the breaks, and the widest indentation met. -/
def readEmptyLines (indent : Nat) :
    Nat → List Char → Nat → Cursor → Option (List Char × Nat × Cursor)
  | 0, _, _, _ => none
  | fuel + 1, breaks, widest, c =>
    let spaces := (c.run (· == ' ')).length
    let c := c.skip (if indent = 0 then spaces else Nat.min spaces (indent - c.column))
    let widest := Nat.max widest c.column
    if (indent = 0 || c.column < indent) && c.sees 0 '\t' then none
    else if c.atBreak then readEmptyLines indent fuel (breaks ++ c.breakText) widest c.skipBreak
    else some (breaks, widest, c)

/-- What a block has got to. -/
structure Block where
  /-- The text, latest character first. -/
  text : List Char := []
  /-- The break behind the last line. -/
  first : List Char := []
  /-- The breaks of the empty lines after it. -/
  more : List Char := []
  /-- Whether the last line starts with a blank. -/
  blank : Bool := false

/-- Reads the lines of a block. -/
def readBlockLines (folded : Bool) (indent : Nat) : Nat → Block → Cursor → Option (Block × Cursor)
  | 0, _, _ => none
  | fuel + 1, b, c => do
    if c.column ≠ indent || c.atEnd then return (b, c)
    let glue :=
      if folded && b.first.head? == some '\n' && !b.blank && !c.atGap then
        if b.more.isEmpty then [' '] else b.more
      else b.first ++ b.more
    let line := c.run (fun x => !isBreak x)
    let behind := c.skipLine
    let (more, _, next) ← readEmptyLines indent c.fuel [] 0 behind.skipBreak
    readBlockLines folded indent fuel
      ⟨line.reverse ++ glue.reverse ++ b.text, behind.breakText, more, c.atGap⟩ next

/-- Reads a block behind its first mark; `parent` is the indentation around it. -/
def readBlock (folded : Bool) (parent : Int) (c : Cursor) : Option (String × Cursor) := do
  let (chomping, increment, c) ← readBlockMarks c
  let c := (c.skipWhile isGap).skipComment
  if !c.atLineEnd then none
  let fuel := c.fuel
  let known := if increment = 0 then 0 else (parent.toNat + increment)
  let (breaks, widest, c) ← readEmptyLines known fuel [] 0 c.skipBreak
  let indent := if known = 0 then Nat.max 1 (Nat.max widest (parent + 1).toNat) else known
  let (b, c) ← readBlockLines folded indent fuel { more := breaks } c
  let tail := match chomping with
    | .strip => []
    | .clip => b.first
    | .keep => b.first ++ b.more
  return (String.ofList (b.text.reverse ++ tail), c)

end Planner.Yaml
