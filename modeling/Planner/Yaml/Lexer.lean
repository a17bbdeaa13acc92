import Planner.Yaml.Token

/-! # From texts to tokens

The lexer keeps the indentations of the blocks that are open and, for each level of brackets, the
place where a key may have begun: whether it was one shows only at the colon behind it, and then the
token of the key is put in front of it.  So where a text is faulty, the tokens are certain only up
to the first place where a key may have begun. -/

namespace Planner.Yaml

open Planner.Data

/-- A place where a key may have begun. -/
structure KeyMark where
  /-- Whether only a key may stand there. -/
  required : Bool
  /-- The number of tokens before it. -/
  number : Nat
  index : Nat
  line : Nat
  column : Nat

/-- What the lexer knows. -/
structure Lexer where
  cursor : Cursor
  /-- The tokens so far, latest first. -/
  tokens : List Token := []
  count : Nat := 0
  /-- The number of open brackets. -/
  flow : Nat := 0
  /-- The indentation of the innermost block. -/
  indent : Int := -1
  /-- The indentations of the blocks around it. -/
  indents : List Int := []
  /-- Whether a key may begin here. -/
  keyAllowed : Bool := true
  /-- The last place where a key may have begun, innermost bracket first. -/
  keys : List (Option KeyMark) := [none]

namespace Lexer

/-- Adds a token. -/
def emit (l : Lexer) (t : Token) : Lexer := { l with tokens := t :: l.tokens, count := l.count + 1 }

/-- Adds a token in front of all but the first `number` ones. -/
def emitAt (l : Lexer) (number : Nat) (t : Token) : Lexer :=
  let behind := l.count - number
  { l with tokens := l.tokens.take behind ++ t :: l.tokens.drop behind, count := l.count + 1 }

/-- Moves on by `n` characters. -/
def skip (l : Lexer) (n : Nat) : Lexer := { l with cursor := l.cursor.skip n }

/-- Opens a block, if the column is to the right of the innermost one. -/
def openBlock (l : Lexer) (column : Nat) (number : Option Nat) (t : Token) : Lexer :=
  if l.flow = 0 && l.indent < (column : Int) then
    let l := { l with indents := l.indent :: l.indents, indent := column }
    match number with
    | some number => l.emitAt number t
    | none => l.emit t
  else l

/-- Closes the blocks to the right of a column. -/
def closeBlocks (column : Int) : List Int → Lexer → Lexer
  | [], l => l
  | outer :: rest, l =>
    if l.flow = 0 && column < l.indent then
      closeBlocks column rest { l.emit .blockEnd with indent := outer, indents := rest }
    else l

/-- Closes all blocks to the right of a column. -/
def unindent (l : Lexer) (column : Int) : Lexer := closeBlocks column l.indents l

/-- Gives up the place where a key may have begun; one that had to be a key is an error. -/
def dropKey (l : Lexer) : Option Lexer :=
  match l.keys with
  | some mark :: rest => if mark.required then none else some { l with keys := none :: rest }
  | _ => some l

/-- Notes that a key may begin here. -/
def noteKey (l : Lexer) : Option Lexer := do
  if !l.keyAllowed then return l
  let l ← l.dropKey
  let c := l.cursor
  let mark : KeyMark :=
    ⟨l.flow = 0 && l.indent == (c.column : Int), l.count, c.index, c.line, c.column⟩
  return { l with keys := some mark :: l.keys.drop 1 }

/-- Gives up a place once the line or more than 1024 octets are over. -/
def freshKey (c : Cursor) : Option KeyMark → Option (Option KeyMark)
  | none => some none
  | some mark =>
    if mark.line < c.line || mark.index + 1024 < c.index then
      if mark.required then none else some none
    else some (some mark)

/-- Gives up all places that are too far back. -/
def dropStaleKeys (l : Lexer) : Option Lexer := do
  return { l with keys := ← l.keys.mapM (freshKey l.cursor) }

/-- Moves on over blanks, comments and line breaks. -/
def skipToToken : Nat → Lexer → Lexer
  | 0, l => l
  | fuel + 1, l =>
    let c := l.cursor.skipMark
    let c := c.skipWhile (fun x => x == ' ' || ((0 < l.flow || !l.keyAllowed) && x == '\t'))
    let c := c.skipComment
    if c.atBreak then
      skipToToken fuel
        { l with cursor := c.skipBreak, keyAllowed := l.keyAllowed || l.flow = 0 }
    else { l with cursor := c }

/-! ### One token -/

/-- Ends all blocks. -/
def endBlocks (l : Lexer) : Option Lexer := do
  let l ← (l.unindent (-1)).dropKey
  return { l with keyAllowed := false }

/-- A mark that begins or ends a document. -/
def lexMarker (l : Lexer) (t : Token) : Option Lexer := do return ((← l.endBlocks).emit t).skip 3

/-- A directive. -/
def lexDirective (l : Lexer) : Option Lexer := do
  let l ← l.endBlocks
  let (t, c) ← readDirective l.cursor
  return { l.emit t with cursor := c }

/-- An opening bracket. -/
def lexOpen (l : Lexer) (t : Token) : Option Lexer := do
  let l ← l.noteKey
  return ({ l with keys := none :: l.keys, flow := l.flow + 1, keyAllowed := true }.emit t).skip 1

/-- A closing bracket. -/
def lexClose (l : Lexer) (t : Token) : Option Lexer := do
  let l ← l.dropKey
  let l := if 0 < l.flow then { l with keys := l.keys.drop 1, flow := l.flow - 1 } else l
  return ({ l with keyAllowed := false }.emit t).skip 1

/-- A comma. -/
def lexComma (l : Lexer) : Option Lexer := do
  return ({ ← l.dropKey with keyAllowed := true }.emit .comma).skip 1

/-- The mark of a list's item. -/
def lexItem (l : Lexer) : Option Lexer := do
  if l.flow = 0 && !l.keyAllowed then none
  let l ← (l.openBlock l.cursor.column none .listStart).dropKey
  return ({ l with keyAllowed := true }.emit .item).skip 1

/-- The mark of a key. -/
def lexKey (l : Lexer) : Option Lexer := do
  if l.flow = 0 && !l.keyAllowed then none
  let l ← (l.openBlock l.cursor.column none .recordStart).dropKey
  return ({ l with keyAllowed := l.flow = 0 }.emit .key).skip 1

/-- The colon before a value. -/
def lexValue (l : Lexer) : Option Lexer :=
  match l.keys with
  | some mark :: rest =>
    let l := l.emitAt mark.number .key
    let l := l.openBlock mark.column (some mark.number) .recordStart
    some (({ l with keys := none :: rest, keyAllowed := false }.emit .value).skip 1)
  | _ =>
    if l.flow = 0 && !l.keyAllowed then none
    else
      let l := l.openBlock l.cursor.column none .recordStart
      some (({ l with keyAllowed := l.flow = 0 }.emit .value).skip 1)

/-- An anchor or an alias. -/
def lexAnchor (l : Lexer) (t : String → Token) : Option Lexer := do
  let l ← l.noteKey
  let (name, c) ← readAnchor (l.cursor.skip 1)
  return { l.emit (t name) with cursor := c, keyAllowed := false }

/-- A tag. -/
def lexTag (l : Lexer) : Option Lexer := do
  let l ← l.noteKey
  let (t, c) ← readTag (0 < l.flow) l.cursor
  return { l.emit t with cursor := c, keyAllowed := false }

/-- A block scalar. -/
def lexBlock (l : Lexer) (folded : Bool) : Option Lexer := do
  let l ← l.dropKey
  let (text, c) ← readBlock folded l.indent (l.cursor.skip 1)
  return { l.emit (.scalar text (if folded then .quoted else .literal)) with
    cursor := c, keyAllowed := true }

/-- A scalar in quotes. -/
def lexQuoted (l : Lexer) (quote : Char) : Option Lexer := do
  let l ← l.noteKey
  let (text, c) ← readQuoted quote l.cursor.fuel [] (l.cursor.skip 1)
  return { l.emit (.scalar text .quoted) with cursor := c, keyAllowed := false }

/-- A plain scalar. -/
def lexPlain (l : Lexer) : Option Lexer := do
  let l ← l.noteKey
  let (text, broken, c) ←
    readPlain (0 < l.flow) (l.indent + 1) l.cursor.fuel [] {} l.cursor
  return { l.emit (.scalar text .plain) with cursor := c, keyAllowed := broken }

/-- The characters that begin no plain scalar. -/
def isIndicator (c : Char) : Bool :=
  ['-', '?', ':', ',', '[', ']', '\x7b', '\x7d', '#', '&', '*', '!', '|', '>', '\'', '"', '%', '@',
    '\x60'].contains c

/-- Whether a plain scalar begins here. -/
def startsPlain (l : Lexer) (x : Char) : Bool :=
  !(isGap x || isBreak x || isIndicator x) ||
    (x == '-' && !(l.cursor.peek? 1).any isGap) ||
    (l.flow = 0 && (x == '?' || x == ':') && !l.cursor.wordEndsAt 1)

/-- Reads the token that begins with a character. -/
def lexToken (l : Lexer) (x : Char) : Option Lexer :=
  let c := l.cursor
  let flow := 0 < l.flow
  if c.column == 0 && x == '%' then l.lexDirective
  else if c.atMarker '-' then l.lexMarker .documentStart
  else if c.atMarker '.' then l.lexMarker .documentEnd
  else if x == '[' then l.lexOpen .flowListStart
  else if x == '\x7b' then l.lexOpen .flowRecordStart
  else if x == ']' then l.lexClose .flowListEnd
  else if x == '\x7d' then l.lexClose .flowRecordEnd
  else if x == ',' then l.lexComma
  else if x == '-' && c.wordEndsAt 1 then l.lexItem
  else if x == '?' && (flow || c.wordEndsAt 1) then l.lexKey
  else if x == ':' && (flow || c.wordEndsAt 1) then l.lexValue
  else if x == '*' then l.lexAnchor .mention
  else if x == '&' then l.lexAnchor .anchor
  else if x == '!' then l.lexTag
  else if x == '|' && !flow then l.lexBlock false
  else if x == '>' && !flow then l.lexBlock true
  else if x == '\'' then l.lexQuoted '\''
  else if x == '"' then l.lexQuoted '"'
  else if l.startsPlain x then l.lexPlain
  else none

/-! ### All tokens -/

/-- Moves on to the next token; gives the character it begins with, or none at the end. -/
def approach (l : Lexer) : Option (Lexer × Option Char) := do
  let l := skipToToken l.cursor.fuel l
  let l ← l.dropStaleKeys
  let l := l.unindent l.cursor.column
  return (l, l.cursor.peek? 0)

/-- The number of tokens that stand before every place where a key may have begun. -/
def certain (l : Lexer) : Nat :=
  l.keys.foldl (fun n key => (key.map (fun mark => Nat.min n mark.number)).getD n) l.count

/-- Reads the next token, or ends; the flag tells which. -/
def advance (l : Lexer) : Option (Lexer × Bool) := do
  match ← l.approach with
  | (l, none) => return (← l.endBlocks, true)
  | (l, some x) =>
    let l ← l.lexToken x
    return (← l.dropStaleKeys, false)

end Lexer

/-- The tokens of a text. -/
structure TokenList where
  tokens : List Token
  /-- Whether the text ends behind the tokens; otherwise it is faulty there. -/
  complete : Bool

/-- Reads all tokens, as far as they are certain. -/
def Lexer.lexAll : Nat → Lexer → TokenList
  | 0, l => ⟨l.tokens.reverse.take l.certain, false⟩
  | fuel + 1, l =>
    match l.advance with
    | none => ⟨l.tokens.reverse.take l.certain, false⟩
    | some (l, true) => ⟨l.tokens.reverse, true⟩
    | some (l, false) => lexAll fuel l

/-- The tokens of a text.  A character that no text may hold makes all of it faulty. -/
def TokenList.ofChars (cs : List Char) : TokenList :=
  if cs.all isAllowed then Lexer.lexAll (cs.length + 2) { cursor := .start cs } else ⟨[], false⟩

end Planner.Yaml
