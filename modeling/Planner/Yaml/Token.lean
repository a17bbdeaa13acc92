import Planner.Yaml.Scalar

/-! # Tokens

The marks, names and scalars of a YAML text.  The indentation of blocks is made explicit: a block
collection has a token where it begins and one where it ends, and a key has a token before it. -/

namespace Planner.Yaml

open Planner.Data

/-- A token. -/
inductive Token
  | version (major minor : Nat)
  /-- The octets that a handle stands for in tags. -/
  | tagHandle (handle : String) (text : List UInt8)
  | documentStart
  | documentEnd
  | listStart
  | recordStart
  | blockEnd
  | flowListStart
  | flowListEnd
  | flowRecordStart
  | flowRecordEnd
  | item
  | comma
  | key
  | value
  | mention (name : String)
  | anchor (name : String)
  | tag (handle : String) (suffix : List UInt8)
  | scalar (text : String) (style : Style)
  deriving DecidableEq

/-! ### Names, tags and directives -/

/-- Reads the name of an anchor behind its mark. -/
def readAnchor (c : Cursor) : Option (String × Cursor) :=
  let name := c.run isNameChar
  let behind := c.skip name.length
  let ends := behind.wordEndsAt 0 ||
    (behind.peek? 0).any (fun x => ['?', ':', ',', ']', '\x7d', '%', '@', '\x60'].contains x)
  if name.isEmpty || !ends then none else some (String.ofList name, behind)

/-- Reads an octet written as a percent sign and two digits. -/
def readOctet (c : Cursor) : Option (UInt8 × Cursor) := do
  if !c.sees 0 '%' then none
  let digits := (c.rest.drop 1).take 2
  if digits.length < 2 then none
  return ((← digits? 16 digits).toUInt8, c.skip 3)

/-- Reads the octets that continue a character. -/
def readTrail : Nat → Cursor → Option (List UInt8 × Cursor)
  | 0, c => some ([], c)
  | more + 1, c => do
    let (octet, c) ← readOctet c
    if octet / 64 ≠ 2 then none
    let (octets, c) ← readTrail more c
    return (octet :: octets, c)

/-- The number of octets that continue a character, by its first octet. -/
def trailLength? (octet : UInt8) : Option Nat :=
  if octet < 0x80 then some 0
  else if octet / 32 = 6 then some 1
  else if octet / 16 = 14 then some 2
  else if octet / 8 = 30 then some 3
  else none

/-- Reads a character written as octets. -/
def readOctets (c : Cursor) : Option (List UInt8 × Cursor) := do
  let (octet, c) ← readOctet c
  let (octets, c) ← readTrail (← trailLength? octet) c
  return (octet :: octets, c)

/-- The characters of a tag; between angle brackets there are some more. -/
def isTagChar (verbatim : Bool) (c : Char) : Bool :=
  isNameChar c ||
    [';', '/', '?', ':', '@', '&', '=', '+', '$', '.', '%', '!', '~', '*', '\'', '(', ')'].contains c ||
    (verbatim && (c == ',' || c == '[' || c == ']'))

/-- The octet of a character of a tag. -/
def tagOctet (c : Char) : UInt8 := c.toNat.toUInt8

/-- Reads the octets of a tag. -/
def readTagText (verbatim : Bool) : Nat → List UInt8 → Cursor → Option (List UInt8 × Cursor)
  | 0, _, _ => none
  | fuel + 1, acc, c =>
    match c.peek? 0 with
    | some '%' => do
      let (octets, c) ← readOctets c
      readTagText verbatim fuel (acc ++ octets) c
    | some x =>
      if isTagChar verbatim x then readTagText verbatim fuel (acc ++ [tagOctet x]) (c.skip 1)
      else some (acc, c)
    | none => some (acc, c)

/-- What counts of the octets of a tag: those before a zero. -/
def tagText (octets : List UInt8) : List UInt8 := octets.takeWhile (· ≠ 0)

/-- Reads a handle: a mark, a name, and possibly a mark again. -/
def readHandle (c : Cursor) : Option (List Char × Cursor) :=
  if !c.sees 0 '!' then none
  else
    let name := (c.skip 1).run isNameChar
    let behind := c.skip (1 + name.length)
    if behind.sees 0 '!' then some ('!' :: name ++ ['!'], behind.skip 1)
    else some ('!' :: name, behind)

/-- Reads a tag. -/
def readTag (flow : Bool) (c : Cursor) : Option (Token × Cursor) := do
  let fuel := c.fuel
  let (token, c) ←
    if c.sees 1 '<' then
      let (text, c) ← readTagText true fuel [] (c.skip 2)
      if text.isEmpty || !c.sees 0 '>' then none
      else some (Token.tag "" (tagText text), c.skip 1)
    else
      let (handle, c) ← readHandle c
      if 1 < handle.length && handle.getLast? == some '!' then
        let (text, c) ← readTagText false fuel [] c
        if text.isEmpty then none
        else some (Token.tag (String.ofList handle) (tagText text), c)
      else
        let (text, c) ← readTagText false fuel ((handle.drop 1).map tagOctet) c
        if (tagText text).isEmpty then some (Token.tag "" [tagOctet '!'], c)
        else some (Token.tag "!" (tagText text), c)
  if c.wordEndsAt 0 || (flow && c.sees 0 ',') then return (token, c) else none

/-- Reads a number of at most nine digits. -/
def readVersionNumber (c : Cursor) : Option (Nat × Cursor) := do
  let digits := c.run Char.isDigit
  if 9 < digits.length then none
  return (← digits? 10 digits, c.skip digits.length)

/-- Reads the arguments of a directive. -/
def readDirectiveBody (name : String) (c : Cursor) : Option (Token × Cursor) := do
  let c := c.skipWhile isGap
  if name = "YAML" then
    let (major, c) ← readVersionNumber c
    if !c.sees 0 '.' then none
    let (minor, c) ← readVersionNumber (c.skip 1)
    return (.version major minor, c)
  else if name = "TAG" then
    let (handle, c) ← readHandle c
    if handle ≠ ['!'] && handle.getLast? ≠ some '!' then none
    if !c.atGap then none
    let (text, c) ← readTagText true c.fuel [] (c.skipWhile isGap)
    if text.isEmpty || !c.wordEndsAt 0 then none
    return (.tagHandle (String.ofList handle) (tagText text), c)
  else none

/-- Reads a directive and the rest of its line. -/
def readDirective (c : Cursor) : Option (Token × Cursor) := do
  let name := (c.skip 1).run isNameChar
  let c := c.skip (1 + name.length)
  if name.isEmpty || !c.wordEndsAt 0 then none
  let (token, c) ← readDirectiveBody (String.ofList name) c
  let c := (c.skipWhile isGap).skipComment
  if c.atLineEnd then return (token, c.skipBreak) else none

end Planner.Yaml
