import Planner.Binary64.Basic

/-! # Words

In some documents a scalar has no type of its own: `5` is a number where a value of any kind may
stand and a text where a text is wanted.  A `Word` keeps the text, how it was written and its tag;
`value?` is what it stands for by itself, `bool?` and `nat?` what it stands for where a truth value
or a count is wanted.  A tag is a string of octets, of which only the kind counts. -/

namespace Planner.Data

/-- A scalar value with a type. -/
inductive Atom
  | null
  | bool (value : Bool)
  | int (value : Int)
  | float (value : Binary64)
  | string (value : String)
  deriving DecidableEq, Repr

/-- How a word was written. -/
inductive Style
  | plain
  | quoted
  | literal
  deriving DecidableEq, Repr

/-- What a tag says about the part of a document that carries it. -/
inductive Tag
  | bool
  | int
  | float
  | null
  /-- A tag of the document's own. -/
  | own
  /-- A tag that begins like one of the document's own and is no text. -/
  | garbled
  /-- Any other tag. -/
  | foreign
  deriving DecidableEq, Repr

/-- The octets of a text. -/
def octets (s : String) : List UInt8 := s.toUTF8.toList

/-- Whether octets are a text. -/
def isText (os : List UInt8) : Bool := (String.fromUTF8? ⟨os.toArray⟩).isSome

/-- The kind of a tag.  What makes a tag the document's own is the exclamation mark before it. -/
def Tag.ofOctets (os : List UInt8) : Tag :=
  if os = octets "tag:yaml.org,2002:bool" then bool
  else if os = octets "tag:yaml.org,2002:int" then int
  else if os = octets "tag:yaml.org,2002:float" then float
  else if os = octets "tag:yaml.org,2002:null" then null
  else if os.head? = some 0x21 then if isText os then own else garbled
  else foreign

/-- A scalar whose type depends on what is wanted. -/
structure Word where
  text : String
  style : Style
  tag : Option Tag
  deriving DecidableEq, Repr

/-! ### Readings of a plain text -/

/-- The spellings of the missing value. -/
def isNullText (s : String) : Bool := s == "null" || s == "Null" || s == "NULL" || s == "~"

/-- The truth value that a text spells. -/
def boolText? : String → Option Bool
  | "true" | "True" | "TRUE" => some true
  | "false" | "False" | "FALSE" => some false
  | _ => none

/-- The value of a character as a digit. -/
def digit? (radix : Nat) (c : Char) : Option Nat :=
  let n :=
    if c.isDigit then some (c.toNat - 48)
    else if c.isLower then some (c.toNat - 97 + 10)
    else if c.isUpper then some (c.toNat - 65 + 10)
    else none
  n.bind (fun d => if d < radix then some d else none)

/-- The value of a run of digits, which may not be empty. -/
def digits? (radix : Nat) (cs : List Char) : Option Nat :=
  if cs.isEmpty then none
  else cs.foldl (fun acc c => do return (← acc) * radix + (← digit? radix c)) (some 0)

/-- Whether a text is one of the characters `+` and `-`, and what follows. -/
def startsWithSign : List Char → Bool
  | '+' :: _ => true
  | '-' :: _ => true
  | _ => false

/-- A run of digits with leading zeros, such as `007`, is not a number. -/
def isPaddedRun (cs : List Char) : Bool :=
  let body := match cs with
    | '+' :: rest => rest
    | '-' :: rest => rest
    | rest => rest
  match body with
  | '0' :: rest => !rest.isEmpty && rest.all Char.isDigit
  | _ => false

/-- A text without a plus sign before it. -/
def dropPlus : List Char → List Char
  | '+' :: rest => rest
  | cs => cs

/-- The digits of a number in base two, eight or sixteen, and the base. -/
def radixDigits? : List Char → Option (Nat × List Char)
  | '0' :: 'x' :: rest => some (16, rest)
  | '0' :: 'o' :: rest => some (8, rest)
  | '0' :: 'b' :: rest => some (2, rest)
  | _ => none

/-- The number without a minus sign that a text spells. -/
def unsignedText? (cs : List Char) : Option Nat :=
  let body := dropPlus cs
  match radixDigits? body with
  | some (radix, rest) => digits? radix rest
  | none => if startsWithSign body || isPaddedRun cs then none else digits? 10 body

/-- The number with a minus sign that a text spells. -/
def negativeText? (cs : List Char) : Option Int :=
  match cs with
  | '-' :: body =>
    let number := match radixDigits? body with
      | some (radix, rest) => digits? radix rest
      | none => if isPaddedRun cs then none else digits? 10 body
    number.map (fun n => -(n : Int))
  | _ => none

/-- The integer of at most 128 bits that a text spells. -/
def intText? (s : String) : Option Int :=
  match unsignedText? s.toList with
  | some n => if n < twoTo 128 then some n else none
  | none => match negativeText? s.toList with
    | some n => if -(twoTo 127 : Int) ≤ n then some n else none
    | none => none

/-- The exponent after a decimal's digits; none means that something else stands there. -/
def exponentText? : List Char → Option Int
  | [] => some 0
  | c :: rest =>
    if c = 'e' || c = 'E' then
      match rest with
      | '-' :: ds => (digits? 10 ds).map (fun n => -(n : Int))
      | '+' :: ds => (digits? 10 ds).map Int.ofNat
      | ds => (digits? 10 ds).map Int.ofNat
    else none

/-- The finite number that a decimal spells. -/
def decimalText? (cs : List Char) : Option Binary64 := do
  let negative := cs.head? == some '-'
  let body := if startsWithSign cs then cs.drop 1 else cs
  let whole := body.takeWhile Char.isDigit
  let rest := body.dropWhile Char.isDigit
  let (part, rest) := match rest with
    | '.' :: more => (more.takeWhile Char.isDigit, more.dropWhile Char.isDigit)
    | _ => ([], rest)
  let digits ← digits? 10 (whole ++ part)
  let power ← exponentText? rest
  let x := Binary64.ofDecimal negative digits (power - part.length)
  if x.isFinite then some x else none

/-- The number that a text spells, the infinities and the NaN included. -/
def floatText? (s : String) : Option Binary64 :=
  let cs := s.toList
  let body := dropPlus cs
  if cs.head? == some '+' && startsWithSign body then none
  else match String.ofList body with
    | ".inf" | ".Inf" | ".INF" => some (.infinity false)
    | "-.inf" | "-.Inf" | "-.INF" => some (.infinity true)
    | ".nan" | ".NaN" | ".NAN" => if cs.head? == some '+' then none else some .nan
    | _ => decimalText? body

/-- What a plain text stands for by itself. -/
def plainValue (s : String) : Atom :=
  if s.isEmpty || isNullText s then .null
  else match boolText? s with
    | some b => .bool b
    | none => match intText? s with
      | some n => .int n
      | none => match if isPaddedRun s.toList then none else floatText? s with
        | some x => .float x
        | none => .string s

/-! ### Readings of a word -/

namespace Word

/-- Whether a word is written with nothing at all. -/
def isBlank (w : Word) : Bool := w.style == .plain && w.text.isEmpty

/-- What a word without a tag stands for by itself. -/
def untagged (w : Word) : Atom := if w.style == .plain then plainValue w.text else .string w.text

/-- What a word stands for by itself; none if its tag does not admit it. -/
def value? (w : Word) : Option Atom :=
  match w.tag with
  | none => some w.untagged
  | some .garbled => some w.untagged
  | some .bool => (boolText? w.text).map Atom.bool
  | some .int => (intText? w.text).map Atom.int
  | some .float => (floatText? w.text).map Atom.float
  | some .null => if isNullText w.text then some .null else none
  | some .own => none
  | some .foreign => some (.string w.text)

/-- Whether a word may be read as a value of the tagged type. -/
def admits (w : Word) (tag : Tag) : Bool :=
  w.style == .plain || (w.style == .literal && w.tag == some tag)

/-- The truth value of a word, where one is wanted. -/
def bool? (w : Word) : Option Bool := if w.admits .bool then boolText? w.text else none

/-- The count of a word, where one is wanted. -/
def nat? (w : Word) : Option Nat := if w.admits .int then unsignedText? w.text.toList else none

/-- Whether a word leaves an optional value out; none if its tag does not admit it. -/
def omits? (w : Word) : Option Bool :=
  if w.style != .plain then some false
  else match w.tag with
    | none => some (w.text.isEmpty || isNullText w.text)
    | some .null => if isNullText w.text then some true else none
    | some _ => some false

end Word

end Planner.Data
