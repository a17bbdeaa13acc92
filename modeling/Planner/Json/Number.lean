import Planner.Data.Word

/-! # Numbers in JSON texts

A number without point and exponent is an integer if it lies between `-2 ^ 63` and `2 ^ 64 - 1`;
`-0` and every other number is a fraction.  A fraction keeps the digits that fit sixty-four bits and
multiplies or divides by the power of ten, each in double precision; one that would be infinite is
refused. -/

namespace Planner.Json

open Planner.Data

/-- The parts of a number's text. -/
structure Numeral where
  negative : Bool
  whole : List Char
  /-- The digits after the point, if there is one. -/
  part : Option (List Char)
  /-- The sign and the digits of the exponent, if there is one. -/
  power : Option (Bool × List Char)

/-- The bound on kept digits. -/
def maxKept : Nat := twoTo 64 - 1

/-- The value of a decimal digit. -/
def digitValue (c : Char) : Nat := c.toNat - 48

/-- Appends a digit if the number still fits. -/
def keep? (kept : Nat) (c : Char) : Option Nat :=
  let next := kept * 10 + digitValue c
  if next ≤ maxKept then some next else none

/-- Keeps the digits before the point; the second part counts those that were dropped. -/
def keepWhole : Nat → List Char → Nat × Nat
  | kept, [] => (kept, 0)
  | kept, c :: rest => match keep? kept c with
    | some next => keepWhole next rest
    | none => (kept, rest.length + 1)

/-- Keeps the digits after the point; the second part counts those that were kept. -/
def keepPart : Nat → Nat → List Char → Nat × Nat
  | kept, count, [] => (kept, count)
  | kept, count, c :: rest => match keep? kept c with
    | some next => keepPart next (count + 1) rest
    | none => (kept, count)

/-- The power of ten in double precision. -/
def powerOfTen (n : Nat) : Binary64 := Binary64.nearest false (tenTo n) 1

/-- `x · 10 ^ power`, by at most 308 powers at a time; none if that is infinite. -/
def scale : Nat → Binary64 → Int → Option Binary64
  | 0, x, _ => some x
  | fuel + 1, x, power =>
    if power.natAbs ≤ 308 then
      if 0 ≤ power then
        let y := x.mul (powerOfTen power.natAbs)
        if y.isFinite then some y else none
      else some (x.div (powerOfTen power.natAbs))
    else if x.isZero then some x
    else if 0 ≤ power then none
    -- three steps bring any number to zero
    else scale fuel (x.div (powerOfTen 308)) (power + 308)

/-- A number with a sign. -/
def signed (negative : Bool) (x : Binary64) : Binary64 := if negative then x.neg else x

/-- The value of an exponent, if it is below `2 ^ 31`. -/
def exponent? (digits : List Char) : Option Nat :=
  let n := digits.foldl (fun n c => Nat.min (n * 10 + digitValue c) (twoTo 31)) 0
  if n < twoTo 31 then some n else none

/-- The value of a numeral; none if it is out of range. -/
def Numeral.value? (n : Numeral) : Option Atom :=
  let (kept, dropped) := keepWhole 0 n.whole
  let fraction (kept : Nat) (power : Int) : Option Atom :=
    (scale 8 (Binary64.ofNat kept) power).map (fun x => .float (signed n.negative x))
  match n.part, n.power with
  | none, none =>
    if 0 < dropped then fraction kept dropped
    else if !n.negative then some (.int kept)
    else if 0 < kept && kept ≤ twoTo 63 then some (.int (-(kept : Int)))
    else some (.float (signed true (Binary64.ofNat kept)))
  | part, power =>
    let (kept, moved) := keepPart kept 0 (part.getD [])
    let start : Int := dropped - moved
    match power with
    | none => fraction kept start
    | some (down, digits) => match exponent? digits with
      | some e => fraction kept (if down then start - e else start + e)
      | none => if kept = 0 || down then some (.float (.zero n.negative)) else none

/-- Reads a numeral at the start of a text. -/
def numeral? (cs : List Char) : Option (Numeral × List Char) := do
  let negative := cs.head? == some '-'
  let cs := if negative then cs.drop 1 else cs
  let whole := cs.takeWhile Char.isDigit
  let cs := cs.dropWhile Char.isDigit
  if whole.isEmpty || (whole.head? == some '0' && 1 < whole.length) then none
  let (part, cs) ← match cs with
    | '.' :: rest =>
      let digits := rest.takeWhile Char.isDigit
      if digits.isEmpty then none else some (some digits, rest.dropWhile Char.isDigit)
    | _ => some (none, cs)
  let (power, cs) ← match cs with
    | c :: rest =>
      if c = 'e' || c = 'E' then
        let down := rest.head? == some '-'
        let rest := if startsWithSign rest then rest.drop 1 else rest
        let digits := rest.takeWhile Char.isDigit
        if digits.isEmpty then none else some (some (down, digits), rest.dropWhile Char.isDigit)
      else some (none, cs)
    | [] => some (none, cs)
  return (⟨negative, whole, part, power⟩, cs)

end Planner.Json
