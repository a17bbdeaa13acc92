import Planner.Binary64.Basic

/-! # The fewest digits that read back

`shortest` finds the decimal with the fewest digits inside the interval of reals that round to a
number; the ends belong to the interval when the significand is even.  On each grid of 1, 2, …, 17
digits it tests the two neighbours of the value: the first grid with a hit wins, and of two hits the
nearer.  `Ties` settles an exact tie.  `NumberStyle` is how a format writes the digits down. -/

namespace Planner.Binary64

/-- Which of two equally near neighbours is taken. -/
inductive Ties
  | up
  | even

/-- The value, and the distances to the ends of its interval, over one denominator. -/
structure Interval where
  value : Nat
  below : Nat
  above : Nat
  denominator : Nat
  closed : Bool

/-- The reals that round to a finite positive number.  Below a power of two the spacing halves. -/
def interval (x : Binary64) : Interval :=
  let e := x.exponent - 2
  let up := if e < 0 then 1 else twoTo e.toNat
  let down := if e < 0 then twoTo (-e).toNat else 1
  let narrow := x.fraction == 0 && 1 < x.exponentField
  { value := 4 * x.significand * up
    below := (if narrow then 1 else 2) * up
    above := 2 * up
    denominator := down
    closed := x.significand % 2 == 0 }

/-- The power of ten of a positive fraction's first digit. -/
def leadingPower (num den : Nat) : Int :=
  if den ≤ num then (Nat.toDigits 10 (num / den)).length - 1
  else -((Nat.toDigits 10 ((den + num - 1) / num - 1)).length : Int)

/-- The neighbour of the value on the grid of multiples of `10 ^ power` that lies in the interval. -/
def Interval.hit (i : Interval) (ties : Ties) (power : Int) : Option Nat :=
  let scale := if power < 0 then tenTo (-power).toNat else 1
  let unit := if power < 0 then i.denominator else i.denominator * tenTo power.toNat
  let value := i.value * scale
  let floor := value / unit
  let down := value % unit
  let up := unit - down
  let reaches (distance limit : Nat) : Bool := distance < limit || (i.closed && distance == limit)
  let downHit := reaches down (i.below * scale)
  let upHit := reaches up (i.above * scale)
  if downHit && upHit then
    if down < up then some floor
    else if up < down then some (floor + 1)
    else match ties with
      | .up => some (floor + 1)
      | .even => some (if floor % 2 == 0 then floor else floor + 1)
  else if downHit then some floor
  else if upHit then some (floor + 1)
  else none

/-- Tries grids of `count` more digits, from the one at `power` on. -/
def Interval.search (i : Interval) (ties : Ties) : Nat → Int → Nat × Int
  | 0, power => ((i.hit ties power).getD 0, power)
  | count + 1, power =>
    match i.hit ties power with
    | some digits => (digits, power)
    | none => i.search ties count (power - 1)

/-- Drops the zeros at the end of a number's digits, counting them. -/
def dropZeros : Nat → Nat → Int → Nat × Int
  | 0, n, power => (n, power)
  | fuel + 1, n, power => if n ≠ 0 && n % 10 = 0 then dropZeros fuel (n / 10) (power + 1) else (n, power)

/-- The digits of a finite number other than zero, and the power of ten of the last one. -/
def shortest (ties : Ties) (x : Binary64) : Nat × Int :=
  let i := x.interval
  let (digits, power) := i.search ties 17 (leadingPower i.value i.denominator)
  dropZeros 20 digits power

/-- How a format writes numbers. -/
structure NumberStyle where
  /-- The powers of the first digit that are written without an exponent; all, if there is none. -/
  positional : Option (Int × Int)
  /-- Whether a whole number keeps a point and a zero. -/
  keepsPoint : Bool
  /-- What stands before a positive exponent. -/
  exponentSign : String
  ties : Ties
  nan : String
  infinity : String
  negativeInfinity : String

/-- Digits with the point after the first `whole` of them. -/
def positionalText (style : NumberStyle) (digits : List Char) (power : Int) : String :=
  let whole : Int := digits.length + power
  if 0 ≤ power then
    String.ofList (digits ++ List.replicate power.toNat '0') ++ (if style.keepsPoint then ".0" else "")
  else if 0 < whole then
    String.ofList (digits.take whole.toNat) ++ "." ++ String.ofList (digits.drop whole.toNat)
  else "0." ++ String.ofList (List.replicate (-whole).toNat '0' ++ digits)

/-- Digits with an exponent. -/
def exponentText (style : NumberStyle) (digits : List Char) (lead : Int) : String :=
  let mantissa := match digits with
    | [] => ""
    | [d] => String.ofList [d]
    | d :: rest => String.ofList (d :: '.' :: rest)
  mantissa ++ "e" ++ (if lead < 0 then "-" else style.exponentSign) ++ toString lead.natAbs

/-- The text of a number in a given style. -/
def format (style : NumberStyle) (x : Binary64) : String :=
  if x.isNaN then style.nan
  else if !x.isFinite then if x.isNegative then style.negativeInfinity else style.infinity
  else
    let sign := if x.isNegative then "-" else ""
    if x.isZero then sign ++ (if style.keepsPoint then "0.0" else "0")
    else
      let (number, power) := x.shortest style.ties
      let digits := Nat.toDigits 10 number
      let lead : Int := digits.length - 1 + power
      let flat := match style.positional with
        | none => true
        | some (lo, hi) => lo ≤ lead && lead ≤ hi
      sign ++ (if flat then positionalText style digits power else exponentText style digits lead)

/-- Numbers in expressions: never an exponent, and no point after a whole number. -/
def plainStyle : NumberStyle where
  positional := none
  keepsPoint := false
  exponentSign := ""
  ties := .up
  nan := "NaN"
  infinity := "inf"
  negativeInfinity := "-inf"

end Planner.Binary64
