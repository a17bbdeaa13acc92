import Planner.Counting

/-! # Double-precision numbers

A `Binary64` is its sixty-four bits.  A finite one has the value `±significand · 2 ^ exponent`, and
`nearest` gives the number closest to a fraction, a tie going to the even significand and a value
past the largest finite number to infinity.  Products and quotients are the nearest numbers to the
exact results.  All arithmetic is on natural numbers and integers. -/

namespace Planner

/-- A number in the binary interchange format of sixty-four bits. -/
structure Binary64 where
  bits : UInt64
  deriving DecidableEq, Repr

namespace Binary64

/-- The sign bit. -/
def isNegative (x : Binary64) : Bool := twoTo 63 ≤ x.bits.toNat

/-- The eleven bits of the exponent. -/
def exponentField (x : Binary64) : Nat := x.bits.toNat / twoTo 52 % twoTo 11

/-- The fifty-two bits of the fraction. -/
def fraction (x : Binary64) : Nat := x.bits.toNat % twoTo 52

/-- Whether the number is neither infinite nor a NaN. -/
def isFinite (x : Binary64) : Bool := x.exponentField != 2047

/-- Whether the bits stand for no number. -/
def isNaN (x : Binary64) : Bool := x.exponentField == 2047 && x.fraction != 0

/-- The significand of a finite number, with the leading bit of a normal one. -/
def significand (x : Binary64) : Nat :=
  if x.exponentField = 0 then x.fraction else twoTo 52 + x.fraction

/-- The exponent of two that goes with the significand. -/
def exponent (x : Binary64) : Int := (Nat.max x.exponentField 1 : Int) - 1075

/-- Whether the number is zero of either sign. -/
def isZero (x : Binary64) : Bool := x.exponentField == 0 && x.fraction == 0

/-- Equality of values: the two zeros are equal, and a NaN equals nothing. -/
def sameValue (x y : Binary64) : Bool :=
  !x.isNaN && !y.isNaN && (x.bits == y.bits || (x.isZero && y.isZero))

/-- A number of given sign from the bits of its absolute value. -/
def ofMagnitude (negative : Bool) (magnitude : Nat) : Binary64 :=
  ⟨UInt64.ofNat (if negative then twoTo 63 + magnitude else magnitude)⟩

/-- The bits of infinity's absolute value. -/
def infinityMagnitude : Nat := 2047 * twoTo 52

/-- Infinity of given sign. -/
def infinity (negative : Bool) : Binary64 := ofMagnitude negative infinityMagnitude

/-- Zero of given sign. -/
def zero (negative : Bool) : Binary64 := ofMagnitude negative 0

/-- The quiet NaN. -/
def nan : Binary64 := ofMagnitude false (2047 * twoTo 52 + twoTo 51)

/-- The quotient rounded to the nearest whole number, a tie going to the even one. -/
def roundDiv (num den : Nat) : Nat :=
  let q := num / den
  let twice := 2 * (num % den)
  if den < twice || (twice == den && q % 2 == 1) then q + 1 else q

/-- The exponent of two at which a positive fraction has a significand of fifty-three bits. -/
def scaleFor (num den : Nat) : Int :=
  let guess : Int := (num.log2 : Int) - (den.log2 : Int) - 52
  -- the guess is right or one too large
  let fits := if guess < 0 then den * twoTo 52 ≤ num * twoTo (-guess).toNat
    else den * twoTo 52 * twoTo guess.toNat ≤ num
  if fits then guess else guess - 1

/-- The number nearest to `num / den`, for positive `den`. -/
def nearest (negative : Bool) (num den : Nat) : Binary64 :=
  if num = 0 then zero negative
  else
    let e := max (scaleFor num den) (-1074)
    let m := if e < 0 then roundDiv (num * twoTo (-e).toNat) den else roundDiv num (den * twoTo e.toNat)
    ofMagnitude negative (min infinityMagnitude ((e + 1074).toNat * twoTo 52 + m))

/-- The number nearest to a natural number. -/
def ofNat (n : Nat) : Binary64 := nearest false n 1

/-- The number nearest to an integer. -/
def ofInt (n : Int) : Binary64 := nearest (decide (n < 0)) n.natAbs 1

/-- The number of opposite sign. -/
def neg (x : Binary64) : Binary64 := ⟨x.bits ^^^ 0x8000000000000000⟩

/-- The absolute value of a finite number as a fraction. -/
def toFraction (x : Binary64) : Nat × Nat :=
  if x.exponent < 0 then (x.significand, twoTo (-x.exponent).toNat)
  else (x.significand * twoTo x.exponent.toNat, 1)

/-- The product of two finite numbers. -/
def mul (x y : Binary64) : Binary64 :=
  let (a, b) := x.toFraction
  let (c, d) := y.toFraction
  nearest (x.isNegative != y.isNegative) (a * c) (b * d)

/-- The quotient of two finite numbers, the second of which is not zero. -/
def div (x y : Binary64) : Binary64 :=
  let (a, b) := x.toFraction
  let (c, d) := y.toFraction
  nearest (x.isNegative != y.isNegative) (a * d) (b * c)

/-- The number nearest to `digits · 10 ^ power`.  Powers far outside the range of finite numbers
are answered without forming them. -/
def ofDecimal (negative : Bool) (digits : Nat) (power : Int) : Binary64 :=
  if digits = 0 then zero negative
  else if 400 < power then infinity negative
  else if power + (Nat.toDigits 10 digits).length < -400 then zero negative
  else if power < 0 then nearest negative digits (tenTo (-power).toNat)
  else nearest negative (digits * tenTo power.toNat) 1

end Binary64

end Planner
