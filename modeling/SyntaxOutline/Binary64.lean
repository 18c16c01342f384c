/-! # Binary64 numbers

A number attribute is held as the bits of an IEEE 754 binary64 number: sign, eleven bits of biased
exponent, fifty-two bits of fraction. Quotients of natural numbers are rounded to the nearest
number, a tie to the even one, by exact arithmetic.

A significand with a power of ten takes several steps, each of which rounds: the significand becomes
a number, the power of ten another one, and the first is multiplied or divided by the second. Below
the least power that can be held there is a division by the largest power first. So the outcome may
differ from the nearest number in its last places. -/
namespace SyntaxOutline

structure Binary64 where
  bits : UInt64
deriving DecidableEq, Repr

namespace Binary64

/-- Numbers are compared by value: the two zeros are equal. -/
instance : BEq Binary64 := ⟨fun x y => x.bits == y.bits || (x.bits <<< 1 == 0 && y.bits <<< 1 == 0)⟩

/-- A quotient rounded to the nearest integer, a tie to the even one. -/
def roundQuotient (numerator denominator : Nat) : Nat :=
  let quotient := numerator / denominator
  let doubled := 2 * (numerator % denominator)
  if denominator < doubled || (doubled == denominator && quotient % 2 == 1) then quotient + 1
  else quotient

/-- The numerator and denominator of a quotient divided by a power of two. -/
def scale (numerator denominator : Nat) (exponent : Int) : Nat × Nat :=
  (numerator <<< (-exponent).toNat, denominator <<< exponent.toNat)

/-- Exponent of the unit in the last place for a positive quotient: the one that leaves fifty-three
bits before the point, and never less than that of the subnormal numbers. -/
def unitExponent (numerator denominator : Nat) : Int :=
  let guess : Int := (numerator.log2 : Int) - denominator.log2 - 53
  let (n, d) := scale numerator denominator guess
  max (if n / d < 1 <<< 53 then guess else guess + 1) (-1074)

/-- The magnitude, as bits without a sign, that is nearest to a quotient. A significand rounded up
to the next power of two carries into the exponent, as it should. -/
def nearestMagnitude (numerator denominator : Nat) : Nat :=
  if numerator = 0 then 0
  else
    let exponent := unitExponent numerator denominator
    let (n, d) := scale numerator denominator exponent
    ((exponent + 1074).toNat <<< 52) + roundQuotient n d

/-- The infinite magnitude, the least that is not a number. -/
def infinity : Nat := 0x7ff <<< 52

/-- How many times the least positive number goes into a magnitude. -/
def units (magnitude : Nat) : Nat :=
  let field := magnitude >>> 52
  let fraction := magnitude % (1 <<< 52)
  if field = 0 then fraction else (fraction + (1 <<< 52)) <<< (field - 1)

/-- The rounded product of two magnitudes; one unit is two to the power of -1074. -/
def product (a b : Nat) : Nat := nearestMagnitude (units a * units b) (1 <<< 2148)

/-- The rounded quotient of two magnitudes. -/
def quotient (a b : Nat) : Nat := nearestMagnitude (units a) (units b)

/-- The largest exponent of a power of ten that can be held. -/
def largestPower : Nat := 308

def powerOfTen (exponent : Nat) : Nat := nearestMagnitude (Nat.pow 10 exponent) 1

/-- A magnitude times a power of ten; none if it gets too large. -/
def timesPower (magnitude : Nat) (exponent : Int) : Option Nat :=
  if 0 ≤ exponent then
    if magnitude = 0 then some 0
    else if largestPower < exponent then none
    else
      let result := product magnitude (powerOfTen exponent.toNat)
      if result < infinity then some result else none
  else if -exponent ≤ largestPower then
    some (quotient magnitude (powerOfTen (-exponent).toNat))
  else if magnitude = 0 then some 0
  else timesPower (quotient magnitude (powerOfTen largestPower)) (exponent + largestPower)
termination_by (-exponent).toNat
decreasing_by simp only [largestPower] at *; omega

/-- A significand times a power of ten, with a sign that zero keeps too. -/
def ofScientific (negative : Bool) (significand : Nat) (exponent : Int) : Option Binary64 :=
  (timesPower (nearestMagnitude significand 1) exponent).map fun magnitude =>
    ⟨UInt64.ofNat (if negative then (1 <<< 63) + magnitude else magnitude)⟩

/-- The bits as sixteen hexadecimal digits. -/
def hex (x : Binary64) : String :=
  let digits := Nat.toDigits 16 x.bits.toNat
  String.ofList (List.replicate (16 - digits.length) '0' ++ digits)

end Binary64

end SyntaxOutline
