/-!
# Nearest binary numbers

The 64-bit binary number nearest to a decimal, ties to the even mantissa. The
quotient is scaled by a power of two until its whole part has 53 bits, or until
the least exponent is reached, and then rounded once.
-/

namespace RecordDefinitions.Decimal

/-- A quotient rounded to the nearest whole number, ties to the even one. -/
def roundedQuotient (numerator denominator : Nat) : Nat :=
  let whole := numerator / denominator
  let rest := 2 * (numerator % denominator)
  if denominator < rest ∨ (rest = denominator ∧ whole % 2 = 1) then whole + 1 else whole

/-- `numerator / denominator / 2^exponent` rounded to a whole number. -/
def mantissaAt (numerator denominator : Nat) (exponent : Int) : Nat :=
  if 0 ≤ exponent then roundedQuotient numerator (denominator * Nat.pow 2 exponent.toNat)
  else roundedQuotient (numerator * Nat.pow 2 (-exponent).toNat) denominator

/-- Whether `numerator / denominator` is at least `2^exponent`. -/
def atLeastPower (numerator denominator : Nat) (exponent : Int) : Bool :=
  if 0 ≤ exponent then denominator * Nat.pow 2 exponent.toNat ≤ numerator
  else denominator ≤ numerator * Nat.pow 2 (-exponent).toNat

/-- The bits of the number nearest to a positive quotient; none beyond the
greatest finite number. A mantissa of 53 bits adds one to the exponent field. -/
def nearestQuotient (numerator denominator : Nat) : Option UInt64 :=
  let guess : Int := (numerator.log2 : Int) - denominator.log2
  let log := if atLeastPower numerator denominator guess then guess else guess - 1
  let exponent := max (log - 52) (-1074)
  let mantissa := mantissaAt numerator denominator exponent
  let bits := (exponent + 1074).toNat * Nat.pow 2 52 + mantissa
  if bits < (Nat.pow 2 11 - 1) * Nat.pow 2 52 then some (UInt64.ofNat bits) else none

/-- The bits of the number nearest to `coefficient · 10^exponent`, none beyond
the greatest finite number. The place of the first digit lies between `least`
and `most`; a decimal that starts outside the range is decided by that alone. -/
def nearest (coefficient : Nat) (exponent : Int) : Option UInt64 :=
  if coefficient = 0 then some 0
  else
    let least : Int := (coefficient.log2 * 301 / 1000 : Nat) + exponent
    let most : Int := (coefficient.log2 * 302 / 1000 + 2 : Nat) + exponent
    if 310 < least then none
    else if most < -330 then some 0
    else if 0 ≤ exponent then nearestQuotient (coefficient * Nat.pow 10 exponent.toNat) 1
    else nearestQuotient coefficient (Nat.pow 10 (-exponent).toNat)

end RecordDefinitions.Decimal
