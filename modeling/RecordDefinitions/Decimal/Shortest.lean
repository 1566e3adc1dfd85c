/-!
# Shortest decimals

The decimal with the fewest digits among those that a 64-bit binary number is
the nearest to. A finite magnitude is `m · 2^q`; the decimals that round to it
fill an interval whose ends count when `m` is even. Interval and value are put
on one decimal scale as whole numbers, so every comparison is exact. The grids
of multiples of `10^k` are then tried from coarse to fine: the first one that
has a point in the interval wins, and of two points the nearer.
-/

namespace RecordDefinitions.Decimal

/-- A decimal `coefficient · 10^exponent`. -/
structure Scaled where
  coefficient : Nat
  exponent : Int
  deriving DecidableEq, Repr

/-- The numbers that round to `value`; all three are multiples of `10^scale`. -/
structure Interval where
  low : Nat
  value : Nat
  high : Nat
  closed : Bool
  scale : Int

/-- The fraction field of a 64-bit pattern. -/
def fractionOf (bits : UInt64) : Nat := bits.toNat % Nat.pow 2 52

/-- The exponent field of a 64-bit pattern. -/
def exponentOf (bits : UInt64) : Nat := bits.toNat / Nat.pow 2 52 % Nat.pow 2 11

/-- Whether the sign bit of a 64-bit pattern is set. -/
def isNegative (bits : UInt64) : Bool := bits.toNat / Nat.pow 2 63 == 1

/-- The pattern of a magnitude has an exponent field below the greatest one. -/
def isFinite (bits : UInt64) : Bool := exponentOf bits < Nat.pow 2 11 - 1

/-- The rounding interval of a finite magnitude. Its lower half is half as wide
just above a power of two. -/
def roundingInterval (bits : UInt64) : Interval :=
  let fraction := fractionOf bits
  let field := exponentOf bits
  let mantissa := if field = 0 then fraction else Nat.pow 2 52 + fraction
  let exponent : Int := (if field = 0 then 1 else field : Nat) - 1077
  let below := if fraction = 0 ∧ 1 < field then 1 else 2
  let unit := if 0 ≤ exponent then Nat.pow 2 exponent.toNat else Nat.pow 5 (-exponent).toNat
  { low := (4 * mantissa - below) * unit
    value := 4 * mantissa * unit
    high := (4 * mantissa + 2) * unit
    closed := mantissa % 2 = 0
    scale := min exponent 0 }

/-- Whether a number on the interval's scale rounds to its value. -/
def Interval.holds (i : Interval) (n : Nat) : Bool :=
  if i.closed then i.low ≤ n && n ≤ i.high else i.low < n && n < i.high

/-- The multiple of `10^k` in the interval that is nearest to the value, divided
by `10^k`; of two equally near ones the even one. -/
def Interval.onGrid (i : Interval) (k : Nat) : Option Nat :=
  let step := Nat.pow 10 k
  let below := i.value / step
  let above := below + 1
  match i.holds (below * step), i.holds (above * step) with
  | true, true =>
    let rest := 2 * (i.value - below * step)
    some (if rest < step ∨ (rest = step ∧ below % 2 = 0) then below else above)
  | true, false => some below
  | false, true => some above
  | false, false => none

/-- The point of the coarsest grid, from `10^k` down, that meets the interval. -/
def Interval.coarsest (i : Interval) : Nat → Scaled
  | 0 => ⟨(i.onGrid 0).getD i.value, i.scale⟩
  | k + 1 =>
    match i.onGrid (k + 1) with
    | some c => ⟨c, i.scale + (k + 1 : Nat)⟩
    | none => i.coarsest k

/-- The same decimal without trailing zeros in the coefficient. -/
def Scaled.reduced (s : Scaled) : Scaled :=
  if 0 < s.coefficient ∧ s.coefficient % 10 = 0 then
    Scaled.reduced ⟨s.coefficient / 10, s.exponent + 1⟩
  else s
termination_by s.coefficient
decreasing_by omega

/-- The number of decimal digits of a number, at least one. -/
def width (n : Nat) : Nat :=
  if n < 10 then 1 else width (n / 10) + 1
termination_by n

/-- The shortest decimal of a finite magnitude other than zero. -/
def shortest (bits : UInt64) : Scaled :=
  let i := roundingInterval bits
  (i.coarsest (width i.value)).reduced

end RecordDefinitions.Decimal
