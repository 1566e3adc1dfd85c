import RecordDefinitions.Decimal.Digits
import RecordDefinitions.Decimal.Nearest
import RecordDefinitions.Document.Basic

/-!
# JSON numbers

The grammar of a numeral and the number it denotes. A numeral without point and
exponent denotes a whole number if that fits into 64 bits. Every other numeral
denotes a binary number, found quickly instead of exactly: the leading digits
that fit into 64 bits are taken as a whole number, rounded once, and multiplied
or divided by a power of ten, which rounds once more. Digits that do not fit
count by their place only.
-/

namespace RecordDefinitions.Json

/-- The parts of a numeral: the sign, the digits before and after the point, and
the exponent with its sign. -/
structure Numeral where
  negative : Bool
  whole : List Char
  fraction : Option (List Char)
  exponent : Option (Bool × List Char)

inductive NumeralFault where
  | malformed
  | outOfRange

namespace Numeral

/-- Digits, at least one, and what follows them. -/
def readDigits (cs : List Char) : Except NumeralFault (List Char × List Char) :=
  match cs.takeWhile Char.isDigit with
  | [] => .error .malformed
  | ds => .ok (ds, cs.dropWhile Char.isDigit)

/-- The part after the exponent mark: a sign that may be missing, and digits. -/
def readExponent (cs : List Char) : Except NumeralFault ((Bool × List Char) × List Char) :=
  match cs with
  | '+' :: rest => (readDigits rest).map fun (ds, after) => ((false, ds), after)
  | '-' :: rest => (readDigits rest).map fun (ds, after) => ((true, ds), after)
  | rest => (readDigits rest).map fun (ds, after) => ((false, ds), after)

/-- A numeral at the start of a text, and what follows it. A leading zero stands
alone. -/
def read (cs : List Char) : Except NumeralFault (Numeral × List Char) := do
  let (negative, cs) :=
    match cs with
    | '-' :: rest => (true, rest)
    | rest => (false, rest)
  let (whole, cs) ← readDigits cs
  if whole.head? = some '0' ∧ whole ≠ ['0'] then throw .malformed
  let (fraction, cs) ←
    match cs with
    | '.' :: rest => (readDigits rest).map fun (ds, after) => (some ds, after)
    | rest => .ok (none, rest)
  let (exponent, cs) ←
    match cs with
    | 'e' :: rest | 'E' :: rest => (readExponent rest).map fun (e, after) => (some e, after)
    | rest => .ok (none, rest)
  return (⟨negative, whole, fraction, exponent⟩, cs)

/-- Append digits as long as the number stays below `2^64`; the rest is left. -/
def absorb (n : Nat) : List Char → Nat × List Char
  | [] => (n, [])
  | d :: ds =>
    let next := 10 * n + Decimal.digitValue d
    if next < Nat.pow 2 64 then absorb next ds else (n, d :: ds)

/-- A power of ten up to `10^308`, rounded to a binary number. -/
def powerOfTen (n : Nat) : Float := Float.ofBits ((Decimal.nearest 1 n).getD 0)

/-- Divide by `10^n`, in steps of `10^308`, until nothing is left. -/
def dividedByPower (x : Float) (n : Nat) : Float :=
  if n ≤ 308 then x / powerOfTen n
  else if x == 0 then x
  else dividedByPower (x / powerOfTen 308) (n - 308)
termination_by n

/-- `n · 10^exponent` by one product or quotient, unless that is too large. -/
def scaled (n : Nat) (exponent : Int) : Except NumeralFault Float :=
  let x := (UInt64.ofNat n).toFloat
  if exponent < 0 then .ok (dividedByPower x (-exponent).toNat)
  else if exponent ≤ 308 then
    let y := x * powerOfTen exponent.toNat
    if y.isInf then .error .outOfRange else .ok y
  else if n = 0 then .ok x
  else .error .outOfRange

/-- The binary number that a numeral with a point, an exponent or too many
digits denotes. -/
def real (numeral : Numeral) : Except NumeralFault Number := do
  let (n, unused) := absorb 0 numeral.whole
  let fraction := numeral.fraction.getD []
  let (n, unusedFraction) :=
    if numeral.fraction.isSome then absorb n fraction else (n, [])
  let place : Int := unused.length - (fraction.length - unusedFraction.length : Nat)
  let shift : Int :=
    match numeral.exponent with
    | none => 0
    | some (true, ds) => -Decimal.value ds
    | some (false, ds) => Decimal.value ds
  let x ← scaled n (place + shift)
  return .real (if numeral.negative then (-x).toBits else x.toBits)

/-- The number that a numeral denotes. Minus zero is not a whole number. -/
def value (numeral : Numeral) : Except NumeralFault Number :=
  let n := Decimal.value numeral.whole
  if numeral.fraction.isNone ∧ numeral.exponent.isNone then
    if numeral.negative then
      if 0 < n ∧ n ≤ Nat.pow 2 63 then .ok (.integer (-n)) else numeral.real
    else if n < Nat.pow 2 64 then .ok (.integer n)
    else numeral.real
  else numeral.real

end Numeral

end RecordDefinitions.Json
