import RecordDefinitions.Decimal.Digits
import RecordDefinitions.Decimal.Shortest

/-!
# Written decimals

A layout says which magnitudes are written with a plain decimal point and how
an exponent is marked. Every written number has a point or an exponent, so it
is never mistaken for a whole number.
-/

namespace RecordDefinitions.Decimal

/-- How a format writes a fractional number. -/
structure Layout where
  /-- The least power of ten of the first digit that is written positionally. -/
  least : Int
  /-- The first power of ten that is written with an exponent again. -/
  beyond : Int
  /-- What stands between the mark `e` and a positive exponent. -/
  plus : String

/-- Zeros as text. -/
def zeros (n : Nat) : List Char := List.replicate n '0'

/-- Digits with a point after the first `point` places; places without a digit
are filled with zeros, and a point always has a digit on both sides. -/
def positional (ds : List Char) (point : Int) : List Char :=
  if point ≤ 0 then '0' :: '.' :: zeros (-point).toNat ++ ds
  else if ds.length ≤ point.toNat then ds ++ zeros (point.toNat - ds.length) ++ ['.', '0']
  else ds.take point.toNat ++ '.' :: ds.drop point.toNat

/-- The first digit, the other digits after a point, and the exponent. -/
def scientific (layout : Layout) (ds : List Char) (exponent : Int) : List Char :=
  let mantissa :=
    match ds with
    | [] => []
    | [d] => [d]
    | d :: rest => d :: '.' :: rest
  let mark := if exponent < 0 then [] else layout.plus.toList
  mantissa ++ 'e' :: mark ++ (signedText exponent).toList

/-- A decimal written in a layout. -/
def Scaled.write (layout : Layout) (s : Scaled) : List Char :=
  let ds := digits s.coefficient
  let exponent := s.exponent + ds.length - 1
  if layout.least ≤ exponent ∧ exponent < layout.beyond then positional ds (exponent + 1)
  else scientific layout ds exponent

/-- The text of a finite 64-bit binary number: its sign and its shortest decimal. -/
def Layout.write (layout : Layout) (bits : UInt64) : String :=
  let sign := if isNegative bits then ['-'] else []
  let magnitude :=
    if fractionOf bits = 0 ∧ exponentOf bits = 0 then ['0', '.', '0']
    else (shortest bits).write layout
  String.ofList (sign ++ magnitude)

end RecordDefinitions.Decimal
