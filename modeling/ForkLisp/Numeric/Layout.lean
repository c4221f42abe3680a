/-
The text of a floating-point number.

A layout says which numbers are written positionally and whether a whole number keeps a point and
a zero. Two layouts are used: `plain` never uses an exponent, and `exact` uses one for very large
and very small numbers and always shows that the number is no integer.
-/
import ForkLisp.Numeric.Shortest

namespace ForkLisp.Numeric

/-- How the digits of a number are laid out. -/
structure Layout where
  /-- The places of the decimal point, counted from the front of the digits, for which a number is
  written positionally; without a bound every number is. -/
  positional : Option (Int × Int)
  /-- Whether a whole number written positionally ends in a point and a zero. -/
  keepsPoint : Bool

namespace Layout

/-- Positional, and a whole number has no point. -/
def plain : Layout := ⟨none, false⟩

/-- Positional from `0.0001` to below `10 ^ 16`, and a whole number ends in `.0`. -/
def exact : Layout := ⟨some (-3, 16), true⟩

/-- Whether a number whose decimal point stands at `point` is written positionally. -/
def isPositional (l : Layout) (point : Int) : Bool :=
  match l.positional with
  | none => true
  | some (low, high) => low ≤ point && point ≤ high

/-- The digits with the point after the first `point` of them, filled up with zeros. -/
def positionalText (l : Layout) (digits : List Char) (point : Int) : List Char :=
  if point ≤ 0 then ['0', '.'] ++ List.replicate (-point).toNat '0' ++ digits
  else if digits.length ≤ point.toNat then
    digits ++ List.replicate (point.toNat - digits.length) '0'
      ++ (if l.keepsPoint then ['.', '0'] else [])
  else digits.take point.toNat ++ '.' :: digits.drop point.toNat

/-- The digits with the point after the first, and the power of ten. -/
def scientificText (digits : List Char) (point : Int) : List Char :=
  let tail := if digits.length ≤ 1 then [] else '.' :: digits.drop 1
  digits.take 1 ++ tail ++ 'e' :: intDigits (point - 1)

/-- Drops the zeros at the end. -/
def trimZeros (digits : List Char) : List Char :=
  (digits.reverse.dropWhile (· == '0')).reverse

/-- The text of a decimal other than zero, its sign left out. -/
def decimalText (l : Layout) (d : Decimal) : List Char :=
  let digits := natDigits d.digits
  let point := d.exponent + digits.length
  if l.isPositional point then l.positionalText (trimZeros digits) point
  else scientificText (trimZeros digits) point

/-- The text of a magnitude. -/
def magnitudeText (l : Layout) (x : Binary64) : List Char :=
  if x.isInfinite then ['i', 'n', 'f']
  else if x.code = 0 then '0' :: (if l.keepsPoint then ['.', '0'] else [])
  else l.decimalText x.shortest

end Layout

/-- The text of a number in a layout: its sign is kept, also that of zero. -/
def Binary64.text (l : Layout) (x : Binary64) : String :=
  if x.isNaN then "NaN"
  else String.ofList ((if x.negative then ['-'] else []) ++ l.magnitudeText x)

end ForkLisp.Numeric
