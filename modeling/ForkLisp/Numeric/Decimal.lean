/-
Decimal numbers with an exponent.

A decimal is a whole number times a power of ten. `Decimal.ofChars?` reads one in the grammar

  sign? (digits ('.' digits?)? | '.' digits) (('e' | 'E') sign? digits)?

and `Decimal.toBinary64` rounds it to the nearest 64-bit number, however large its exponent is.
`Binary64.ofText?` reads the names of infinity and of no number too.
-/
import ForkLisp.Numeric.Binary64
import ForkLisp.Numeric.Integer

namespace ForkLisp.Numeric

/-- The number `digits · 10 ^ exponent` with a sign. -/
structure Decimal where
  negative : Bool
  digits : Nat
  exponent : Int
  deriving DecidableEq, Repr

namespace Decimal

/-- The exponent part of a decimal, which takes up the rest of the text. -/
def readExponent? : List Char → Option Int
  | [] => some 0
  | c :: cs => if c == 'e' || c == 'E' then readInt? cs else none

/-- Reads a decimal that is the whole of the text. -/
def ofChars? (cs : List Char) : Option Decimal :=
  let (negative, cs) := splitSign cs
  let whole := cs.takeWhile Char.isDigit
  let (fraction, rest) :=
    match cs.dropWhile Char.isDigit with
    | '.' :: cs => (cs.takeWhile Char.isDigit, cs.dropWhile Char.isDigit)
    | cs => ([], cs)
  if whole.isEmpty && fraction.isEmpty then none
  else
    (readExponent? rest).map fun e =>
      ⟨negative, digitsValue (whole ++ fraction), e - fraction.length⟩

/-- How many digits the whole number has; zero has none. -/
def width (d : Decimal) : Nat :=
  if d.digits = 0 then 0 else (natDigits d.digits).length

/-- The nearest 64-bit number. Beyond the range of exponents where a digit of the number matters
the answer is infinity or zero, and no power of ten is computed. -/
def toBinary64 (d : Decimal) : Binary64 :=
  let point := d.exponent + d.width
  if d.digits = 0 || point < -400 then ⟨d.negative, 0⟩
  else if 400 < point then ⟨d.negative, Binary64.infinityCode⟩
  else if 0 ≤ d.exponent then .ofRatio d.negative (d.digits * Nat.pow 10 d.exponent.toNat) 1
  else .ofRatio d.negative d.digits (Nat.pow 10 (-d.exponent).toNat)

end Decimal

/-- Reads a decimal number, or the name of infinity or of no number, which any letter case
spells. -/
def Binary64.ofText? (s : String) : Option Binary64 :=
  let (negative, name) := splitSign s.toList
  let name := String.ofList (name.map Char.toLower)
  if name == "inf" || name == "infinity" then some ⟨negative, infinityCode⟩
  else if name == "nan" then some ⟨negative, nan.code⟩
  else (Decimal.ofChars? s.toList).map Decimal.toBinary64

end ForkLisp.Numeric
