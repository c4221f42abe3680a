/-
Floating-point numbers with 64 bits.

A number is a sign and a code: the 63 bits after the sign, read as a natural number. Codes below
`infinityCode` are the finite magnitudes in increasing order, `mantissa · 2 ^ exponent`; the code
`infinityCode` is infinity and those above it are no numbers. `ofRatio` is the number nearest to a
ratio of naturals, an exact half going to the even code, and overflow going to infinity.
-/

namespace ForkLisp.Numeric

/-- A binary floating-point number: its sign and its other 63 bits. -/
structure Binary64 where
  negative : Bool
  code : Nat
  deriving DecidableEq, Repr

namespace Binary64

/-- The weight of the leading bit of a mantissa, which is not stored: how many codes share one
exponent. -/
def leadingBit : Nat := Nat.pow 2 52

/-- The code of infinity. -/
def infinityCode : Nat := 0x7FF * leadingBit

/-- The least exponent of a unit in the last place. -/
def minExponent : Int := -1074

def zero : Binary64 := ⟨false, 0⟩
def infinity : Binary64 := ⟨false, infinityCode⟩
def nan : Binary64 := ⟨false, infinityCode + leadingBit / 2⟩

def isNaN (x : Binary64) : Bool := infinityCode < x.code
def isInfinite (x : Binary64) : Bool := x.code == infinityCode
def isFinite (x : Binary64) : Bool := x.code < infinityCode

/-- The number as an integer count of units in the last place, its sign left out. -/
def mantissa (x : Binary64) : Nat :=
  if x.code < leadingBit then x.code else leadingBit + x.code % leadingBit

/-- The power of two that a unit in the last place stands for. -/
def exponent (x : Binary64) : Int :=
  if x.code < leadingBit then minExponent else minExponent + (x.code / leadingBit : Nat) - 1

/-- Equality of values: the two zeros are equal, and what is no number equals nothing. -/
def sameValue (x y : Binary64) : Bool :=
  !x.isNaN && !y.isNaN && (x == y || (x.code == 0 && y.code == 0))

/-- The integer nearest to `num / den`, an exact half going to the even one. -/
def roundHalfEven (num den : Nat) : Nat :=
  let q := num / den
  let r := num % den
  if 2 * r < den || (2 * r == den && q % 2 == 0) then q else q + 1

/-- The exponent of the unit in the last place of the numbers around `num / den`. -/
def unitExponent (num den : Nat) : Int :=
  let e : Int := num.log2 - den.log2
  let below :=
    if 0 ≤ e then num < den * Nat.pow 2 e.toNat else num * Nat.pow 2 (-e).toNat < den
  max ((if below then e - 1 else e) - 52) minExponent

/-- The code of the number nearest to `num / den`. -/
def nearestCode (num den : Nat) : Nat :=
  if num = 0 then 0
  else
    let q := unitExponent num den
    let m :=
      if 0 ≤ q then roundHalfEven num (den * Nat.pow 2 q.toNat)
      else roundHalfEven (num * Nat.pow 2 (-q).toNat) den
    min ((q - minExponent).toNat * leadingBit + m) infinityCode

/-- The number nearest to `num / den`, with the given sign. -/
def ofRatio (negative : Bool) (num den : Nat) : Binary64 :=
  ⟨negative, nearestCode num den⟩

end Binary64

end ForkLisp.Numeric
