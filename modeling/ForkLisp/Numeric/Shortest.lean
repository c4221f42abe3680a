/-
The shortest decimal that reads back.

Of the decimals with `n` significant digits only the two next to a number can round to it.
`shortest` takes the least `n` for which one of them does, of two the nearer one, and of two equally
near the larger. What it returns reads back to the number by construction (`toBinary64_of_hit`).
-/
import ForkLisp.Numeric.Decimal

namespace ForkLisp.Numeric

namespace Binary64

/-- The magnitude of a finite number as a ratio of naturals. -/
def ratio (x : Binary64) : Nat × Nat :=
  if 0 ≤ x.exponent then (x.mantissa * Nat.pow 2 x.exponent.toNat, 1)
  else (x.mantissa, Nat.pow 2 (-x.exponent).toNat)

/-- The least `p` with `num / den < 10 ^ p`, sought upwards from `p` in at most `fuel` steps. -/
def pointFrom (num den : Nat) : Nat → Int → Int
  | 0, p => p
  | fuel + 1, p =>
    let below :=
      if 0 ≤ p then num < den * Nat.pow 10 p.toNat else num * Nat.pow 10 (-p).toNat < den
    if below then p else pointFrom num den fuel (p + 1)

/-- Where the decimal point of `num / den` stands, counted from the front of its digits. -/
def decimalPoint (num den : Nat) : Int :=
  let e : Int := num.log2 - den.log2
  pointFrom num den 5 (e * 30103 / 100000 - 2)

/-- The decimals next to the magnitude of `x` among the multiples of `10 ^ k`, the nearer one first
and the larger one first when they are equally near. -/
def neighbours (x : Binary64) (k : Int) : List Decimal :=
  let (num, den) := x.ratio
  let (num, den) :=
    if 0 ≤ k then (num, den * Nat.pow 10 k.toNat) else (num * Nat.pow 10 (-k).toNat, den)
  let low := num / den
  let lower : Decimal := ⟨x.negative, low, k⟩
  let upper : Decimal := ⟨x.negative, low + 1, k⟩
  if 2 * (num % den) < den then [lower, upper] else [upper, lower]

/-- The nearest decimal with at most `n` significant digits that reads back to `x`. -/
def hit? (x : Binary64) (n : Nat) : Option Decimal :=
  let (num, den) := x.ratio
  (x.neighbours (decimalPoint num den - n)).find? fun d => d.toBinary64 == x

/-- The decimal with every digit of `x`. -/
def exact (x : Binary64) : Decimal :=
  if 0 ≤ x.exponent then ⟨x.negative, x.mantissa * Nat.pow 2 x.exponent.toNat, 0⟩
  else ⟨x.negative, x.mantissa * Nat.pow 5 (-x.exponent).toNat, x.exponent⟩

/-- The shortest decimal that reads back to the finite number `x`, the nearest of those. -/
def shortest (x : Binary64) : Decimal :=
  if x.code = 0 then ⟨x.negative, 0, 0⟩
  else ((List.range 17).findSome? fun n => x.hit? (n + 1)).getD x.exact

theorem toBinary64_of_hit {x : Binary64} {n : Nat} {d : Decimal} (h : x.hit? n = some d) :
    d.toBinary64 = x := by
  have := List.find?_some h
  simpa using this

end Binary64

end ForkLisp.Numeric
