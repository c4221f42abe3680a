/-
Decimal integers.

`digitsValue` is the number that a list of digits writes. `readInt64?` reads a signed decimal that
fits in 64 bits and refuses every other text; `intText` writes one.
-/

namespace ForkLisp.Numeric

/-- The value of a decimal digit. -/
def digitValue (c : Char) : Nat :=
  c.toNat - '0'.toNat

/-- The number that a list of digits writes, the first digit the most significant. -/
def digitsValue (cs : List Char) : Nat :=
  cs.foldl (fun n c => 10 * n + digitValue c) 0

@[simp] theorem digitsValue_nil : digitsValue [] = 0 := rfl

/-- The sign in front of a number, and what follows it. -/
def splitSign : List Char → Bool × List Char
  | '-' :: cs => (true, cs)
  | '+' :: cs => (false, cs)
  | cs => (false, cs)

/-- The integer that a sign and a magnitude name. -/
def signed (negative : Bool) (magnitude : Nat) : Int :=
  if negative then -magnitude else magnitude

/-- The 64-bit integer equal to `n`, if there is one. -/
def int64? (n : Int) : Option Int64 :=
  if Int64.minValue.toInt ≤ n ∧ n ≤ Int64.maxValue.toInt then some (Int64.ofInt n) else none

/-- Reads an optional sign and one or more decimal digits. -/
def readInt? (cs : List Char) : Option Int :=
  let (negative, digits) := splitSign cs
  if digits.isEmpty || !digits.all Char.isDigit then none
  else some (signed negative (digitsValue digits))

/-- Reads a signed decimal that fits in 64 bits. -/
def readInt64? (cs : List Char) : Option Int64 :=
  (readInt? cs).bind int64?

/-- The decimal digits of a number, the most significant first. -/
def natDigits (n : Nat) : List Char :=
  Nat.toDigits 10 n

/-- A natural number in decimal. -/
def natText (n : Nat) : String :=
  String.ofList (natDigits n)

/-- The digits of a number in decimal, with a minus sign if it is negative. -/
def intDigits (n : Int) : List Char :=
  if n < 0 then '-' :: natDigits n.natAbs else natDigits n.natAbs

/-- A 64-bit integer in decimal. -/
def intText (n : Int64) : String :=
  String.ofList (intDigits n.toInt)

end ForkLisp.Numeric
