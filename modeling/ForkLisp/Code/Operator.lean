/-
Operators on 64-bit integers.

Arithmetic wraps around; division truncates toward zero and has no result for a zero divisor.
Comparisons come with their negation (`holds_negate`) and their reversal (`holds_reverse`).
-/

namespace ForkLisp.Code

/-- The arithmetic operators. -/
inductive ArithOp where
  | add
  | sub
  | mul
  | div
  | mod
  deriving DecidableEq, Repr

namespace ArithOp

/-- The result of an operator, which division by zero has none of. -/
def result? : ArithOp → Int64 → Int64 → Option Int64
  | add, a, b => some (a + b)
  | sub, a, b => some (a - b)
  | mul, a, b => some (a * b)
  | div, a, b => if b = 0 then none else some (a / b)
  | mod, a, b => if b = 0 then none else some (a % b)

/-- Whether an operator has operands without a result. -/
def canFault : ArithOp → Bool
  | div | mod => true
  | add | sub | mul => false

/-- An operator as instructions name it. -/
def mnemonic : ArithOp → String
  | add => "ADD"
  | sub => "SUB"
  | mul => "MUL"
  | div => "DIV"
  | mod => "MOD"

theorem result?_isSome {op : ArithOp} (h : op.canFault = false) (a b : Int64) :
    (op.result? a b).isSome := by
  cases op <;> simp_all [canFault, result?]

end ArithOp

/-- The comparisons. -/
inductive Comparison where
  | lt
  | le
  | gt
  | ge
  | eq
  | ne
  deriving DecidableEq, Repr

namespace Comparison

/-- Whether a comparison holds of two numbers. -/
def holds : Comparison → Int64 → Int64 → Bool
  | lt, a, b => a < b
  | le, a, b => a ≤ b
  | gt, a, b => b < a
  | ge, a, b => b ≤ a
  | eq, a, b => a == b
  | ne, a, b => a != b

/-- The comparison that holds exactly when this one does not. -/
def negate : Comparison → Comparison
  | lt => ge
  | le => gt
  | gt => le
  | ge => lt
  | eq => ne
  | ne => eq

/-- The comparison that holds of swapped operands. -/
def reverse : Comparison → Comparison
  | lt => gt
  | le => ge
  | gt => lt
  | ge => le
  | eq => eq
  | ne => ne

/-- A comparison as instructions name it. -/
def mnemonic : Comparison → String
  | lt => "LT"
  | le => "LE"
  | gt => "GT"
  | ge => "GE"
  | eq => "EQ"
  | ne => "NE"

@[simp] theorem holds_negate (c : Comparison) (a b : Int64) :
    c.negate.holds a b = !c.holds a b := by
  cases c <;> simp [negate, holds, Int64.lt_iff_toInt_lt, Int64.le_iff_toInt_le, bne] <;>
    grind

theorem holds_reverse (c : Comparison) (a b : Int64) :
    c.reverse.holds b a = c.holds a b := by
  cases c <;> simp [reverse, holds, bne, Bool.beq_comm (a := a)]

end Comparison

end ForkLisp.Code
