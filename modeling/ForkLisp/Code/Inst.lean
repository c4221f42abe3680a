/-
Instructions of the register machine.

An instruction works on the registers of a frame, on globals and on the linkage of calls. Jumps are
relative to the jump itself. `Inst.text` writes an instruction with its operands.
-/
import ForkLisp.Code.Operator
import ForkLisp.Numeric.Layout

namespace ForkLisp.Code

open ForkLisp.Numeric

/-- A register: the index of a slot in the current frame. -/
abbrev Reg := Nat

/-- A function: its index among all functions that have been defined. -/
abbrev FuncId := Nat

/-- A global variable: its index among all globals, and its name. -/
structure Global where
  index : Nat
  name : String
  deriving DecidableEq, Repr

/-- The instructions. -/
inductive Inst where
  | intConst (dst : Reg) (value : Int64)
  | boolConst (dst : Reg) (value : Bool)
  | floatConst (dst : Reg) (value : Binary64)
  | move (dst src : Reg)
  /-- `dst` becomes `dst op src`. -/
  | arith (op : ArithOp) (dst src : Reg)
  /-- `dst` becomes `dst op value`. -/
  | arithConst (op : ArithOp) (dst : Reg) (value : Int64)
  | negate (dst : Reg)
  /-- Jumps by `offset` when the comparison holds of two registers. -/
  | branch (cmp : Comparison) (offset : Int) (lhs rhs : Reg)
  /-- Jumps by `offset` when the comparison holds of a register and a number. -/
  | branchConst (cmp : Comparison) (offset : Int) (lhs : Reg) (value : Int64)
  | jump (offset : Int)
  | load (dst : Reg) (source : Global)
  | store (src : Reg) (target : Global)
  /-- Calls a function whose arguments start at `shift`; the two slots below hold the linkage, and
  the lower one of them the result. -/
  | call (callee : FuncId) (shift : Reg)
  /-- Starts a task for a function whose arguments start at `shift`; its handle goes three slots
  below. -/
  | spawn (callee : FuncId) (shift : Reg)
  /-- Waits for the task whose handle is in a register, and puts its result there. -/
  | join (reg : Reg)
  | ret (src : Reg)
  | retConst (value : Int64)
  | print (src : Reg)
  /-- Prints a number as a truth value. -/
  | printBool (src : Reg)
  /-- Marks the end of the code. -/
  | stop
  deriving DecidableEq

namespace Inst

/-- The name of an instruction. -/
def mnemonic : Inst → String
  | intConst .. => "ICONST"
  | boolConst .. => "BCONST"
  | floatConst .. => "FCONST"
  | move .. => "MOV"
  | arith op .. => "I" ++ op.mnemonic
  | arithConst op .. => "I" ++ op.mnemonic ++ "C"
  | negate .. => "INEG"
  | branch cmp .. => "IJMP" ++ cmp.mnemonic
  | branchConst cmp .. => "IJMP" ++ cmp.mnemonic ++ "C"
  | jump .. => "JMP"
  | load .. => "LOAD_GLOBAL"
  | store .. => "STORE_GLOBAL"
  | call .. => "CALL"
  | spawn .. => "SPAWN"
  | join .. => "JOIN"
  | ret .. => "RET"
  | retConst .. => "RETC"
  | print .. => "IPRINT"
  | printBool .. => "BPRINT"
  | stop => "END"

/-- How many machine words an instruction takes. -/
def width : Inst → Nat
  | stop => 1
  | negate .. | jump .. | join .. | ret .. | retConst .. | print .. | printBool .. => 2
  | branch .. | branchConst .. => 4
  | intConst .. | boolConst .. | floatConst .. | move .. | arith .. | arithConst .. | load ..
  | store .. | call .. | spawn .. => 3

/-- The displacement of a jump. -/
def offset? : Inst → Option Int
  | branch _ offset _ _ | branchConst _ offset _ _ | jump offset => some offset
  | _ => none

/-- The same jump with another displacement; what is no jump is left alone. -/
def withOffset (offset : Int) : Inst → Inst
  | branch cmp _ lhs rhs => branch cmp offset lhs rhs
  | branchConst cmp _ lhs value => branchConst cmp offset lhs value
  | jump _ => jump offset
  | i => i

def isBranch : Inst → Bool
  | branch .. | branchConst .. => true
  | _ => false

def isReturn : Inst → Bool
  | ret .. | retConst .. => true
  | _ => false

/-- The function that an instruction calls or starts a task for. -/
def callee? : Inst → Option FuncId
  | call f _ | spawn f _ => some f
  | _ => none

/-- A displacement, which always has a sign. -/
def offsetText (offset : Int) : String :=
  (if offset < 0 then "-" else "+") ++ natText offset.natAbs

/-- A register as instructions name it. -/
def regText (r : Reg) : String :=
  "r" ++ natText r

/-- The operands of an instruction. -/
def operandTexts : Inst → List String
  | intConst dst value | arithConst _ dst value => [regText dst, intText value]
  | boolConst dst value => [regText dst, if value then "t" else "nil"]
  | floatConst dst value => [regText dst, value.text .exact]
  | move dst src | arith _ dst src => [regText dst, regText src]
  | negate r | join r | ret r | print r | printBool r => [regText r]
  | branch _ offset lhs rhs => [offsetText offset, regText lhs, regText rhs]
  | branchConst _ offset lhs value => [offsetText offset, regText lhs, intText value]
  | jump offset => [offsetText offset]
  | load r g | store r g => [regText r, g.name]
  | call callee shift | spawn callee shift =>
    ["#" ++ natText callee, natText shift]
  | retConst value => [intText value]
  | stop => []

/-- An instruction: its name, and its operands with commas between them. -/
def text (i : Inst) : String :=
  match i.operandTexts with
  | [] => i.mnemonic
  | operands => i.mnemonic ++ " " ++ ", ".intercalate operands

/-- Equality in which a floating-point operand stands for its value: it differs from itself if it
is no number. -/
def sameAs : Inst → Inst → Bool
  | floatConst dst value, floatConst dst' value' => dst == dst' && value.sameValue value'
  | i, j => i == j

end Inst

/-- The place that a jump at `pc` goes to, if it lies at or after the front of the code. -/
def jumpTarget (pc : Nat) (offset : Int) : Option Nat :=
  let target := pc + offset
  if 0 ≤ target then some target.toNat else none

end ForkLisp.Code

namespace ForkLisp

/-- The code of a function or of a form. -/
abbrev Code := Array Code.Inst

end ForkLisp
