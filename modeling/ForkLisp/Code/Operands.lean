/-
Operands of instructions.

`uses` and `defs` are the registers that an instruction reads and the ones that it always writes;
`maxReg?` is the highest register that a frame must have for it. `rebase` moves every register of
an instruction up.
-/
import ForkLisp.Code.Inst

namespace ForkLisp.Code.Inst

/-- The register that lies `n` below another one. -/
def below (r : Reg) (n : Nat) : List Reg :=
  if n ≤ r then [r - n] else []

/-- The registers that an instruction reads, where `arity` is how many arguments a
function takes. -/
def uses (arity : FuncId → Nat) : Inst → List Reg
  | intConst .. | boolConst .. | floatConst .. | jump .. | load .. | retConst .. | stop => []
  | move _ src => [src]
  | arith _ dst src => [dst, src]
  | arithConst _ dst _ | negate dst => [dst]
  | branch _ _ lhs rhs => [lhs, rhs]
  | branchConst _ _ lhs _ => [lhs]
  | store src _ | ret src | print src | printBool src => [src]
  | call callee shift | spawn callee shift => List.range' shift (arity callee)
  | join reg => [reg, reg + 1]

/-- The registers that an instruction always overwrites. -/
def defs : Inst → List Reg
  | intConst dst _ | boolConst dst _ | floatConst dst _ | move dst _ | arith _ dst _
  | arithConst _ dst _ | negate dst | load dst _ => [dst]
  | call _ shift => below shift 2
  | spawn _ shift => below shift 3
  | join reg => [reg]
  | branch .. | branchConst .. | jump .. | store .. | ret .. | retConst .. | print ..
  | printBool .. | stop => []

/-- The register that an instruction writes, if it has no other effect. -/
def pureDef? : Inst → Option Reg
  | intConst dst _ | boolConst dst _ | floatConst dst _ | move dst _ | negate dst
  | load dst _ => some dst
  | arith op dst _ | arithConst op dst _ => if op.canFault then none else some dst
  | _ => none

/-- The highest register that an instruction touches in its frame, linkage included. -/
def maxReg? : Inst → Option Reg
  | call _ shift | spawn _ shift => some (shift - 1)
  | join reg => some (reg + 1)
  | i => (i.defs ++ i.uses fun _ => 0).max?

/-- The instruction with every register moved up by `base`. -/
def rebase (base : Reg) : Inst → Inst
  | intConst dst value => intConst (dst + base) value
  | boolConst dst value => boolConst (dst + base) value
  | floatConst dst value => floatConst (dst + base) value
  | move dst src => move (dst + base) (src + base)
  | arith op dst src => arith op (dst + base) (src + base)
  | arithConst op dst value => arithConst op (dst + base) value
  | negate dst => negate (dst + base)
  | branch cmp offset lhs rhs => branch cmp offset (lhs + base) (rhs + base)
  | branchConst cmp offset lhs value => branchConst cmp offset (lhs + base) value
  | jump offset => jump offset
  | load dst source => load (dst + base) source
  | store src target => store (src + base) target
  | call callee shift => call callee (shift + base)
  | spawn callee shift => spawn callee (shift + base)
  | join reg => join (reg + base)
  | ret src => ret (src + base)
  | retConst value => retConst value
  | print src => print (src + base)
  | printBool src => printBool (src + base)
  | stop => stop

end ForkLisp.Code.Inst
