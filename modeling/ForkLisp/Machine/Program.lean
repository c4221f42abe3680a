/-
Programs.

Code is lowered once it is final: the size of its frame is worked out. A program is the code of a
form together with the lowered functions that it can call.
-/
import ForkLisp.Code.Operands
import ForkLisp.Machine.Slot

namespace ForkLisp.Machine

open ForkLisp.Code

/-- Code that is ready to run. -/
structure Lowered where
  code : Code
  /-- How many slots a frame has, linkage included. -/
  frameSize : Nat
  arity : Nat
  deriving DecidableEq

/-- How many slots code with `arity` parameters touches. -/
def frameSize (code : Code) (arity : Nat) : Nat :=
  max arity (((code.toList.filterMap Inst.maxReg?).map (· + 1)).max?.getD 0)

/-- Makes code ready to run. -/
def lower (code : Code) (arity : Nat) : Lowered :=
  ⟨code, frameSize code arity, arity⟩

/-- The functions that a form can call; one that was never completed has no code. -/
abbrev FunctionTable := Array (Option Lowered)

/-- The code of a form and the functions it can call. -/
structure Program where
  functions : FunctionTable
  entry : Lowered
  deriving DecidableEq

namespace Program

/-- The code of a function. -/
def func? (p : Program) (id : FuncId) : Option Lowered :=
  (p.functions[id]?).join

/-- The code that a reference names. -/
def code? (p : Program) : CodeRef → Option Lowered
  | .entry => some p.entry
  | .func id => p.func? id

end Program

end ForkLisp.Machine
