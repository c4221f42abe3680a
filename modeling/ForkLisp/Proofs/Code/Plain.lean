/-
Plain code.

Plain code calls nothing, starts no tasks and waits for none. What an instruction asks of a state is
that its registers and its global are there (`Inst.Finds`).
-/
import ForkLisp.Code.Operands

namespace ForkLisp.Code

namespace Inst

/-- An instruction neither calls a function nor starts a task or waits for one. -/
def isPlain : Inst → Bool
  | call .. | spawn .. | join .. => false
  | _ => true

/-- The global that an instruction reads or assigns to. -/
def global? : Inst → Option Global
  | load _ g | store _ g => some g
  | _ => none

/-- The registers that an instruction names. -/
def registers (i : Inst) : List Reg := i.defs ++ i.uses fun _ => 0

/-- A plain instruction finds its registers among the first `room` slots, and its global among the
first `globals` ones. -/
structure Finds (room globals : Nat) (i : Inst) : Prop where
  plain : i.isPlain = true
  register : ∀ r ∈ i.registers, r < room
  global : ∀ g, i.global? = some g → g.index < globals

theorem isPlain_withOffset (offset : Int) (i : Inst) :
    (i.withOffset offset).isPlain = i.isPlain := by
  cases i <;> rfl

theorem global?_withOffset (offset : Int) (i : Inst) :
    (i.withOffset offset).global? = i.global? := by
  cases i <;> rfl

theorem registers_withOffset (offset : Int) (i : Inst) :
    (i.withOffset offset).registers = i.registers := by
  cases i <;> rfl

end Inst

/-- All instructions of some code are plain. -/
def Plain (code : ForkLisp.Code) : Prop := ∀ i ∈ code.toList, i.isPlain = true

/-- Every global that some code reads or assigns to is one of the first ones. -/
def GlobalsWithin (globals : Nat) (code : ForkLisp.Code) : Prop :=
  ∀ i ∈ code.toList, ∀ g ∈ i.global?, g.index < globals

instance (code : ForkLisp.Code) : Decidable (Plain code) :=
  inferInstanceAs (Decidable (∀ i ∈ code.toList, i.isPlain = true))

instance (globals : Nat) (code : ForkLisp.Code) : Decidable (GlobalsWithin globals code) :=
  inferInstanceAs (Decidable (∀ i ∈ code.toList, ∀ g ∈ i.global?, g.index < globals))

end ForkLisp.Code
