/-
Slots and faults.

A slot of a stack holds a value, the handle of a task, or the linkage of a call. Reading a slot as a
number can fail, with a fault that names what was found (`Slot.int64`, `Slot.integral`).
-/
import ForkLisp.Code.Inst

namespace ForkLisp.Machine

open ForkLisp.Code ForkLisp.Numeric

/-- The code that a task runs. -/
inductive CodeRef where
  /-- The code of a form. -/
  | entry
  | func (id : FuncId)
  deriving DecidableEq, Repr

/-- A pooled task: its index in the pool. -/
abbrev TaskId := Nat

/-- What a slot holds. -/
inductive Tag where
  | empty
  | int
  | bool
  | float
  | future
  | frame
  | returnAddress
  deriving DecidableEq, Repr

/-- The name of a tag. -/
def Tag.text : Tag → String
  | empty => "none"
  | int => "int"
  | bool => "boolean"
  | float => "float"
  | future => "future"
  | frame => "frame"
  | returnAddress => "return address"

/-- Why a task stops without a value. -/
inductive Fault where
  | zeroDivision
  | typeMismatch (got : Tag)
  | stackOverflow
  /-- The worker that ran the task is gone. -/
  | workerLost
  deriving DecidableEq, Repr

/-- The text of a fault. -/
def Fault.message : Fault → String
  | zeroDivision => "Divided by 0"
  | typeMismatch got => "Type mismatch, expected int, got " ++ got.text
  | stackOverflow => "Stack overflow"
  | workerLost => "Worker disconnected before the program finished"

/-- A slot of the stack of a task. -/
inductive Slot where
  | empty
  | int (value : Int64)
  | bool (value : Bool)
  | float (value : Binary64)
  /-- The handle of a task, or of a call that was made at once for want of a task. -/
  | future (task : Option TaskId)
  /-- The frame of a caller. -/
  | frame (base : Nat)
  /-- Where a caller goes on. -/
  | returnTo (code : CodeRef) (pc : Nat)
  deriving DecidableEq

namespace Slot

/-- What a slot holds. -/
def tag : Slot → Tag
  | empty => .empty
  | int _ => .int
  | bool _ => .bool
  | float _ => .float
  | future _ => .future
  | frame _ => .frame
  | returnTo .. => .returnAddress

/-- A slot as an operand of arithmetic. -/
def int64 : Slot → Except Fault Int64
  | int n => .ok n
  | s => .error (.typeMismatch s.tag)

/-- A slot as an operand of a comparison, for which truth values are one and zero. -/
def integral : Slot → Except Fault Int64
  | int n => .ok n
  | bool b => .ok (if b then 1 else 0)
  | s => .error (.typeMismatch s.tag)

/-- A truth value as it is printed. -/
def boolText (b : Bool) : String :=
  if b then "T" else "Nil"

/-- The line that prints a slot. -/
def printed : Slot → Except Fault String
  | int n => .ok (intText n)
  | bool b => .ok (boolText b)
  | float x => .ok (x.text .exact)
  | s => .error (.typeMismatch s.tag)

end Slot

/-- How a task ends. -/
abbrev Outcome := Except Fault Slot

end ForkLisp.Machine
