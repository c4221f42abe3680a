/-
Tasks.

A task is an execution that can be put aside and taken up again: its own stack, where it stands in
its program, and the tasks that it started and has not joined. Starting a task again keeps what its
stack holds beyond the arguments.
-/
import ForkLisp.Machine.Program

namespace ForkLisp.Machine

open ForkLisp.Code

/-- An execution with a stack of its own. -/
structure Task where
  /-- The task's index in the pool; the task of a form is not pooled. -/
  id : Option TaskId
  stack : Array Slot
  pc : Nat
  base : Nat
  code : CodeRef
  program : Program
  children : List TaskId
  deriving DecidableEq

/-- A program of a task that runs nothing. -/
def Program.idle : Program := ⟨#[], ⟨#[], 0, 0⟩⟩

namespace Task

/-- A task that runs nothing. -/
def idle (id : Option TaskId) (stackSize : Nat) : Task :=
  ⟨id, Array.replicate stackSize .empty, 0, 0, .entry, .idle, []⟩

/-- The task of a form. -/
def root (stackSize : Nat) (program : Program) : Task :=
  { idle none stackSize with program }

/-- Writes values into a stack from `i` on. -/
def writeAll (stack : Array Slot) (i : Nat) : List Slot → Array Slot
  | [] => stack
  | v :: vs => writeAll (stack.setIfInBounds i v) (i + 1) vs

/-- Starts a function in a task. -/
def start (t : Task) (program : Program) (f : FuncId) (args : List Slot) : Task :=
  { t with
    stack := writeAll t.stack 0 args
    pc := 0
    base := 0
    code := .func f
    program }

/-- Forgets what a task ran, its stack excepted. -/
def reset (t : Task) : Task :=
  { t with pc := 0, base := 0, code := .entry, program := .idle, children := [] }

/-- The slot of a register. -/
def read? (t : Task) (r : Reg) : Option Slot :=
  t.stack[t.base + r]?

/-- The code that a task is in. -/
def lowered? (t : Task) : Option Lowered :=
  t.program.code? t.code

/-- The instruction at which a task stands. -/
def inst? (t : Task) : Option Inst :=
  t.lowered?.bind fun l => l.code[t.pc]?

/-- The pooled task whose outcome a task is about to use, and the register that has its handle. -/
def awaits? (t : Task) : Option (Reg × TaskId) :=
  match t.inst? with
  | some (.join r) =>
    match t.read? r with
    | some (.future (some id)) => some (r, id)
    | _ => none
  | _ => none

/-- The slot for the handle of a task that is about to be started. -/
def handleSlot? (t : Task) : Option Nat :=
  match t.inst? with
  | some (.spawn _ shift) => some (t.base + shift - 3)
  | _ => none

/-- Whether the frame of a task fits on its stack. -/
def fits (t : Task) : Bool :=
  match t.lowered? with
  | some l => t.base + l.frameSize ≤ t.stack.size
  | none => true

end Task

end ForkLisp.Machine
