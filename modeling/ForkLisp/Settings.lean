/-
Settings of a session.

`Settings` fixes how forms are compiled and run. Two of its values are derived: there is at least
one worker, and unless a pool size is given there are three pooled tasks for every two workers.
-/
import ForkLisp.Numeric.Integer
import ForkLisp.Text.Lowercase

namespace ForkLisp

/-- How runnable tasks are handed to workers. -/
inductive QueueKind where
  /-- Each worker has a queue of its own and takes from the others when it is empty. -/
  | workStealing
  /-- One queue for all workers. -/
  | sharedQueue
  deriving DecidableEq, Repr

namespace QueueKind

/-- The name of a kind. -/
def text : QueueKind → String
  | workStealing => "work-stealing"
  | sharedQueue => "shared-queue"

/-- The name of a kind as warnings show it. -/
def label : QueueKind → String
  | workStealing => "WorkStealing"
  | sharedQueue => "SharedQueue"

/-- The kind that a text names, in any letter case. -/
def ofText? (s : String) : Option QueueKind :=
  let name := Text.lowercase s
  if name ∈ ["work-stealing", "work_stealing", "stealing"] then some workStealing
  else if name ∈ ["shared-queue", "shared_queue", "shared"] then some sharedQueue
  else none

/-- What is wrong with a text that names no kind. -/
def unknownMessage (s : String) : String :=
  s!"unknown scheduler `{s}`"

end QueueKind

/-- How forms are compiled and run. -/
structure Settings where
  /-- How many rounds of inlining the optimizer makes. -/
  inlineDepth : Nat := 2
  workers : Nat := 5
  /-- Whether generated and optimized code is logged. -/
  showIr : Bool := false
  optimize : Bool := true
  /-- Whether calls in operand position become tasks. -/
  spawn : Bool := true
  /-- How many tasks are pooled, if it does not follow from the number of workers. -/
  taskPoolSize : Option Nat := none
  /-- How many slots the stack of a task has. -/
  taskStackSize : Nat := 16384
  /-- The size of code in words at which inlining stops. -/
  codeSizeBudget : Nat := 400
  queue : QueueKind := .workStealing
  deriving DecidableEq, Repr

namespace Settings

/-- The number of workers, which is at least one. -/
def workerCount (s : Settings) : Nat := max s.workers 1

/-- The number of pooled tasks. The product wraps around at 64 bits. -/
def poolSize (s : Settings) : Nat :=
  s.taskPoolSize.getD (s.workerCount * 3 % UInt64.size / 2)

end Settings

end ForkLisp
