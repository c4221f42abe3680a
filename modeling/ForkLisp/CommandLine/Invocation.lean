/-
Invocations.

An invocation is what the arguments of the program ask for: a file to evaluate, code to evaluate
after it, or a conversation, and settings that go before those of the environment.
-/
import ForkLisp.Settings.Environment

namespace ForkLisp.CommandLine

/-- A flag that takes a value. -/
inductive Parameter where
  | workers
  | inlineDepth
  | taskPoolSize
  | scheduler
  | code
  deriving DecidableEq, Repr

/-- A flag that takes none. -/
inductive Switch where
  | showIr
  | noOptimize
  | noSpawn
  deriving DecidableEq, Repr

/-- What a flag stands for. -/
inductive Flag where
  | parameter (p : Parameter)
  | switch (s : Switch)
  | help
  | version
  deriving DecidableEq, Repr

namespace Flag

/-- The flag with a long name. -/
def ofLong? : String → Option Flag
  | "workers" => some (parameter .workers)
  | "inline-depth" => some (parameter .inlineDepth)
  | "task-pool-size" => some (parameter .taskPoolSize)
  | "scheduler" => some (parameter .scheduler)
  | "eval" => some (parameter .code)
  | "show-ir" => some (switch .showIr)
  | "no-optimize" => some (switch .noOptimize)
  | "no-spawn" => some (switch .noSpawn)
  | "help" => some help
  | "version" => some version
  | _ => none

/-- The flag with a short name. -/
def ofShort? : Char → Option Flag
  | 'w' => some (parameter .workers)
  | 'i' => some (parameter .inlineDepth)
  | 'e' => some (parameter .code)
  | 'h' => some help
  | 'V' => some version
  | _ => none

end Flag

/-- Why arguments do not lead to a run. -/
inductive Refusal where
  /-- Help is asked for. -/
  | help
  /-- The version is asked for. -/
  | version
  | unknownArgument
  | unknownCommand
  | missingValue
  /-- The value is none of those that are allowed. -/
  | unknownValue
  /-- The value is not a number of the right size. -/
  | notNumber
  /-- A flag is given twice. -/
  | repeated
  /-- A value is given to a flag that takes none. -/
  | surplusValue
  deriving DecidableEq, Repr

/-- What a run is asked for. -/
structure Invocation where
  workers : Option Nat := none
  inlineDepth : Option Nat := none
  taskPoolSize : Option Nat := none
  scheduler : Option QueueKind := none
  switches : List Switch := []
  file : Option String := none
  code : Option String := none
  /-- Whether a conversation is asked for by name. -/
  shell : Bool := false
  deriving DecidableEq, Repr

namespace Invocation

/-- Puts a value in a place that is still empty. -/
def fill {α : Type} (place : Option α) (value : Except Refusal α) : Except Refusal (Option α) :=
  if place.isSome then .error .repeated else value.map some

/-- The number that an argument gives. -/
def number (value : String) : Except Refusal Nat :=
  match Settings.readSize? value with
  | some n => .ok n
  | none => .error .notNumber

/-- The kind of queue that an argument gives by its name. -/
def queue (value : String) : Except Refusal QueueKind :=
  if value = QueueKind.workStealing.text then .ok .workStealing
  else if value = QueueKind.sharedQueue.text then .ok .sharedQueue
  else .error .unknownValue

/-- Gives a parameter its value. -/
def assign (i : Invocation) (value : String) : Parameter → Except Refusal Invocation
  | .workers => (fill i.workers (number value)).map fun n => { i with workers := n }
  | .inlineDepth => (fill i.inlineDepth (number value)).map fun n => { i with inlineDepth := n }
  | .taskPoolSize => (fill i.taskPoolSize (number value)).map fun n => { i with taskPoolSize := n }
  | .scheduler => (fill i.scheduler (queue value)).map fun k => { i with scheduler := k }
  | .code => (fill i.code (.ok value)).map fun c => { i with code := c }

/-- Turns a switch on. -/
def turnOn (i : Invocation) (s : Switch) : Except Refusal Invocation :=
  if s ∈ i.switches then .error .repeated else .ok { i with switches := s :: i.switches }

/-- Names the file to evaluate. -/
def withFile (i : Invocation) (path : String) : Except Refusal Invocation :=
  if path.isEmpty then .error .unknownValue else .ok { i with file := some path }

/-- The settings of a run, where `base` are those of the environment. -/
def settings (i : Invocation) (base : Settings) : Settings :=
  { base with
    workers := i.workers.getD base.workers
    inlineDepth := i.inlineDepth.getD base.inlineDepth
    taskPoolSize := i.taskPoolSize.or base.taskPoolSize
    queue := i.scheduler.getD base.queue
    showIr := base.showIr || decide (Switch.showIr ∈ i.switches)
    optimize := base.optimize && decide (Switch.noOptimize ∉ i.switches)
    spawn := base.spawn && decide (Switch.noSpawn ∉ i.switches) }

/-- Whether the run is a conversation. -/
def isConversation (i : Invocation) : Bool :=
  i.shell || (i.file.isNone && i.code.isNone)

end Invocation

end ForkLisp.CommandLine
