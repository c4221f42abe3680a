/-
Settings from the environment.

Some settings can be given by variables. A variable that is not set changes nothing, and neither
does one whose value cannot be read, which leaves a warning.
-/
import ForkLisp.Settings

namespace ForkLisp.Settings

open ForkLisp.Numeric

/-- The natural number that a text writes, if it fits in 64 bits; a plus sign may stand in front. -/
def readSize? (s : String) : Option Nat :=
  let cs := s.toList
  if cs.head? = some '-' then none
  else
    (readInt? cs).bind fun n => if n.toNat < UInt64.size then some n.toNat else none

/-- The truth value that a text names. -/
def readFlag? (s : String) : Option Bool :=
  if s = "true" then some true else if s = "false" then some false else none

/-- Settings together with the warnings so far. -/
structure Reading where
  settings : Settings
  warnings : List String

namespace Reading

/-- Adds a warning behind the others. -/
def warn (r : Reading) (message : String) : Reading :=
  { r with warnings := r.warnings ++ [message] }

/-- Takes one variable into account: `current` is how warnings show the value it leaves alone. -/
def apply {α : Type} (env : String → Option String) (name : String) (read? : String → Option α)
    (current : Settings → String) (put : α → Settings → Settings) (r : Reading) : Reading :=
  match env name with
  | none => r
  | some value =>
    match read? value with
    | some a => { r with settings := put a r.settings }
    | none =>
      r.warn (s!"Invalid {name} value '{value}', using default " ++ current r.settings)

/-- Takes the pool size into account, whose default is no number. -/
def applyPoolSize (env : String → Option String) (r : Reading) : Reading :=
  match env "PLISP_TASK_POOL_SIZE" with
  | none => r
  | some value =>
    match readSize? value with
    | some n => { r with settings := { r.settings with taskPoolSize := some n } }
    | none => r.warn s!"Invalid PLISP_TASK_POOL_SIZE value '{value}', using default"

end Reading

/-- The variables that are looked at. -/
def variableNames : List String :=
  ["PLISP_INLINE_DEPTH", "PLISP_WORKERS", "PLISP_SHOW_IR", "PLISP_TASK_STACK_SIZE",
    "PLISP_SCHEDULER", "PLISP_TASK_POOL_SIZE"]

/-- The default settings, changed by the variables that are set. -/
def ofEnvironment (env : String → Option String) : Reading :=
  let start : Reading := ⟨{}, []⟩
  start
    |>.apply env "PLISP_INLINE_DEPTH" readSize? (natText ·.inlineDepth)
        (fun n s => { s with inlineDepth := n })
    |>.apply env "PLISP_WORKERS" readSize? (natText ·.workers) (fun n s => { s with workers := n })
    |>.apply env "PLISP_SHOW_IR" readFlag? (fun s => if s.showIr then "true" else "false")
        (fun b s => { s with showIr := b })
    |>.apply env "PLISP_TASK_STACK_SIZE" readSize? (natText ·.taskStackSize)
        (fun n s => { s with taskStackSize := n })
    |>.apply env "PLISP_SCHEDULER" QueueKind.ofText? (·.queue.label)
        (fun k s => { s with queue := k })
    |>.applyPoolSize env

end ForkLisp.Settings
