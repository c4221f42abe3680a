/-
The pool of tasks.

A fixed number of tasks is reused. Each has a slot that says what became of it: it is free, it runs,
it has ended and waits with its outcome, or the task that started it is gone. Free tasks are taken
in the order in which they came back.

Each operation is one step that no other operation can interrupt, except `join?`, which is put
together from `hasEnded` and `collect?`.
-/
import ForkLisp.Machine.Task

namespace ForkLisp.Machine

/-- What became of a pooled task. -/
inductive Stage where
  | free
  | running
  | ended
  /-- Nobody waits for the task any more. -/
  | detached
  deriving DecidableEq, Repr

/-- A pooled task's stage, and the task with its outcome while it waits to be joined. -/
structure Berth where
  stage : Stage
  parked : Option (Task × Outcome)

/-- Reusable tasks: the berth of each, and the free ones in the order in which they are taken. -/
structure Pool where
  berths : Array Berth
  free : List Task

namespace Pool

/-- A pool of free tasks. -/
def ofSize (size stackSize : Nat) : Pool :=
  ⟨Array.replicate size ⟨.free, none⟩, (List.range size).map fun id => .idle (some id) stackSize⟩

/-- How many tasks there are. -/
def capacity (p : Pool) : Nat := p.berths.size

/-- How many tasks are free. -/
def available (p : Pool) : Nat := p.free.length

/-- The stage of a task. -/
def stage? (p : Pool) (id : TaskId) : Option Stage :=
  (p.berths[id]?).map (·.stage)

/-- Sets the stage of a task. -/
def setStage (p : Pool) (id : TaskId) (stage : Stage) : Pool :=
  { p with berths := p.berths.modify id fun b => { b with stage } }

/-- Sets what is parked for a task. -/
def setParked (p : Pool) (id : TaskId) (parked : Option (Task × Outcome)) : Pool :=
  { p with berths := p.berths.modify id fun b => { b with parked } }

/-- Takes a free task. -/
def take? (p : Pool) : Option (Task × Pool) :=
  match p.free with
  | [] => none
  | t :: free =>
    let p := { p with free }
    match t.id with
    | some id => some (t, p.setStage id .running)
    | none => some (t, p)

/-- Makes a task free again. -/
def release (p : Pool) (t : Task) : Pool :=
  let p :=
    match t.id with
    | some id => p.setStage id .free
    | none => p
  { p with free := p.free ++ [t.reset] }

/-- Ends a task: it is parked with its outcome, or released if nobody waits for it. -/
def finish (p : Pool) (id : TaskId) (t : Task) (outcome : Outcome) : Pool :=
  if p.stage? id = some .detached then p.release t
  else (p.setParked id (some (t, outcome))).setStage id .ended

/-- Whether a task has ended and was not joined. -/
def hasEnded (p : Pool) (id : TaskId) : Bool :=
  p.stage? id == some .ended

/-- The task that is parked in a berth, with its outcome. -/
def parked? (p : Pool) (id : TaskId) : Option (Task × Outcome) :=
  (p.berths[id]?).bind (·.parked)

/-- Picks up the outcome of a task that is parked, and releases the task. -/
def collect? (p : Pool) (id : TaskId) : Option (Outcome × Pool) :=
  match p.parked? id with
  | some (t, outcome) => some (outcome, (p.setParked id none).release t)
  | none => none

/-- The outcome of a task, if it has ended. -/
def join? (p : Pool) (id : TaskId) : Option (Outcome × Pool) :=
  if p.hasEnded id then p.collect? id else none

/-- Gives up waiting for a task. -/
def detach (p : Pool) (id : TaskId) : Pool :=
  match p.collect? id with
  | some (_, p) => p
  | none => p.setStage id .detached

@[simp] theorem capacity_ofSize (size stackSize : Nat) :
    (ofSize size stackSize).capacity = size := by
  simp [ofSize, capacity]

@[simp] theorem available_ofSize (size stackSize : Nat) :
    (ofSize size stackSize).available = size := by
  simp [ofSize, available]

@[simp] theorem capacity_setStage (p : Pool) (id : TaskId) (s : Stage) :
    (p.setStage id s).capacity = p.capacity := by
  simp [setStage, capacity]

@[simp] theorem available_release (p : Pool) (t : Task) :
    (p.release t).available = p.available + 1 := by
  cases h : t.id <;> simp [release, available, h, setStage]

end Pool

end ForkLisp.Machine
