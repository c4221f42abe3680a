/-
Workers at work.

A crew runs programs on tasks. One worker does all the work: it takes a task, runs it until it ends
or waits, and goes on until no task is left; the next worker takes over only if it is lost in a
crash. Every schedule that the queues allow gives the same outcome for programs whose tasks do not
disturb each other, and this one is among them.
-/
import ForkLisp.Machine.Step
import ForkLisp.Schedule.Queues

namespace ForkLisp.Schedule

open ForkLisp.Code ForkLisp.Machine

/-- The workers with their queues, and how the task of the program ended. -/
structure Crew where
  queue : RunQueue Task
  workers : Nat
  /-- How many workers were lost. -/
  lost : Nat
  stackSize : Nat
  outcome : Option Outcome

/-- Ends a task: the tasks that it started are given up, and its outcome goes to whoever waits. -/
def complete (t : Task) (outcome : Outcome) (w : World) (crew : Crew) : World × Crew :=
  let pool := t.children.foldl Pool.detach w.pool
  match t.id with
  | some id => ({ w with pool := pool.finish id { t with children := [] } outcome }, crew)
  | none => ({ w with pool }, { crew with outcome := some outcome })

/-- The crew in the middle of its work; a task is at hand, or the next one is to be taken. -/
structure Shift where
  current : Option Task
  world : World
  crew : Crew

/-- What one turn of the work comes to. -/
inductive Turn where
  | more (shift : Shift)
  | done (w : World) (crew : Crew)
  /-- A queue is full. -/
  | stuck

namespace Shift

/-- One turn of the work: takes a task, or moves the task at hand by one instruction. -/
def turn : Shift → Turn
  | ⟨none, w, crew⟩ =>
    if crew.lost < crew.workers then
      match crew.queue.take? crew.lost with
      | none => .done w crew
      | some (t, queue) =>
        let crew := { crew with queue }
        if t.fits then .more ⟨some t, w, crew⟩
        else
          let (w, crew) := complete t (.error .stackOverflow) w crew
          .more ⟨none, w, crew⟩
    else .done w crew
  | ⟨some t, w, crew⟩ =>
    match step t w with
    | .next t w => .more ⟨some t, w, crew⟩
    | .spawned t child w =>
      match crew.queue.push? crew.lost child with
      | some queue => .more ⟨some t, w, { crew with queue }⟩
      | none => .stuck
    | .suspended t w =>
      match crew.queue.inject? t with
      | some queue => .more ⟨none, w, { crew with queue }⟩
      | none => .stuck
    | .ended t outcome w =>
      let (w, crew) := complete t outcome w crew
      .more ⟨none, w, crew⟩
    | .crashed w => .more ⟨none, w, { crew with lost := crew.lost + 1 }⟩

/-- Runs tasks until none is left. There is no result if a queue is full, or if the tasks never come
to an end. -/
def work (shift : Shift) : Option (World × Crew) :=
  match shift.turn with
  | .more shift => shift |>.work
  | .done w crew => some (w, crew)
  | .stuck => none
partial_fixpoint

end Shift

/-- A crew with its pool. -/
structure Scheduler where
  crew : Crew
  pool : Pool

namespace Scheduler

/-- The workers and the pool that settings ask for. A shared queue has room for every task. -/
def new (s : Settings) : Scheduler :=
  ⟨⟨.new s.queue s.workerCount (s.poolSize + 1), s.workerCount, 0, s.taskStackSize, none⟩,
    .ofSize s.poolSize s.taskStackSize⟩

/-- What comes of running a program. -/
structure Run where
  outcome : Outcome
  globals : Array Slot
  printed : List String
  scheduler : Scheduler

/-- Runs a program. A task whose worker is lost has no outcome of its own. -/
def run? (s : Scheduler) (program : Program) (globals : Array Slot) : Option Run :=
  match s.crew.queue.inject? (.root s.crew.stackSize program) with
  | none => none
  | some queue =>
    match Shift.work ⟨none, ⟨globals, #[], s.pool⟩, { s.crew with queue, outcome := none }⟩ with
    | none => none
    | some (w, crew) =>
      some ⟨crew.outcome.getD (.error .workerLost), w.globals, w.printed.toList, ⟨crew, w.pool⟩⟩

/-- Runs a program; one that never ends has no result to wait for. -/
def run (s : Scheduler) (program : Program) (globals : Array Slot) : Run :=
  (s.run? program globals).getD ⟨.error .workerLost, globals, [], s⟩

end Scheduler

end ForkLisp.Schedule
