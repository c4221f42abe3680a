/-
Queues of runnable tasks.

With work stealing each worker has a deque of its own: it takes what it added last. When its deque
is empty it takes the oldest task of the common queue, together with some of those behind it, and
when that is empty too, the oldest task of another worker. With a shared queue all workers take from
one ring.
-/
import ForkLisp.Schedule.Ring
import ForkLisp.Schedule.Signal
import ForkLisp.Settings

namespace ForkLisp.Schedule

/-- Queues of work stealing. -/
structure Stealing (α : Type) where
  /-- The common queue, the oldest element first. -/
  injector : List α
  /-- The deque of each worker, the element added last first. -/
  locals : Array (List α)
  signal : Signal

namespace Stealing

variable {α : Type}

/-- Empty queues for a number of workers. -/
def ofWorkers (workers : Nat) : Stealing α := ⟨[], Array.replicate workers [], .new⟩

/-- Adds to the common queue. -/
def inject (q : Stealing α) (a : α) : Stealing α :=
  { q with injector := q.injector ++ [a], signal := q.signal.notify }

/-- Adds to the deque of a worker. -/
def push (q : Stealing α) (worker : Nat) (a : α) : Stealing α :=
  { q with locals := q.locals.modify worker (a :: ·), signal := q.signal.notify }

/-- Takes what a worker added last. -/
def popLocal? (q : Stealing α) (worker : Nat) : Option (α × Stealing α) :=
  match q.locals[worker]? with
  | some (a :: as) => some (a, { q with locals := q.locals.set! worker as })
  | _ => none

/-- How many of `n` common elements one visit takes. -/
def batchSize (n : Nat) : Nat := (n + 1) / 2

/-- Takes the oldest common element and moves the rest of the batch to the deque of the worker,
which takes it in the same order. -/
def takeBatch? (q : Stealing α) (worker : Nat) : Option (α × Stealing α) :=
  match q.injector with
  | [] => none
  | a :: as =>
    let more := batchSize q.injector.length - 1
    some (a, { q with
      injector := as.drop more
      locals := q.locals.modify worker (as.take more ++ ·) })

/-- Takes the oldest element of another worker. -/
def stealFrom? (q : Stealing α) (victim : Nat) : Option (α × Stealing α) :=
  match q.locals[victim]? with
  | some as =>
    match as.getLast? with
    | some a => some (a, { q with locals := q.locals.set! victim as.dropLast })
    | none => none
  | none => none

/-- The other workers, in the order in which a worker visits them. -/
def victims (q : Stealing α) (worker : Nat) : List Nat :=
  (List.range' 1 (q.locals.size - 1)).map fun k => (worker + k) % q.locals.size

/-- Looks for an element everywhere. -/
def find? (q : Stealing α) (worker : Nat) : Option (α × Stealing α) :=
  (q.popLocal? worker).or
    ((q.takeBatch? worker).or ((q.victims worker).findSome? q.stealFrom?))

end Stealing

/-- Runnable elements, in queues of one kind. -/
inductive RunQueue (α : Type) where
  | stealing (queues : Stealing α)
  | shared (ring : Ring α)

namespace RunQueue

variable {α : Type}

/-- Empty queues for a number of workers; a shared queue has room for `capacity` elements. -/
def new (kind : QueueKind) (workers capacity : Nat) : RunQueue α :=
  match kind with
  | .workStealing => stealing (.ofWorkers workers)
  | .sharedQueue => shared (.ofCapacity capacity 0)

/-- Adds an element behind all others; there may be no room. -/
def inject? (q : RunQueue α) (a : α) : Option (RunQueue α) :=
  match q with
  | stealing s => some (stealing (s.inject a))
  | shared r => (r.push? a).map shared

/-- Adds an element that a worker made runnable; there may be no room. -/
def push? (q : RunQueue α) (worker : Nat) (a : α) : Option (RunQueue α) :=
  match q with
  | stealing s => some (stealing (s.push worker a))
  | shared r => (r.push? a).map shared

/-- The element that a worker takes next. -/
def take? (q : RunQueue α) (worker : Nat) : Option (α × RunQueue α) :=
  match q with
  | stealing s => (s.find? worker).map fun (a, s) => (a, stealing s)
  | shared r => r.pop?.map fun (a, r) => (a, shared r)

end RunQueue

end ForkLisp.Schedule
