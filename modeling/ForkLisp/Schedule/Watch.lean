/-
Workers that look for work.

A worker without a task notes how often work was announced, looks for work in one place after the
other, and goes to sleep if it finds none and the count is still the same. A crew does this in one
go. Here every look into a queue and every look at the signal is a step of its own, and so are
adding work, announcing it, and waking somebody up: others may do something in between. Work comes
from the workers themselves and from outside, any amount of it at a time.
-/
import ForkLisp.Schedule.Queues

namespace ForkLisp.Schedule

namespace Stealing

variable {α : Type}

/-- Adds to the common queue, and announces nothing. -/
def append (q : Stealing α) (a : α) : Stealing α := { q with injector := q.injector ++ [a] }

/-- Adds to the deque of a worker, and announces nothing. -/
def stack (q : Stealing α) (worker : Nat) (a : α) : Stealing α :=
  { q with locals := q.locals.modify worker (a :: ·) }

/-- Announces that work was added. -/
def announce (q : Stealing α) : Stealing α := { q with signal := q.signal.notify }

theorem inject_eq (q : Stealing α) (a : α) : q.inject a = (q.append a).announce := rfl

theorem push_eq (q : Stealing α) (worker : Nat) (a : α) :
    q.push worker a = (q.stack worker a).announce := rfl

/-- Takes the oldest common element, and moves some more of them to the deque of the worker. How
many these are is not laid down. -/
def takeSome? (q : Stealing α) (worker more : Nat) : Option (α × Stealing α) :=
  match q.injector with
  | [] => none
  | a :: as =>
    some (a, { q with
      injector := as.drop more
      locals := q.locals.modify worker (as.take more ++ ·) })

theorem takeBatch?_eq (q : Stealing α) (worker : Nat) :
    q.takeBatch? worker = q.takeSome? worker (batchSize q.injector.length - 1) := by
  unfold takeBatch? takeSome?
  split <;> simp_all

end Stealing

/-- Where a worker looks for work. -/
inductive Place where
  | common
  /-- The deque of a worker. -/
  | deque (owner : Nat)
  deriving DecidableEq

namespace Stealing

variable {α : Type}

/-- The places where a worker looks for work, in this order: its own deque, the common queue, and
the deques of the others. -/
def round (q : Stealing α) (worker : Nat) : List Place :=
  .deque worker :: .common :: (q.victims worker).map .deque

/-- Looks for work in one place. From its own deque a worker takes what it added last. -/
def look? (q : Stealing α) (worker more : Nat) : Place → Option (α × Stealing α)
  | .common => q.takeSome? worker more
  | .deque owner => if owner = worker then q.popLocal? worker else q.stealFrom? owner

theorem ne_of_mem_victims {q : Stealing α} {worker victim : Nat} (h : worker < q.locals.size)
    (hv : victim ∈ q.victims worker) : victim ≠ worker := by
  obtain ⟨k, hk, rfl⟩ := List.mem_map.mp hv
  obtain ⟨hlow, hhigh⟩ := List.mem_range'_1.mp hk
  intro heq
  by_cases hlt : worker + k < q.locals.size
  · rw [Nat.mod_eq_of_lt hlt] at heq
    omega
  · rw [Nat.mod_eq_sub_mod (by omega), Nat.mod_eq_of_lt (by omega)] at heq
    omega

theorem findSome?_deques {q : Stealing α} {worker more : Nat} {victims : List Nat}
    (h : ∀ victim ∈ victims, victim ≠ worker) :
    (victims.map Place.deque).findSome? (q.look? worker more) = victims.findSome? q.stealFrom? := by
  induction victims with
  | nil => rfl
  | cons victim victims ih =>
    have hlook : q.look? worker more (.deque victim) = q.stealFrom? victim :=
      if_neg (h victim List.mem_cons_self)
    rw [List.map_cons, List.findSome?_cons, List.findSome?_cons, hlook,
      ih fun v hv => h v (List.mem_cons_of_mem victim hv)]

/-- A worker that nobody interrupts looks into one place after the other. -/
theorem find?_eq {q : Stealing α} {worker : Nat} (h : worker < q.locals.size) :
    q.find? worker =
      (q.round worker).findSome? (q.look? worker (batchSize q.injector.length - 1)) := by
  have hown : q.look? worker (batchSize q.injector.length - 1) (.deque worker) =
    q.popLocal? worker :=
    if_pos rfl
  have hcommon : q.look? worker (batchSize q.injector.length - 1) .common = q.takeBatch? worker :=
    (takeBatch?_eq q worker).symm
  rw [round, List.findSome?_cons, List.findSome?_cons, hown, hcommon,
    findSome?_deques fun _ => ne_of_mem_victims h, find?]
  cases q.popLocal? worker <;> cases q.takeBatch? worker <;> rfl

end Stealing

/-- What a worker keeps in mind while it looks for work. -/
structure Note where
  /-- The count of the signal. -/
  seen : UInt64
  /-- How often work had been announced. The signal counts it modulo `2 ^ 64`. -/
  since : Nat

/-- What a worker is doing. -/
inductive Stance (α : Type) where
  /-- It is about to look for work. -/
  | ready
  /-- It looks for work and has yet to look into some places. If none is left, it is
  about to sleep. -/
  | seeking (note : Note) (left : List Place)
  /-- It sleeps, and nobody has woken it up. When it fell asleep, work had been announced `missed`
  times since it began to look. -/
  | asleep (note : Note) (missed : Nat)
  | busy (a : α)
  /-- It has added work and is to announce it, before it goes on with what it is busy with. -/
  | pushed (next : Option α)
  /-- It has announced work and is to wake somebody up. -/
  | calling (next : Option α)
  | stopped

namespace Stance

variable {α : Type}

/-- What a worker does after it has woken somebody up. -/
def resume : Option α → Stance α
  | some a => busy a
  | none => ready

/-- A worker that sleeps is woken up: it is about to sleep again. -/
def rouse : Stance α → Stance α
  | asleep note _ => seeking note []
  | st => st

def isAsleep : Stance α → Bool
  | asleep .. => true
  | _ => false

/-- Whether a worker has added work that it has not announced. -/
def isPushed : Stance α → Bool
  | pushed _ => true
  | _ => false

/-- Whether a worker has added work and has yet to announce it or to wake somebody up. -/
def owes : Stance α → Bool
  | pushed _ | calling _ => true
  | _ => false

/-- How often work had been announced since a sleeping worker began to look for it, when
it fell asleep. -/
def missed : Stance α → Nat
  | asleep _ missed => missed
  | _ => 0

end Stance

/-- Workers that look for work in queues. -/
structure Watch (α : Type) where
  queues : Stealing α
  /-- How often work was announced. -/
  announced : Nat
  stances : List (Stance α)
  /-- How many additions to the common queue have come from outside and are to be announced. -/
  pushed : Nat
  /-- For how many of those that were announced somebody is to be woken up. -/
  calling : Nat
  /-- Whether the workers are to stop. -/
  stopping : Bool

namespace Watch

variable {α : Type}

/-- Workers that find nothing to do. -/
def new (workers : Nat) : Watch α :=
  ⟨.ofWorkers workers, 0, List.replicate workers .ready, 0, 0, false⟩

/-- What a worker may do next, what becomes of the queues, and what it does then. -/
inductive Does (s : Watch α) (worker : Nat) : Stance α → Stealing α → Stance α → Prop where
  | note : Does s worker .ready s.queues
      (.seeking ⟨s.queues.signal.epoch, s.announced⟩ (s.queues.round worker))
  | quit (h : s.stopping = true) : Does s worker .ready s.queues .stopped
  | find {note : Note} {place : Place} {left : List Place} {more : Nat} {a : α} {q : Stealing α}
      (h : s.queues.look? worker more place = some (a, q)) :
      Does s worker (.seeking note (place :: left)) q (.busy a)
  | miss {note : Note} {place : Place} {left : List Place} {more : Nat}
      (h : s.queues.look? worker more place = none) :
      Does s worker (.seeking note (place :: left)) s.queues (.seeking note left)
  | sleep {note : Note} (h : s.queues.signal.allowsSleep note.seen = true)
      (hs : s.stopping = false) :
      Does s worker (.seeking note []) s.queues (.asleep note (s.announced - note.since))
  | stay {note : Note} (h : s.queues.signal.allowsSleep note.seen = false ∨ s.stopping = true) :
      Does s worker (.seeking note []) s.queues .ready
  /-- A worker may wake up though nobody has woken it. -/
  | wake {note : Note} {missed : Nat} :
      Does s worker (.asleep note missed) s.queues (.seeking note [])
  | push {a : α} (b : α) : Does s worker (.busy a) (s.queues.stack worker b) (.pushed (some a))
  | suspend {a : α} : Does s worker (.busy a) (s.queues.append a) (.pushed none)
  | finish {a : α} : Does s worker (.busy a) s.queues .ready

/-- One of the sleeping workers is woken up, if there is one. -/
inductive Wakes (stances : List (Stance α)) : List (Stance α) → Prop where
  | one {i : Nat} {note : Note} {missed : Nat} (h : stances[i]? = some (.asleep note missed)) :
      Wakes stances (stances.set i (.seeking note []))
  | nobody (h : ∀ st ∈ stances, st.isAsleep = false) : Wakes stances stances

/-- What may happen next. -/
inductive Moves (s : Watch α) : Watch α → Prop where
  | work {i : Nat} {st st' : Stance α} {q : Stealing α} (h : s.stances[i]? = some st)
      (does : Does s i st q st') : Moves s { s with queues := q, stances := s.stances.set i st' }
  | announce {i : Nat} {next : Option α} (h : s.stances[i]? = some (.pushed next)) :
      Moves s { s with
        queues := s.queues.announce
        announced := s.announced + 1
        stances := s.stances.set i (.calling next) }
  | call {i : Nat} {next : Option α} {stances : List (Stance α)}
      (h : s.stances[i]? = some (.calling next)) (hw : Wakes s.stances stances) :
      Moves s { s with stances := stances.set i (.resume next) }
  /-- Somebody outside adds work, for which there have to be workers. -/
  | submit (a : α) (h : s.stances ≠ []) :
      Moves s { s with queues := s.queues.append a, pushed := s.pushed + 1 }
  | announceSubmitted {n : Nat} (h : s.pushed = n + 1) :
      Moves s { s with
        queues := s.queues.announce
        announced := s.announced + 1
        pushed := n
        calling := s.calling + 1 }
  | callSubmitted {n : Nat} {stances : List (Stance α)} (h : s.calling = n + 1)
      (hw : Wakes s.stances stances) : Moves s { s with stances, calling := n }
  | stop : Moves s { s with stopping := true }
  /-- Workers that are to stop are all woken up. -/
  | callAll (h : s.stopping = true) :
      Moves s { s with
        queues := s.queues.announce
        announced := s.announced + 1
        stances := s.stances.map .rouse }

/-- What may happen in the end. -/
inductive Reaches (s : Watch α) : Watch α → Prop where
  | refl : Reaches s s
  | step {s' s'' : Watch α} (h : Reaches s s') (hm : s'.Moves s'') : Reaches s s''

/-- All work that was added has been announced, and somebody was woken up for it. -/
structure Settled (s : Watch α) : Prop where
  pushed : s.pushed = 0
  calling : s.calling = 0
  stances : ∀ st ∈ s.stances, st.owes = false

end Watch

end ForkLisp.Schedule
