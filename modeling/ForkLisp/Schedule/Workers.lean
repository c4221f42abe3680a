/-
Workers side by side.

A crew does its work in one order. Here many workers share a world, and any of them may do the next
thing: take a runnable task, or go on with what it has in its hands. What a worker does at a time is
a `Deed`: one instruction, one operation of the pool, or one task that becomes runnable. A wait for
another task takes several of them, for the other task is seen to have ended, picked up and released
one after the other.
-/
import ForkLisp.Machine.Step

namespace ForkLisp.Schedule

open ForkLisp.Code ForkLisp.Machine

/-- What becomes of tasks. A pooled task has its index in the pool, the task of a form has none. -/
inductive Event where
  /-- A task starts another one, whose handle it keeps in a slot. -/
  | spawned (parent : Option TaskId) (slot : Nat) (id : TaskId)
  | finished (task : Option TaskId) (outcome : Outcome)
  /-- A task goes on with the outcome of the one whose handle it has in a slot. -/
  | joined (parent : Option TaskId) (slot : Nat) (id : TaskId) (outcome : Outcome)
  | detached (parent : Option TaskId) (id : TaskId)

/-- What a worker has in its hands. -/
inductive Hand where
  | idle
  | running (t : Task)
  /-- The task started `child`, which is not runnable yet. -/
  | starting (t child : Task)
  /-- The task waits for the task `id`, which has been seen to have ended. -/
  | joining (t : Task) (r : Reg) (id : TaskId)
  /-- The task waited for the task `id`, which has been picked up with its outcome. -/
  | joined (t : Task) (r : Reg) (id : TaskId) (child : Task) (outcome : Outcome)
  /-- The task waits for another one and is to become runnable again. -/
  | suspending (t : Task)
  /-- The task is over, and so is the wait for the tasks that it started. -/
  | ending (t : Task) (outcome : Outcome)
  /-- The task is over, and one of those that it started had ended and is not waited
  for any more. -/
  | discarding (t : Task) (outcome : Outcome) (child : Task)
  /-- Nobody waits for the task, which is over. -/
  | releasing (t : Task)
  /-- The worker is lost. -/
  | lost

/-- What a worker does: what it has in its hands and how the world is then, which task became
runnable, what the task of a form came to, and what happened. -/
structure Deed where
  hand : Hand
  world : World
  ready : Option Task
  answer : Option Outcome
  event : Option Event

namespace Deed

/-- The hand and the world change, and nothing else happens. -/
def quiet (hand : Hand) (w : World) : Deed := ⟨hand, w, none, none, none⟩

/-- An instruction was run. -/
def ofStep (event : Option Event) : Step → Deed
  | .next t w => ⟨.running t, w, none, none, event⟩
  | .spawned t child w => ⟨.starting t child, w, none, none, event⟩
  | .suspended t w => ⟨.suspending t, w, none, none, event⟩
  | .ended t outcome w => ⟨.ending t outcome, w, none, none, event⟩
  | .crashed w => ⟨.lost, w, none, none, event⟩

theorem event_ofStep (event : Option Event) (step : Step) : (ofStep event step).event = event := by
  cases step <;> rfl

end Deed

/-- What a step of the task `t` does to other tasks. -/
def eventOf (t : Task) : Step → Option Event
  | .spawned _ child _ =>
    match t.handleSlot?, child.id with
    | some slot, some id => some (.spawned t.id slot id)
    | _, _ => none
  | _ => none

namespace Hand

/-- What a worker has in its hands that takes a task. -/
def take (t : Task) : Hand :=
  if t.fits then running t else ending t (.error .stackOverflow)

/-- What a worker does next with what it has in its hands. -/
def act? (w : World) : Hand → Option Deed
  | idle | lost => none
  | running t =>
    match t.awaits? with
    | none => some (.ofStep (eventOf t (step t w)) (step t w))
    | some (r, id) => some (.quiet (if w.pool.hasEnded id then joining t r id else suspending t) w)
  | starting t child => some ⟨running t, w, some child, none, none⟩
  | joining t r id =>
    match w.pool.parked? id with
    | none => some (.quiet (suspending t) w)
    | some (child, outcome) =>
      some (.quiet (joined t r id child outcome) { w with pool := w.pool.setParked id none })
  | joined t r id child outcome =>
    some (.ofStep (some (.joined t.id (t.base + r) id outcome))
      (Step.resume r id outcome t { w with pool := w.pool.release child }))
  | suspending t => some ⟨idle, w, some t, none, none⟩
  | ending t outcome =>
    match t.children, t.id with
    | id :: rest, parent =>
      match w.pool.parked? id with
      | some (child, _) =>
        some ⟨discarding { t with children := rest } outcome child,
          { w with pool := w.pool.setParked id none }, none, none, some (.detached parent id)⟩
      | none =>
        some ⟨ending { t with children := rest } outcome,
          { w with pool := w.pool.setStage id .detached }, none, none, some (.detached parent id)⟩
    | [], none => some ⟨idle, w, none, some outcome, some (.finished none outcome)⟩
    | [], some id =>
      if w.pool.stage? id = some .detached then
        some ⟨releasing t, w, none, none, some (.finished (some id) outcome)⟩
      else
        some ⟨idle, { w with pool := w.pool.finish id t outcome }, none, none,
          some (.finished (some id) outcome)⟩
  | discarding t outcome child =>
    some (.quiet (ending t outcome) { w with pool := w.pool.release child })
  | releasing t => some (.quiet idle { w with pool := w.pool.release t })

/-- All that a worker can do next, one case for each thing. -/
inductive Acts (w : World) : Hand → Deed → Prop where
  | step {t : Task} (ha : t.awaits? = none) :
      Acts w (running t) (.ofStep (eventOf t (Machine.step t w)) (Machine.step t w))
  | check {t : Task} {r : Reg} {id : TaskId} (ha : t.awaits? = some (r, id)) :
      Acts w (running t) (.quiet (if w.pool.hasEnded id then joining t r id else suspending t) w)
  | start {t child : Task} : Acts w (starting t child) ⟨running t, w, some child, none, none⟩
  | miss {t : Task} {r : Reg} {id : TaskId} (hp : w.pool.parked? id = none) :
      Acts w (joining t r id) (.quiet (suspending t) w)
  | collect {t child : Task} {r : Reg} {id : TaskId} {outcome : Outcome}
      (hp : w.pool.parked? id = some (child, outcome)) :
      Acts w (joining t r id)
        (.quiet (joined t r id child outcome) { w with pool := w.pool.setParked id none })
  | resume {t child : Task} {r : Reg} {id : TaskId} {outcome : Outcome} :
      Acts w (joined t r id child outcome) (.ofStep (some (.joined t.id (t.base + r) id outcome))
        (Step.resume r id outcome t { w with pool := w.pool.release child }))
  | suspend {t : Task} : Acts w (suspending t) ⟨idle, w, some t, none, none⟩
  | discard {t child : Task} {outcome given : Outcome} {id : TaskId} {rest : List TaskId}
      (hc : t.children = id :: rest) (hp : w.pool.parked? id = some (child, given)) :
      Acts w (ending t outcome) ⟨discarding { t with children := rest } outcome child,
        { w with pool := w.pool.setParked id none }, none, none, some (.detached t.id id)⟩
  | detach {t : Task} {outcome : Outcome} {id : TaskId} {rest : List TaskId}
      (hc : t.children = id :: rest) (hp : w.pool.parked? id = none) :
      Acts w (ending t outcome) ⟨ending { t with children := rest } outcome,
        { w with pool := w.pool.setStage id .detached }, none, none, some (.detached t.id id)⟩
  | conclude {t : Task} {outcome : Outcome} (hc : t.children = []) (hid : t.id = none) :
      Acts w (ending t outcome) ⟨idle, w, none, some outcome, some (.finished none outcome)⟩
  | abandon {t : Task} {outcome : Outcome} {id : TaskId} (hc : t.children = [])
      (hid : t.id = some id) (hd : w.pool.stage? id = some .detached) :
      Acts w (ending t outcome) ⟨releasing t, w, none, none, some (.finished (some id) outcome)⟩
  | park {t : Task} {outcome : Outcome} {id : TaskId} (hc : t.children = []) (hid : t.id = some id)
      (hd : w.pool.stage? id ≠ some .detached) :
      Acts w (ending t outcome) ⟨idle, { w with pool := w.pool.finish id t outcome }, none, none,
        some (.finished (some id) outcome)⟩
  | drop {t child : Task} {outcome : Outcome} : Acts w (discarding t outcome child)
      (.quiet (ending t outcome) { w with pool := w.pool.release child })
  | release {t : Task} : Acts w (releasing t) (.quiet idle { w with pool := w.pool.release t })

theorem acts_of_act? {w : World} {hand : Hand} {d : Deed}
    (h : hand.act? w = some d) : hand.Acts w d := by
  cases hand with
  | idle | lost => cases h
  | running t =>
    simp only [act?] at h
    split at h
    · rename_i ha
      obtain rfl := Option.some.inj h
      exact .step ha
    · rename_i ha
      obtain rfl := Option.some.inj h
      exact .check ha
  | joining t r id =>
    simp only [act?] at h
    split at h
    · rename_i hp
      obtain rfl := Option.some.inj h
      exact .miss hp
    · rename_i hp
      obtain rfl := Option.some.inj h
      exact .collect hp
  | ending t outcome =>
    simp only [act?] at h
    split at h
    · rename_i hc
      split at h
      · rename_i hp
        obtain rfl := Option.some.inj h
        exact .discard hc hp
      · rename_i hp
        obtain rfl := Option.some.inj h
        exact .detach hc hp
    · rename_i hc hid
      obtain rfl := Option.some.inj h
      exact .conclude hc hid
    · rename_i hc hid
      split at h
      · rename_i hd
        obtain rfl := Option.some.inj h
        exact .abandon hc hid hd
      · rename_i hd
        obtain rfl := Option.some.inj h
        exact .park hc hid hd
  | starting =>
    obtain rfl := Option.some.inj h
    exact .start
  | joined =>
    obtain rfl := Option.some.inj h
    exact .resume
  | suspending =>
    obtain rfl := Option.some.inj h
    exact .suspend
  | discarding =>
    obtain rfl := Option.some.inj h
    exact .drop
  | releasing =>
    obtain rfl := Option.some.inj h
    exact .release

end Hand

/-- Workers that share a world. -/
structure System where
  world : World
  /-- The runnable tasks that no worker has taken. -/
  queued : List Task
  hands : List Hand
  /-- Whether somebody waits for the outcome of a program. -/
  waiting : Bool
  /-- The outcome of the last program that came to its end. -/
  outcome : Option Outcome

namespace System

/-- Workers that have nothing to do. -/
def new (workers : Nat) (w : World) : System :=
  ⟨w, [], List.replicate workers .idle, false, none⟩

/-- The worker between `left` and `right` has done something. -/
def after (s : System) (left right : List Hand) (d : Deed) : System where
  world := d.world
  queued := s.queued ++ d.ready.toList
  hands := left ++ d.hand :: right
  waiting := s.waiting && d.answer.isNone
  outcome := d.answer.or s.outcome

/-- What may happen next. -/
inductive Moves (s : System) : Option Event → System → Prop where
  | take {left right : List Hand} {before after : List Task} {t : Task}
      (hands : s.hands = left ++ .idle :: right) (queued : s.queued = before ++ t :: after) :
      Moves s none { s with queued := before ++ after, hands := left ++ .take t :: right }
  | act {left right : List Hand} {hand : Hand} {d : Deed} (hands : s.hands = left ++ hand :: right)
      (act : hand.act? s.world = some d) : Moves s d.event (s.after left right d)

/-- Somebody runs a program: its task becomes runnable. -/
def submit (s : System) (t : Task) : System :=
  { s with queued := s.queued ++ [t], waiting := true, outcome := none }

end System

end ForkLisp.Schedule
