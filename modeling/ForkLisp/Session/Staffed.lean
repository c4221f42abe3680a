/-
Sessions with many workers and their queues.

In a `Parallel` session any worker may take any task that is runnable. Here the runnable tasks are
in queues of the kind that the settings ask for, and a worker takes what it finds there. A task that
a worker has started goes to its own deque, if it has one; the task of a form and one that waits go
behind all others. What finds no room in a queue does not happen.
-/
import ForkLisp.Schedule.Queues
import ForkLisp.Session.Parallel

namespace ForkLisp.Session

open ForkLisp.Machine ForkLisp.Reader ForkLisp.Schedule

/-- A session whose runnable tasks are in queues. -/
structure Staffed where
  session : Parallel
  queue : RunQueue Task

namespace Staffed

/-- A session in which nothing is defined, with empty queues. A shared queue has room
for every task. -/
def new (settings : Settings) : Staffed :=
  ⟨.new settings, .new settings.queue settings.workerCount (settings.poolSize + 1)⟩

/-- The queues with the task that a worker makes runnable, if there is one. -/
def enqueue? (q : RunQueue Task) (worker : Nat) (hand : Hand) : Option Task → Option (RunQueue Task)
  | none => some q
  | some t =>
    match hand with
    | .starting .. => q.push? worker t
    | _ => q.inject? t

/-- One of the things that may happen next. -/
inductive Choice where
  /-- A worker takes the task that it finds in the queues. -/
  | take (worker : Nat)
  /-- A worker goes on with what it has in its hands. -/
  | act (worker : Nat)
  | submit (f : Form)

/-- Does what was chosen, and adds the task that becomes runnable to the queues. -/
def extend? (s : Staffed) (worker : Nat) (hand : Hand) (c : Parallel.Choice) :
    Option (Option Event × Staffed) :=
  match s.session.choose? c with
  | none => none
  | some (e, session) =>
    let ready := (session.system.queued.drop s.session.system.queued.length).head?
    (enqueue? s.queue worker hand ready).map fun queue => (e, ⟨session, queue⟩)

/-- Does what was chosen, if it can happen. -/
def choose? (s : Staffed) : Choice → Option (Option Event × Staffed)
  | .take i =>
    match s.queue.take? i with
    | none => none
    | some (t, queue) =>
      (s.session.choose? (.take i (s.session.system.queued.idxOf t))).map fun (e, session) =>
        (e, ⟨session, queue⟩)
  | .act i => s.extend? i (s.session.system.hands.getD i .idle) (.act i)
  | .submit f => s.extend? 0 .idle (.submit f)

/-- Does one thing after the other. -/
def play? (s : Staffed) : List Choice → Option (List Event × Staffed)
  | [] => some ([], s)
  | c :: cs =>
    match s.choose? c with
    | none => none
    | some (e, s) => (s.play? cs).map fun (events, s) => (e.toList ++ events, s)

theorem of_play?_cons {s s' : Staffed} {c : Choice} {cs : List Choice} {events : List Event}
    (h : s.play? (c :: cs) = some (events, s')) : ∃ e s₁ events', s.choose? c = some (e, s₁) ∧
      s₁.play? cs = some (events', s') ∧ events = e.toList ++ events' := by
  simp only [play?] at h
  split at h
  · cases h
  · rename_i e s₁ hc
    obtain ⟨⟨events', s₂⟩, hplay, heq⟩ := Option.map_eq_some_iff.mp h
    obtain ⟨rfl, rfl⟩ := Prod.mk.inj heq
    exact ⟨e, s₁, events', hc, hplay, rfl⟩

/-- What every choice keeps is kept as long as one plays. -/
theorem holds_of_play? {P : Staffed → Prop}
    (hstep : ∀ {s s' : Staffed} {c : Choice} {e : Option Event}, P s →
      s.choose? c = some (e, s') → P s')
    {s s' : Staffed} {cs : List Choice} {events : List Event} (h : P s)
    (hp : s.play? cs = some (events, s')) : P s' := by
  induction cs generalizing s events with
  | nil =>
    obtain ⟨-, rfl⟩ := Prod.mk.inj (Option.some.inj hp)
    exact h
  | cons c cs ih =>
    obtain ⟨e, s₁, events', hc, hplay, -⟩ := of_play?_cons hp
    exact ih (hstep h hc) hplay

end Staffed

end ForkLisp.Session
