/-
Sessions with many workers.

A form is compiled, and its task becomes runnable. Somebody waits until it has come to its end, and
only then is the next form submitted; tasks that earlier forms have left behind go on meanwhile.
They share the globals, which exist from when a form was compiled that speaks of them.
-/
import ForkLisp.Compile.Compile
import ForkLisp.Schedule.Workers
import ForkLisp.Settings

namespace ForkLisp.Session

open ForkLisp.Code ForkLisp.Compile ForkLisp.Machine ForkLisp.Reader ForkLisp.Schedule

/-- A session whose programs are run by workers side by side. -/
structure Parallel where
  context : Context
  system : System

namespace Parallel

/-- A session in which nothing is defined. -/
def new (settings : Settings) : Parallel :=
  ⟨.new settings, .new settings.workerCount
    ⟨#[], #[], .ofSize settings.poolSize settings.taskStackSize⟩⟩

/-- A world in which the globals of a context exist, too. -/
def withGlobals (w : World) (c : Context) : World :=
  { w with globals := (c.withGlobalValues w.globals).globalValues }

/-- Compiles a form. If it is no definition, its task becomes runnable. -/
def submit (s : Parallel) (f : Form) : Parallel :=
  let r := compile s.context f
  match r.outcome with
  | .ok (.entry code) =>
    let (table, context) := r.context.functionTable
    let system := { s.system with world := withGlobals s.system.world context }
    ⟨context, system.submit (.root context.settings.taskStackSize ⟨table, code⟩)⟩
  | _ => ⟨r.context, { s.system with world := withGlobals s.system.world r.context }⟩

/-- What may happen next. -/
inductive Moves (s : Parallel) : Option Event → Parallel → Prop where
  | work {e : Option Event} {system : System} (h : s.system.Moves e system) :
      Moves s e { s with system }
  | submit (f : Form) (h : s.system.waiting = false) : Moves s none (s.submit f)

/-- What may happen in the end, with all that happened before. -/
inductive Reaches (s : Parallel) : List Event → Parallel → Prop where
  | refl : Reaches s [] s
  | step {events : List Event} {e : Option Event} {s' s'' : Parallel} (h : Reaches s events s')
      (hm : s'.Moves e s'') : Reaches s (events ++ e.toList) s''

/-- What may come of submitting some forms, one after the other. -/
inductive Passes (s : Parallel) : List Form → Parallel → Prop where
  | refl : Passes s [] s
  | work {fs : List Form} {e : Option Event} {s' : Parallel} {system : System} (h : Passes s fs s')
      (hm : s'.system.Moves e system) : Passes s fs { s' with system }
  | submit {fs : List Form} {s' : Parallel} (h : Passes s fs s') (f : Form)
      (hw : s'.system.waiting = false) : Passes s (fs ++ [f]) (s'.submit f)

/-- One of the things that may happen next. -/
inductive Choice where
  /-- A worker takes one of the runnable tasks. -/
  | take (worker index : Nat)
  /-- A worker goes on with what it has in its hands. -/
  | act (worker : Nat)
  | submit (f : Form)

/-- Does what was chosen, if it can happen. -/
def choose? (s : Parallel) : Choice → Option (Option Event × Parallel)
  | .take i j =>
    match s.system.hands.drop i, s.system.queued.drop j with
    | .idle :: right, t :: after =>
      some (none, { s with system := { s.system with
        queued := s.system.queued.take j ++ after
        hands := s.system.hands.take i ++ .take t :: right } })
    | _, _ => none
  | .act i =>
    match s.system.hands.drop i with
    | hand :: right =>
      (hand.act? s.system.world).map fun d =>
        (d.event, { s with system := s.system.after (s.system.hands.take i) right d })
    | [] => none
  | .submit f => if s.system.waiting then none else some (none, s.submit f)

/-- All that can be chosen, one case for each choice. -/
inductive Chooses (s : Parallel) : Choice → Option Event → Parallel → Prop where
  | take {left right : List Hand} {before after : List Task} {t : Task}
      (hh : s.system.hands = left ++ .idle :: right) (hq : s.system.queued = before ++ t :: after) :
      Chooses s (.take left.length before.length) none { s with system := { s.system with
        queued := before ++ after
        hands := left ++ .take t :: right } }
  | act {left right : List Hand} {hand : Hand} {d : Deed}
      (hh : s.system.hands = left ++ hand :: right) (ha : hand.act? s.system.world = some d) :
      Chooses s (.act left.length) d.event { s with system := s.system.after left right d }
  | submit {f : Form} (hw : s.system.waiting = false) : Chooses s (.submit f) none (s.submit f)

/-- What stands at a place comes behind as many others. -/
theorem split_of_drop {α : Type} {as bs : List α} {a : α} {i : Nat} (h : as.drop i = a :: bs) :
    as = as.take i ++ a :: bs ∧ (as.take i).length = i := by
  refine ⟨by rw [← h, List.take_append_drop],
    List.length_take_of_le (Nat.le_of_not_lt fun hlt => ?_)⟩
  rw [List.drop_eq_nil_of_le (Nat.le_of_lt hlt)] at h
  cases h

theorem chooses_of_choose? {s s' : Parallel} {c : Choice} {e : Option Event}
    (h : s.choose? c = some (e, s')) : s.Chooses c e s' := by
  cases c with
  | take i j =>
    simp only [choose?] at h
    split at h
    · rename_i right t after hhands hqueued
      obtain ⟨rfl, rfl⟩ := Prod.mk.inj (Option.some.inj h)
      have hchooses := Chooses.take (split_of_drop hhands).1 (split_of_drop hqueued).1
      rwa [(split_of_drop hhands).2, (split_of_drop hqueued).2] at hchooses
    · cases h
  | act i =>
    simp only [choose?] at h
    split at h
    · rename_i hand right hhands
      obtain ⟨d, hd, heq⟩ := Option.map_eq_some_iff.mp h
      obtain ⟨rfl, rfl⟩ := Prod.mk.inj heq
      have hchooses := Chooses.act (split_of_drop hhands).1 hd
      rwa [(split_of_drop hhands).2] at hchooses
    · cases h
  | submit f =>
    simp only [choose?] at h
    split at h
    · cases h
    · rename_i hwaiting
      obtain ⟨rfl, rfl⟩ := Prod.mk.inj (Option.some.inj h)
      exact .submit (Bool.eq_false_iff.mpr hwaiting)

/-- Does one thing after the other. -/
def play? (s : Parallel) : List Choice → Option (List Event × Parallel)
  | [] => some ([], s)
  | c :: cs =>
    match s.choose? c with
    | none => none
    | some (e, s) => (s.play? cs).map fun (events, s) => (e.toList ++ events, s)

theorem of_play?_cons {s s' : Parallel} {c : Choice} {cs : List Choice} {events : List Event}
    (h : s.play? (c :: cs) = some (events, s')) : ∃ e s₁ events', s.choose? c = some (e, s₁) ∧
      s₁.play? cs = some (events', s') ∧ events = e.toList ++ events' := by
  simp only [play?] at h
  split at h
  · cases h
  · rename_i e s₁ hc
    obtain ⟨⟨events', s₂⟩, hplay, heq⟩ := Option.map_eq_some_iff.mp h
    obtain ⟨rfl, rfl⟩ := Prod.mk.inj heq
    exact ⟨e, s₁, events', hc, hplay, rfl⟩

end Parallel

end ForkLisp.Session
