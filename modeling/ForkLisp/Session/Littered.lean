/-
Sessions with litter on their stacks.

Starting a task keeps what its stack holds beyond the arguments. Here, before anything happens in a
session, the slots of all free tasks may be overwritten, and so may those of a task that is
submitted. What may be seen of a session is all of it but the contents of stacks.
-/
import ForkLisp.Session.Parallel

namespace ForkLisp.Machine

/-- What becomes of the slots of a stack, by the task that it belongs to. -/
abbrev Litter := Option TaskId → Nat → Slot → Slot

/-- Every slot stays what it is. -/
def Litter.none : Litter := fun _ _ s => s

/-- A task with litter on its stack. -/
def Task.litter (x : Litter) (t : Task) : Task :=
  { t with stack := t.stack.mapIdx (x t.id) }

/-- A pool with litter on the stacks of free tasks. -/
def Pool.litter (x : Litter) (p : Pool) : Pool :=
  { p with free := p.free.map (·.litter x) }

/-- A task without its stack. -/
def Task.bare (t : Task) : Task :=
  { t with stack := #[] }

/-- A pool whose tasks have no stacks. -/
def Pool.bare (p : Pool) : Pool where
  berths := p.berths.map fun b => { b with parked := b.parked.map fun x => (x.1.bare, x.2) }
  free := p.free.map Task.bare

/-- A world whose tasks have no stacks. -/
def World.bare (w : World) : World :=
  { w with pool := w.pool.bare }

end ForkLisp.Machine

namespace ForkLisp.Schedule

open ForkLisp.Machine

/-- What a worker has in its hands, without stacks. -/
def Hand.bare : Hand → Hand
  | idle => idle
  | running t => running t.bare
  | starting t child => starting t.bare child.bare
  | joining t r id => joining t.bare r id
  | joined t r id child outcome => joined t.bare r id child.bare outcome
  | suspending t => suspending t.bare
  | ending t outcome => ending t.bare outcome
  | discarding t outcome child => discarding t.bare outcome child.bare
  | releasing t => releasing t.bare
  | lost => lost

/-- Workers and their tasks, without stacks. -/
def System.bare (s : System) : System :=
  { s with
    world := s.world.bare
    queued := s.queued.map Task.bare
    hands := s.hands.map Hand.bare }

end ForkLisp.Schedule

namespace ForkLisp.Session

open ForkLisp.Compile ForkLisp.Machine ForkLisp.Reader ForkLisp.Schedule

namespace Parallel

/-- A session without stacks. -/
def bare (s : Parallel) : Parallel :=
  { s with system := s.system.bare }

/-- A session with litter on the stacks of free tasks. -/
def litter (x : Litter) (s : Parallel) : Parallel :=
  { s with system.world.pool := s.system.world.pool.litter x }

/-- Compiles a form. If it is no definition, its task becomes runnable, with litter on its stack. -/
def submitAmid (x : Litter) (s : Parallel) (f : Form) : Parallel :=
  let r := compile s.context f
  match r.outcome with
  | .ok (.entry code) =>
    let (table, context) := r.context.functionTable
    let system := { s.system with world := withGlobals s.system.world context }
    let root : Task := .root context.settings.taskStackSize ⟨table, code⟩
    ⟨context, system.submit (root.litter x)⟩
  | _ => ⟨r.context, { s.system with world := withGlobals s.system.world r.context }⟩

/-- Does what was chosen, if it can happen, amid litter. -/
def chooseAmid? (x : Litter) (s : Parallel) : Choice → Option (Option Event × Parallel)
  | .submit f => if s.system.waiting then none else some (none, (s.litter x).submitAmid x f)
  | c => (s.litter x).choose? c

/-- Does one thing after the other, each of them amid litter. -/
def playAmid? (s : Parallel) : List (Choice × Litter) → Option (List Event × Parallel)
  | [] => some ([], s)
  | (c, x) :: cs =>
    match s.chooseAmid? x c with
    | none => none
    | some (e, s) => (s.playAmid? cs).map fun (events, s) => (e.toList ++ events, s)

/-- What may be seen of a session and of what happened in it: all but the contents of stacks. -/
def seen (r : List Event × Parallel) : List Event × Parallel := (r.1, r.2.bare)

end Parallel

end ForkLisp.Session
