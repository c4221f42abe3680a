/-
What happened to a pooled task.

The index of a pooled task says little about which task it is, for tasks are used again as soon as
they are free. What counts is the last time that it was started: a lease is `Recorded` in the list
of events by that time, since when the task that has the lease has not come to its end, and the
other one has come to its end at most once (`Since`). So a join or a give-up is `Justified` by what
happened before.
-/
import ForkLisp.Proofs.Schedule.Governing

namespace ForkLisp.Schedule

open ForkLisp.Machine

/-- An event is about the pooled task with an index. -/
def Event.Concerns (id : TaskId) : Event → Prop
  | .spawned _ _ id' => id' = id
  | .finished task _ => task = some id
  | .joined _ _ id' _ => id' = id
  | .detached _ id' => id' = id

/-- Since a task was started it has come to its end with a result, or not at all, and nothing else
has happened to it. -/
def Since (id : TaskId) (events : List Event) : Option Outcome → Prop
  | none => ∀ e ∈ events, ¬ e.Concerns id
  | some outcome => ∃ left right, events = left ++ .finished (some id) outcome :: right ∧
      ∀ e ∈ left ++ right, ¬ e.Concerns id

/-- A task was started by `parent`, with its handle in a slot, and this has not come to
its end since. -/
def Started (parent : Option TaskId) (slot : Nat) (id : TaskId) (result : Option Outcome)
    (events : List Event) : Prop :=
  ∃ earlier since, events = earlier ++ .spawned parent slot id :: since ∧
    (∀ outcome, .finished parent outcome ∉ since) ∧ Since id since result

/-- A task joins or gives up one that it has started. -/
def Event.Justified (before : List Event) : Event → Prop
  | .joined parent slot id outcome => Started parent slot id (some outcome) before
  | .detached parent id => ∃ slot result, Started parent slot id result before
  | .spawned _ _ _ | .finished _ _ => True

theorem Since.append {id : TaskId} {events : List Event} {result : Option Outcome}
    (h : Since id events result) {e : Event} (he : ¬ e.Concerns id) :
    Since id (events ++ [e]) result := by
  cases result with
  | none =>
    intro x hx
    rcases List.mem_append.mp hx with hx | hx
    · exact h x hx
    · rw [List.mem_singleton.mp hx]
      exact he
  | some outcome =>
    obtain ⟨left, right, rfl, hothers⟩ := h
    refine ⟨left, right ++ [e], by simp, fun x hx => ?_⟩
    rw [← List.append_assoc] at hx
    rcases List.mem_append.mp hx with hx | hx
    · exact hothers x hx
    · rw [List.mem_singleton.mp hx]
      exact he

theorem Started.append {parent : Option TaskId} {slot : Nat} {id : TaskId} {result : Option Outcome}
    {events : List Event} (h : Started parent slot id result events) {e : Event}
    (he : ¬ e.Concerns id) (hparent : ∀ outcome, e ≠ .finished parent outcome) :
    Started parent slot id result (events ++ [e]) := by
  obtain ⟨earlier, since, rfl, hnot, hsince⟩ := h
  refine ⟨earlier, since ++ [e], by simp, fun outcome hmem => ?_, hsince.append he⟩
  rcases List.mem_append.mp hmem with hmem | hmem
  · exact hnot outcome hmem
  · exact hparent outcome (List.mem_singleton.mp hmem).symm

section

variable {H : Type} {b b' : Books H} {events : List Event} {e : Option Event}

/-- The leases are those of tasks that were started and have been neither joined nor given up. -/
def Recorded (b : Books H) (events : List Event) : Prop :=
  ∀ id lease, b.leases id = some lease → Started lease.owner lease.slot id (b.results id) events

/-- What happens is recorded. -/
theorem Recorded.follows (h : Recorded b events) (hf : b.Follows e b') :
    Recorded b' (events ++ e.toList) := by
  intro id lease hl
  cases hf with
  | quiet =>
    rw [Option.toList_none, List.append_nil]
    exact h id lease hl
  | @spawned new lease' hfree =>
    -- a task that has just been spawned has no result, whatever ran in its stack before
    by_cases hid : id = new
    · subst hid
      obtain rfl := Option.some.inj ((Leases.start_self _ _ _).symm.trans hl)
      have hnone : (b.start id lease').results id = none := if_pos rfl
      rw [hnone]
      exact ⟨events, [], rfl, fun _ => List.not_mem_nil, fun _ hmem => absurd hmem List.not_mem_nil⟩
    · have hold : b.leases id = some lease := (Leases.start_of_ne hid).symm.trans hl
      have hsame : (b.start new lease').results id = b.results id := if_neg hid
      rw [hsame]
      exact (h id lease hold).append (fun heq => hid heq.symm) fun _ heq => by cases heq
  | @finished other outcome hresult howner =>
    -- the owner of a lease cannot be the one that finishes while the lease is open
    have howned : ∀ o, Event.finished (some other) outcome ≠ .finished lease.owner o := by
      intro o heq
      exact howner id lease hl (Event.finished.inj heq).1.symm
    by_cases hid : id = other
    · subst hid
      have hsome : (b.settle id outcome).results id = some outcome := if_pos rfl
      rw [hsome]
      obtain ⟨earlier, since, hevents, hnot, hsince⟩ := h id lease hl
      rw [hresult] at hsince
      -- its first ending since the spawn is the one just recorded
      refine ⟨earlier, since ++ [.finished (some id) outcome], ?_, fun o hmem => ?_,
        since, [], rfl, fun x hx => ?_⟩
      · rw [hevents]
        simp
      · rcases List.mem_append.mp hmem with hmem | hmem
        · exact hnot o hmem
        · exact howned o (List.mem_singleton.mp hmem).symm
      · rw [List.append_nil] at hx
        exact hsince x hx
    · have hsame : (b.settle other outcome).results id = b.results id := if_neg hid
      rw [hsame]
      refine (h id lease hl).append (fun heq => ?_) howned
      exact hid (Option.some.inj heq).symm
  | @answered outcome howner =>
    refine (h id lease hl).append (fun heq => by cases heq) fun o heq => ?_
    exact howner id lease hl (Event.finished.inj heq).1.symm
  | @joined other lease' outcome hl' hresult =>
    obtain ⟨hid, hold⟩ := Leases.of_drop hl
    exact (h id lease hold).append (fun heq => hid heq.symm) fun _ heq => by cases heq
  | @detached other lease' hl' =>
    obtain ⟨hid, hold⟩ := Leases.of_drop hl
    exact (h id lease hold).append (fun heq => hid heq.symm) fun _ heq => by cases heq

/-- What the books allow is justified. -/
theorem Recorded.justified (h : Recorded b events) {e : Event} (hf : b.Follows (some e) b') :
    e.Justified events := by
  cases hf with
  | spawned | finished | answered => trivial
  | @joined id lease outcome hl hresult =>
    have hstarted := h id lease hl
    rw [hresult] at hstarted
    exact hstarted
  | @detached id lease hl => exact ⟨lease.slot, _, h id lease hl⟩

end

end ForkLisp.Schedule
