/-
A shared queue has room for every push.

All workers take from the shared queue and push into it, so that a full one would stop them all. It
has room for the pooled tasks and the task of a form. Each of these is in one place, and what is
about to be pushed is still in the hands of a worker, so that there are places for it:

* `Ring.count_of_push`, `Ring.count_of_pop` : the counters of a ring count what is in it,
  modulo `2 ^ 64`;
* `queued_le`, `queued_lt` : how many tasks are runnable at most, and how many when a
  worker has one more;
* `pushes_never_wait` : no push finds the queue full.

Nothing is said of the size of the pool. One of `2 ^ 64` tasks would have a ring whose counters do
not tell full from empty, and even there the queue is never found full.
-/
import Mathlib
import ForkLisp.Proofs.Session.Progress
import ForkLisp.Proofs.Schedule.Idle

namespace ForkLisp.Schedule

open ForkLisp.Machine

/-! ### Counting what a ring holds -/

namespace Ring

variable {α : Type} {r r' : Ring α} {a : α}

theorem count_of_push (h : r.push? a = some r') :
    r'.size = r.size ∧ r'.count = (r.count + 1) % 2 ^ 64 := by
  unfold push? at h
  split at h
  · exact absurd h (by simp)
  · obtain rfl := Option.some.inj h
    refine ⟨Array.size_setIfInBounds, ?_⟩
    have hnext : r.tail + 1 - r.head = (r.tail - r.head) + 1 := by grind
    show (r.tail + 1 - r.head).toNat = _
    rw [hnext, UInt64.toNat_add]
    rfl

theorem push?_isSome (h : r.count ≠ r.size) (a : α) : (r.push? a).isSome = true := by
  unfold push?
  rw [if_neg h]
  rfl

theorem count_of_pop (h : r.pop? = some (a, r')) : r'.size = r.size ∧ r.count = r'.count + 1 := by
  unfold pop? at h
  dsimp only at h
  split at h
  · exact absurd h (by simp)
  · rename_i hcount
    split at h
    · exact absurd h (by simp)
    · obtain ⟨-, rfl⟩ := Prod.mk.inj (Option.some.inj h)
      refine ⟨Array.size_setIfInBounds, ?_⟩
      have hone : (1 : UInt64).toNat = 1 := rfl
      have hrest : r.tail - (r.head + 1) = (r.tail - r.head) - 1 := by grind
      have hpos : 1 ≤ (r.tail - r.head).toNat := Nat.one_le_iff_ne_zero.mpr hcount
      have hle : 1 ≤ r.tail - r.head := UInt64.le_iff_toNat_le.mpr (hone ▸ hpos)
      show (r.tail - r.head).toNat = (r.tail - (r.head + 1)).toNat + 1
      rw [hrest, UInt64.toNat_sub_of_le _ _ hle, hone]
      omega

theorem le_powerFrom_of {n fuel p : Nat} (h : n ≤ p * 2 ^ fuel) : n ≤ powerFrom n fuel p := by
  induction fuel generalizing p with
  | zero =>
    rw [powerFrom]
    omega
  | succ fuel ih =>
    rw [powerFrom]
    split
    · assumption
    · refine ih ?_
      rw [Nat.pow_succ'] at h
      calc n ≤ p * (2 * 2 ^ fuel) := h
        _ = 2 * p * 2 ^ fuel := by ring

/-- A ring is at least as large as was asked for. -/
theorem le_size_ofCapacity (capacity : Nat) (start : UInt64) :
    capacity ≤ (ofCapacity capacity start : Ring α).size := by
  have hsize : (ofCapacity capacity start : Ring α).size = nextPower (max capacity 1) :=
    Array.size_replicate
  rw [hsize]
  refine Nat.le_trans (Nat.le_max_left capacity 1) (le_powerFrom_of ?_)
  rw [Nat.one_mul]
  exact Nat.le_of_lt Nat.lt_two_pow_self

end Ring

/-! ### What a worker is about to push -/

/-- The task that a worker makes runnable next, which it still has in its hands. -/
def Hand.pushes? : Hand → Option Task
  | starting _ child => some child
  | suspending t => some t
  | _ => none

theorem Deed.ready_ofStep (e : Option Event) (r : Step) : (Deed.ofStep e r).ready = none := by
  cases r <;> rfl

/-- What becomes runnable has been in the hands of the worker. -/
theorem Hand.ready_of_act? {w : World} {hand : Hand} {d : Deed} (h : hand.act? w = some d) :
    d.ready = hand.pushes? := by
  cases acts_of_act? h with
  | step | resume => exact Deed.ready_ofStep _ _
  | _ => rfl

theorem Hand.census_pos {hand : Hand} {t : Task} (h : hand.pushes? = some t) :
    0 < hand.census.length := by
  cases hand with
  | starting | suspending => exact Nat.succ_pos _
  | _ => exact absurd h (by simp [pushes?])

end ForkLisp.Schedule

namespace ForkLisp.Session

open ForkLisp.Machine ForkLisp.Reader ForkLisp.Schedule

/-! ### How many tasks are runnable -/

namespace Parallel

variable {settings : Settings} {s : Parallel} {events : List Event}

/-- There is one task for each index of the pool, and one for the form that somebody waits for. -/
theorem length_census (h : (Parallel.new settings).Reaches events s) :
    s.system.census.length = settings.poolSize + s.system.waiting.toNat := by
  obtain ⟨closures, b, htended, -⟩ := tended_of_reaches h
  have hcapacity : s.system.world.pool.capacity = settings.poolSize :=
    htended.governed.kept.capacity
  have hlength := htended.governed.kept.complete.length_eq
  rw [hcapacity, List.length_map] at hlength
  rw [hlength]
  cases s.system.waiting <;> simp [everyone, Nat.add_comm]

/-- The runnable tasks and those in the hands of workers are among them. -/
theorem queued_add_le (h : (Parallel.new settings).Reaches events s) :
    s.system.queued.length + (s.system.hands.flatMap Hand.census).length ≤
      settings.poolSize + s.system.waiting.toNat := by
  have hlength := length_census h
  unfold System.census at hlength
  simp only [List.length_append, List.length_map] at hlength
  omega

theorem queued_le (h : (Parallel.new settings).Reaches events s) :
    s.system.queued.length ≤ settings.poolSize + s.system.waiting.toNat :=
  Nat.le_of_add_right_le (queued_add_le h)

/-- A task that is about to be pushed is not runnable yet. -/
theorem queued_lt (h : (Parallel.new settings).Reaches events s) {hand : Hand} {t : Task}
    (hmem : hand ∈ s.system.hands) (ht : hand.pushes? = some t) :
    s.system.queued.length < settings.poolSize + s.system.waiting.toNat := by
  have hle := queued_add_le h
  have hpos := Hand.census_pos ht
  have hin : hand.census.length ≤ (s.system.hands.flatMap Hand.census).length :=
    (List.sublist_flatten_of_mem (List.mem_map_of_mem hmem)).length_le
  omega

end Parallel

/-! ### The ring counts the runnable tasks -/

namespace Staffed

variable {settings : Settings} {s s' : Staffed} {ring : Schedule.Ring Task} {e : Option Event}

/-- The queue is a ring with more places than the pool has tasks, which counts the
runnable tasks. -/
structure Counted (settings : Settings) (s : Staffed) (ring : Schedule.Ring Task) : Prop where
  queue : s.queue = .shared ring
  size : settings.poolSize < ring.size
  count : ring.count = s.session.system.queued.length % 2 ^ 64

theorem counted_new (h : settings.queue = .sharedQueue) :
    ∃ ring, Counted settings (.new settings) ring := by
  refine ⟨.ofCapacity (settings.poolSize + 1) 0, ?_, Schedule.Ring.le_size_ofCapacity _ _, ?_⟩
  · simp [Staffed.new, RunQueue.new, h]
  · simp [Schedule.Ring.count, Schedule.Ring.ofCapacity, Staffed.new, Parallel.new, System.new]

/-- Either kind of push is a push into the ring. -/
theorem enqueue?_shared (worker : Nat) (hand : Hand) (t : Task) :
    enqueue? (.shared ring) worker hand (some t) = (ring.push? t).map .shared := by
  cases hand <;> rfl

/-- What becomes runnable is counted. -/
theorem Counted.extend? (h : Counted settings s ring) {worker : Nat} {hand : Hand}
    {c : Parallel.Choice} (he : s.extend? worker hand c = some (e, s')) {ready : Option Task}
    (hq : s'.session.system.queued = s.session.system.queued ++ ready.toList) :
    ∃ ring', Counted settings s' ring' := by
  obtain ⟨-, hqueue⟩ := of_extend? he
  rw [hq, List.drop_left, h.queue] at hqueue
  cases ready with
  | none =>
    obtain hsame := Option.some.inj hqueue
    refine ⟨ring, hsame.symm, h.size, ?_⟩
    rw [hq, h.count, Option.toList_none, List.append_nil]
  | some t =>
    change enqueue? _ worker hand (some t) = _ at hqueue
    rw [enqueue?_shared] at hqueue
    obtain ⟨ring', hpush, hsame⟩ := Option.map_eq_some_iff.mp hqueue
    obtain ⟨hsize, hcount⟩ := Schedule.Ring.count_of_push hpush
    refine ⟨ring', hsame.symm, hsize ▸ h.size, ?_⟩
    rw [hcount, hq, h.count, List.length_append, Nat.mod_add_mod]
    rfl

/-- A task that a worker takes is one of the runnable ones. -/
theorem lt_of_take {s s' : Parallel} {i j : Nat} (h : s.choose? (.take i j) = some (e, s')) :
    j < s.system.queued.length := by
  cases Parallel.chooses_of_choose? h with
  | take hh hq => simp [hq]

theorem Counted.choose? (h : Counted settings s ring) {c : Choice}
    (hc : s.choose? c = some (e, s')) :
    ∃ ring', Counted settings s' ring' := by
  cases c with
  | take i =>
    simp only [Staffed.choose?, h.queue] at hc
    split at hc
    · exact absurd hc (by simp)
    · rename_i t queue htake
      obtain ⟨⟨e', session⟩, htaken, heq⟩ := Option.map_eq_some_iff.mp hc
      obtain ⟨rfl, rfl⟩ := Prod.mk.inj heq
      obtain ⟨⟨a, ring'⟩, hpop, heq⟩ := Option.map_eq_some_iff.mp htake
      obtain ⟨rfl, rfl⟩ := Prod.mk.inj heq
      obtain ⟨hsize, hcount⟩ := Schedule.Ring.count_of_pop hpop
      obtain ⟨-, -, hqueued⟩ := Parallel.queued_choose? htaken
      -- the ring gives up one task, and so do the runnable ones
      have hlt := lt_of_take htaken
      refine ⟨ring', rfl, hsize ▸ h.size, ?_⟩
      have hlength : session.system.queued.length + 1 = s.session.system.queued.length := by
        rw [hqueued, List.length_eraseIdx_of_lt hlt]
        omega
      have hold := h.count
      rw [hcount, ← hlength] at hold
      show ring'.count = session.system.queued.length % 2 ^ 64
      omega
  | act i =>
    obtain ⟨-, -, ready, hqueued⟩ := Parallel.queued_choose? (of_extend? hc).1
    exact h.extend? hc hqueued
  | submit f =>
    obtain ⟨-, ready, hqueued⟩ := Parallel.queued_choose? (of_extend? hc).1
    exact h.extend? hc hqueued

theorem Counted.play? (h : Counted settings s ring) {cs : List Choice} {events : List Event}
    (hp : s.play? cs = some (events, s')) : ∃ ring', Counted settings s' ring' :=
  holds_of_play? (P := fun s => ∃ ring, Counted settings s ring) (fun ⟨_, h⟩ hc =>
    h.choose? hc) ⟨ring, h⟩ hp

/-- There is room as long as fewer tasks are runnable than there may be. -/
theorem Counted.lt_size (h : Counted settings s ring)
    (hlt : s.session.system.queued.length ≤ settings.poolSize) : ring.count < ring.size := by
  have hcount := h.count
  have hmod := Nat.mod_le s.session.system.queued.length (2 ^ 64)
  have hsize := h.size
  omega

/-- What may happen to the session happens, if there is room for what becomes runnable. -/
theorem Counted.extend?_isSome (h : Counted settings s ring) (worker : Nat) (hand : Hand)
    (c : Parallel.Choice)
    (hroom : ∀ e session, s.session.choose? c = some (e, session) →
      session.system.queued = s.session.system.queued ∨ ring.count < ring.size) :
    (s.extend? worker hand c).isSome = (s.session.choose? c).isSome := by
  unfold Staffed.extend?
  cases hc : s.session.choose? c with
  | none => rfl
  | some result =>
    obtain ⟨e, session⟩ := result
    simp only [Option.isSome_map, Option.isSome_some]
    rw [h.queue]
    rcases hroom e session hc with hsame | hlt
    · rw [hsame, List.drop_eq_nil_of_le (Nat.le_refl _)]
      rfl
    · cases (session.system.queued.drop s.session.system.queued.length).head? with
      | none => rfl
      | some t =>
        rw [enqueue?_shared, Option.isSome_map]
        exact Schedule.Ring.push?_isSome (Nat.ne_of_lt hlt) t

/-- A worker that makes a task runnable has it in its hands. -/
theorem queued_act {s s' : Parallel} {i : Nat} (h : s.choose? (.act i) = some (e, s')) :
    s'.system.queued = s.system.queued ∨ ∃ hand ∈ s.system.hands, ∃ t, hand.pushes? = some t := by
  cases Parallel.chooses_of_choose? h with
  | @act left right hand d hh ha =>
    have hready := Hand.ready_of_act? ha
    cases hpushes : hand.pushes? with
    | none =>
      left
      rw [hpushes] at hready
      show s.system.queued ++ d.ready.toList = _
      rw [hready, Option.toList_none, List.append_nil]
    | some t => exact .inr ⟨hand, hh ▸ List.mem_append_right left List.mem_cons_self, t, hpushes⟩

/-! ### No push waits -/

/-- However the workers that share a queue take turns, and whatever forms have left behind when the
next one is submitted: the queue holds at most the pooled tasks and the task of a form. It is not
full when a worker has a task to push, be it one that was started or one that waits, nor when a form
may be submitted. So whatever a worker or a form may do, no push keeps it from happening. -/
theorem pushes_never_wait (settings : Settings) (hshared : settings.queue = .sharedQueue)
    {cs : List Choice} {events : List Event}
    (h : (Staffed.new settings).play? cs = some (events, s)) :
    ∃ ring, s.queue = .shared ring ∧ ring.count ≤ settings.poolSize + 1 ∧
      s.session.system.queued.length ≤ settings.poolSize + 1 ∧
      (∀ hand ∈ s.session.system.hands, ∀ t, hand.pushes? = some t →
        ring.count < ring.size ∧ (ring.push? t).isSome = true) ∧
      (s.session.system.waiting = false → ring.count < ring.size ∧
        ∀ t, (ring.push? t).isSome = true) ∧
      (∀ i, (s.choose? (.act i)).isSome = (s.session.choose? (.act i)).isSome) ∧
      ∀ f, (s.choose? (.submit f)).isSome = (s.session.choose? (.submit f)).isSome := by
  have hreaches := reaches_of_play? h
  obtain ⟨ring₀, hnew⟩ := counted_new hshared
  obtain ⟨ring, hcounted⟩ := hnew.play? h
  have hwaiting : s.session.system.waiting.toNat ≤ 1 := Bool.toNat_le _
  have hle : s.session.system.queued.length ≤ settings.poolSize + 1 :=
    Nat.le_trans (Parallel.queued_le hreaches) (by omega)
  have hcount : ring.count ≤ settings.poolSize + 1 := by
    rw [hcounted.count]
    exact Nat.le_trans (Nat.mod_le _ _) hle
  -- a task in the hands of a worker is one of those for which the ring has a place
  have hpush : ∀ hand ∈ s.session.system.hands, ∀ t, hand.pushes? = some t →
      ring.count < ring.size := by
    intro hand hmem t ht
    have hlt := Parallel.queued_lt hreaches hmem ht
    exact hcounted.lt_size (by omega)
  have hsubmit : s.session.system.waiting = false → ring.count < ring.size := by
    intro hfree
    have hlt := Parallel.queued_le hreaches
    rw [hfree] at hlt
    exact hcounted.lt_size hlt
  refine ⟨ring, hcounted.queue, hcount, hle, ?_, ?_, ?_, ?_⟩
  · intro hand hmem t ht
    have hlt := hpush hand hmem t ht
    exact ⟨hlt, Schedule.Ring.push?_isSome (Nat.ne_of_lt hlt) t⟩
  · intro hfree
    exact ⟨hsubmit hfree, fun t => Schedule.Ring.push?_isSome (Nat.ne_of_lt (hsubmit hfree)) t⟩
  · intro i
    refine hcounted.extend?_isSome i _ (.act i) fun e session hc => ?_
    rcases queued_act hc with hsame | ⟨hand, hmem, t, ht⟩
    · exact .inl hsame
    · exact .inr (hpush hand hmem t ht)
  · intro f
    refine hcounted.extend?_isSome 0 .idle (.submit f) fun e session hc => .inr ?_
    by_cases hfree : s.session.system.waiting = true
    · simp [Parallel.choose?, hfree] at hc
    · exact hsubmit (by simpa using hfree)

/-- Two workers that share a queue. -/
def sharing : Settings := { Parallel.forking with queue := .sharedQueue }

/-- A form faults, and leaves behind a task that it started. That one is at work when the next form
has a task to push. -/
def faultedRun : List Choice :=
  (formsOf "(defun f (x) x) (+ (f 1) (/ 1 0))").map Choice.submit ++ [Choice.take 0] ++
    List.replicate 7 (Choice.act 0) ++ (formsOf "(+ (f 1) (f 2))").map Choice.submit ++
    [Choice.take 0, Choice.take 1] ++ List.replicate 2 (Choice.act 1)

theorem pushes_never_wait_faulted : ∃ cs events s ring hand t,
    (Staffed.new sharing).play? cs = some (events, s) ∧ Event.detached none 0 ∈ events ∧
    hand ∈ s.session.system.hands ∧ hand.pushes? = some t ∧ s.queue = .shared ring ∧
    ring.count ≤ 3 ∧ ring.count < ring.size ∧ (ring.push? t).isSome = true ∧
    (s.choose? (.act 1)).isSome = (s.session.choose? (.act 1)).isSome := by
  have hplay : ((Staffed.new sharing).play? faultedRun).map
      (fun r => (r.1, (r.2.session.system.hands.filterMap Hand.pushes?).map (·.id))) =
      some ([.spawned none 0 0, .detached none 0, .finished none (.error .zeroDivision),
        .spawned none 0 1], [some 1]) := by cbv
  obtain ⟨⟨events, s⟩, hs, heq⟩ := Option.map_eq_some_iff.mp hplay
  obtain ⟨rfl, hhands⟩ := Prod.mk.inj heq
  obtain ⟨t, hmem, -⟩ := List.mem_map.mp (hhands ▸ List.mem_singleton_self (some 1))
  obtain ⟨hand, hmem, ht⟩ := List.mem_filterMap.mp hmem
  obtain ⟨ring, hqueue, hcount, -, hpush, -, hact, -⟩ := pushes_never_wait sharing rfl hs
  obtain ⟨hlt, hsome⟩ := hpush hand hmem t ht
  exact ⟨_, _, s, ring, hand, t, hs, by simp, hmem, ht, hqueue, hcount, hlt, hsome, hact 1⟩

end Staffed

end ForkLisp.Session
