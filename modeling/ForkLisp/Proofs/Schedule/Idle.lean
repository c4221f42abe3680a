/-
Queues that hold nothing.

What is injected into an idle queue is what the next worker takes, and then the queue is idle again.
-/
import ForkLisp.Schedule.Queues

namespace ForkLisp.Schedule

variable {α : Type}

/-- A queue holds nothing. -/
def RunQueue.Idle : RunQueue α → Prop
  | .stealing q => q.injector = [] ∧ ∀ (i : Nat) as, q.locals[i]? = some as → as = []
  | .shared r => r.head = r.tail ∧ 0 < r.cells.size

theorem Ring.le_powerFrom (n fuel p : Nat) : p ≤ powerFrom n fuel p := by
  induction fuel generalizing p with
  | zero => exact Nat.le_refl p
  | succ fuel ih =>
    unfold powerFrom
    split
    · exact Nat.le_refl p
    · exact Nat.le_trans (by omega) (ih (2 * p))

namespace RunQueue

theorem new_idle (kind : QueueKind) (workers capacity : Nat) :
    (new kind workers capacity : RunQueue α).Idle := by
  cases kind with
  | workStealing =>
    refine ⟨rfl, fun i as h => ?_⟩
    have hmem := Array.mem_of_getElem? h
    exact (Array.mem_replicate.mp hmem).2
  | sharedQueue =>
    refine ⟨rfl, ?_⟩
    show 0 < (Array.replicate _ none).size
    rw [Array.size_replicate]
    exact Nat.lt_of_lt_of_le Nat.zero_lt_one (Ring.le_powerFrom _ _ _)

theorem popLocal?_eq_none {q : Stealing α} (h : ∀ (i : Nat) as, q.locals[i]? = some as → as = [])
    (worker : Nat) : q.popLocal? worker = none := by
  unfold Stealing.popLocal?
  cases hl : q.locals[worker]? with
  | none => rfl
  | some as =>
    rw [h worker as hl]

theorem stealFrom?_eq_none {q : Stealing α} (h : ∀ (i : Nat) as, q.locals[i]? = some as → as = [])
    (victim : Nat) : q.stealFrom? victim = none := by
  unfold Stealing.stealFrom?
  cases hl : q.locals[victim]? with
  | none => rfl
  | some as =>
    rw [h victim as hl]
    rfl

theorem Idle.take?_eq_none {q : RunQueue α} (h : q.Idle) (worker : Nat) :
    q.take? worker = none := by
  cases q with
  | stealing q =>
    have hbatch : q.takeBatch? worker = none := by
      unfold Stealing.takeBatch?
      rw [h.1]
    have hsteal : (q.victims worker).findSome? q.stealFrom? = none :=
      List.findSome?_eq_none_iff.mpr fun v _ => stealFrom?_eq_none h.2 v
    show (q.find? worker).map _ = none
    unfold Stealing.find?
    rw [popLocal?_eq_none h.2, hbatch, hsteal]
    rfl
  | shared r =>
    have hcount : r.count = 0 := by
      unfold Ring.count
      rw [h.1, UInt64.sub_self]
      rfl
    show r.pop?.map _ = none
    unfold Ring.pop?
    rw [if_pos hcount]
    rfl

theorem cell_lt {r : Ring α} (h : 0 < r.cells.size) (counter : UInt64) :
    r.cell counter < r.cells.size := by
  have hle : r.cell counter ≤ (UInt64.ofNat r.cells.size - 1).toNat := by
    unfold Ring.cell
    rw [UInt64.toNat_and]
    exact Nat.and_le_right
  rw [UInt64.toNat_sub, UInt64.toNat_ofNat'] at hle
  have : (1 : UInt64).toNat = 1 := rfl
  rw [this] at hle
  omega

/-- What is injected into empty queues is found by whoever looks, and they are empty again. -/
theorem find?_inject {q : Stealing α} (hinjector : q.injector = [])
    (hlocals : ∀ (i : Nat) as, q.locals[i]? = some as → as = []) (a : α) (worker : Nat) :
    (q.inject a).find? worker = some (a, { q with signal := q.signal.notify }) := by
  have hinj : (q.inject a).injector = [a] := by
    show q.injector ++ [a] = [a]
    rw [hinjector]
    rfl
  have hmore : Stealing.batchSize [a].length - 1 = 0 := by simp [Stealing.batchSize]
  -- nothing is moved to the deque of the worker
  have hmod : q.locals.modify worker ([] ++ ·) = q.locals := by
    refine Array.ext_getElem? fun j => ?_
    rw [Array.getElem?_modify]
    split
    · cases q.locals[j]? <;> rfl
    · rfl
  unfold Stealing.find?
  rw [popLocal?_eq_none (q := q.inject a) hlocals]
  unfold Stealing.takeBatch?
  simp only [hinj, hmore]
  show some (a, { q with
    signal := q.signal.notify, injector := [], locals := q.locals.modify worker ([] ++ ·) }) = _
  rw [hmod, ← hinjector]

/-- What is pushed into an empty ring is popped next, and the ring is empty again. -/
theorem push?_pop? {r : Ring α} (heq : r.head = r.tail) (hpos : 0 < r.cells.size) (a : α) :
    ∃ r' r'', r.push? a = some r' ∧ r'.pop? = some (a, r'') ∧ r''.head = r''.tail ∧
      r''.cells.size = r.cells.size := by
  have hcount : r.count ≠ r.size := by
    unfold Ring.count Ring.size
    rw [heq, UInt64.sub_self]
    exact Nat.ne_of_lt hpos
  have hlt := cell_lt hpos r.tail
  have hone : (r.tail + 1 - r.tail).toNat = 1 := by
    rw [UInt64.add_comm, UInt64.add_sub_cancel]
    rfl
  have hcell : ∀ cells : Array (Option α), cells.size = r.cells.size →
      Ring.cell ⟨cells, r.head, r.tail + 1⟩ r.head = r.cell r.tail := by
    intro cells hsize
    unfold Ring.cell
    rw [hsize, heq]
  refine ⟨{ r with cells := r.cells.setIfInBounds (r.cell r.tail) (some a), tail := r.tail + 1 },
    { r with
      cells := (r.cells.setIfInBounds (r.cell r.tail) (some a)).setIfInBounds (r.cell r.head) none
      head := r.head + 1, tail := r.tail + 1 }, ?_, ?_, by rw [heq], ?_⟩
  · unfold Ring.push?
    rw [if_neg hcount]
  · unfold Ring.pop?
    rw [if_neg (by unfold Ring.count; rw [heq, hone]; decide)]
    simp only [hcell _ Array.size_setIfInBounds, Array.getElem?_setIfInBounds_self_of_lt hlt]
    rw [heq]
    rfl
  · rw [Array.size_setIfInBounds, Array.size_setIfInBounds]

/-- The element that is injected is taken next, and nothing is left then. -/
theorem Idle.inject_take {q : RunQueue α} (h : q.Idle) (a : α) (worker : Nat) :
    ∃ q' q'', q.inject? a = some q' ∧ q'.take? worker = some (a, q'') ∧ q''.Idle := by
  cases q with
  | stealing q =>
    refine ⟨_, .stealing { q with signal := q.signal.notify }, rfl, ?_, h⟩
    show ((q.inject a).find? worker).map _ = _
    rw [find?_inject h.1 h.2]
    rfl
  | shared r =>
    obtain ⟨heq, hpos⟩ := h
    obtain ⟨r', r'', hpush, hpop, heq', hsize⟩ := push?_pop? heq hpos a
    refine ⟨.shared r', .shared r'', ?_, ?_, heq', hsize ▸ hpos⟩
    · show (r.push? a).map _ = _
      rw [hpush]
      rfl
    · show r'.pop?.map _ = _
      rw [hpop]
      rfl

end RunQueue

end ForkLisp.Schedule
