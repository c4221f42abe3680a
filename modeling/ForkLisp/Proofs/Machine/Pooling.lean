/-
What the operations of the pool change.

Each operation changes the berth of one task and leaves all others alone. The tasks that the pool
holds are counted by `Pool.free` and by `Pool.parked`, the list of those that wait to be joined.
-/
import ForkLisp.Machine.Pool

namespace ForkLisp.Machine.Pool

variable {p q : Pool} {id other : TaskId} {t c : Task} {outcome : Outcome}

/-- The tasks that have ended and wait to be joined, with their outcomes. -/
def parked (p : Pool) : List (Task × Outcome) := p.berths.toList.filterMap (·.parked)

/-! ### One berth -/

section

variable {stage : Stage} {x : Option (Task × Outcome)}

@[simp] theorem parked?_setStage : (p.setStage id stage).parked? other = p.parked? other := by
  unfold parked? setStage
  rw [Array.getElem?_modify]
  split
  · cases p.berths[other]? <;> rfl
  · rfl

theorem stage?_setStage_self (h : id < p.capacity) :
    (p.setStage id stage).stage? id = some stage := by
  unfold stage? setStage
  rw [Array.getElem?_modify, if_pos rfl, Array.getElem?_eq_getElem h]
  rfl

theorem stage?_setStage_of_ne (h : id ≠ other) :
    (p.setStage id stage).stage? other = p.stage? other := by
  unfold stage? setStage
  rw [Array.getElem?_modify, if_neg h]

@[simp] theorem stage?_setParked : (p.setParked id x).stage? other = p.stage? other := by
  unfold stage? setParked
  rw [Array.getElem?_modify]
  split
  · cases p.berths[other]? <;> rfl
  · rfl

theorem parked?_setParked_self (h : id < p.capacity) : (p.setParked id x).parked? id = x := by
  unfold parked? setParked
  rw [Array.getElem?_modify, if_pos rfl, Array.getElem?_eq_getElem h]
  rfl

theorem parked?_setParked_none : (p.setParked id none).parked? id = none := by
  unfold parked? setParked
  rw [Array.getElem?_modify, if_pos rfl]
  cases p.berths[id]? <;> rfl

theorem parked?_setParked_of_ne (h : id ≠ other) :
    (p.setParked id x).parked? other = p.parked? other := by
  unfold parked? setParked
  rw [Array.getElem?_modify, if_neg h]

@[simp] theorem capacity_setParked : (p.setParked id x).capacity = p.capacity :=
  Array.size_modify

end

/-! ### Releasing and ending -/

@[simp] theorem capacity_release : (p.release t).capacity = p.capacity := by
  unfold release
  cases t.id with
  | none => rfl
  | some id => exact capacity_setStage p id .free

@[simp] theorem parked?_release : (p.release t).parked? other = p.parked? other := by
  unfold release
  cases t.id with
  | none => rfl
  | some id => exact parked?_setStage (p := p)

theorem stage?_release_of_ne (h : t.id ≠ some other) :
    (p.release t).stage? other = p.stage? other := by
  unfold release
  cases hid : t.id with
  | none => rfl
  | some id =>
    refine stage?_setStage_of_ne (p := p) fun h' => h ?_
    rw [hid, h']

theorem free_release : (p.release t).free = p.free ++ [t.reset] := by
  unfold release
  cases t.id <;> rfl

theorem finish_eq (h : p.stage? id ≠ some .detached) :
    p.finish id t outcome = (p.setParked id (some (t, outcome))).setStage id .ended :=
  if_neg h

/-! ### Taking -/

theorem take?_eq_some (h : p.take? = some (c, q)) (hid : c.id = some id) :
    p.free = c :: q.free ∧ q.berths = (p.setStage id .running).berths := by
  unfold take? at h
  split at h
  · cases h
  · rename_i t free hfree
    split at h
    · rename_i id' hid'
      obtain ⟨rfl, rfl⟩ := Prod.mk.inj (Option.some.inj h)
      obtain rfl := Option.some.inj (hid.symm.trans hid')
      exact ⟨hfree, rfl⟩
    · rename_i hnone
      obtain ⟨rfl, rfl⟩ := Prod.mk.inj (Option.some.inj h)
      rw [hid] at hnone
      cases hnone

/-- The task that is taken was free. -/
theorem mem_free_of_take? (h : p.take? = some (c, q)) : c ∈ p.free := by
  unfold take? at h
  split at h
  · cases h
  · rename_i t free hfree
    rw [hfree]
    split at h
    all_goals
      obtain ⟨rfl, -⟩ := Prod.mk.inj (Option.some.inj h)
      exact List.mem_cons_self

theorem stage?_eq_of_berths (h : p.berths = q.berths) (id : TaskId) :
    p.stage? id = q.stage? id := by
  unfold stage?
  rw [h]

theorem parked?_eq_of_berths (h : p.berths = q.berths) (id : TaskId) :
    p.parked? id = q.parked? id := by
  unfold parked?
  rw [h]

/-! ### Parked tasks -/

theorem parked_eq_of_berths (h : p.berths = q.berths) : p.parked = q.parked := by
  unfold parked
  rw [h]

/-- A list with one of its elements replaced. -/
theorem toList_modify {α : Type} {xs : Array α} {i : Nat} {x : α} (h : xs[i]? = some x)
    (f : α → α) :
    ∃ left right, xs.toList = left ++ x :: right ∧
      (xs.modify i f).toList = left ++ f x :: right := by
  obtain ⟨hlt, hx⟩ := Array.getElem?_eq_some_iff.mp h
  refine ⟨xs.toList.take i, xs.toList.drop (i + 1), ?_, ?_⟩
  · rw [← hx, ← Array.getElem_toList, ← List.drop_eq_getElem_cons (by simpa using hlt),
      List.take_append_drop]
  · rw [Array.toList_modify, List.modify_eq_take_cons_drop (by simpa using hlt),
      Array.getElem_toList, hx]

theorem parked_setStage {stage : Stage} : (p.setStage id stage).parked = p.parked := by
  unfold parked setStage
  cases hb : p.berths[id]? with
  | none =>
    congr 2
    refine Array.ext_getElem? fun j => ?_
    rw [Array.getElem?_modify]
    split
    · rename_i hj
      rw [← hj, hb]
      rfl
    · rfl
  | some b =>
    obtain ⟨left, right, hold, hnew⟩ := toList_modify hb fun b => { b with stage }
    rw [hold, hnew, List.filterMap_append, List.filterMap_append, List.filterMap_cons,
      List.filterMap_cons]

/-- A parked task is picked up. -/
theorem parked_unpark (h : p.parked? id = some (t, outcome)) :
    p.parked.Perm ((t, outcome) :: (p.setParked id none).parked) := by
  obtain ⟨b, hb, hp⟩ := Option.bind_eq_some_iff.mp h
  obtain ⟨left, right, hold, hnew⟩ := toList_modify hb fun b => { b with parked := none }
  unfold parked setParked
  dsimp only
  rw [hold, hnew]
  simp only [List.filterMap_append, List.filterMap_cons, hp]
  exact List.perm_middle

/-- A task is parked where none was. -/
theorem parked_park (hlt : id < p.capacity) (h : p.parked? id = none) :
    (p.setParked id (some (t, outcome))).parked.Perm ((t, outcome) :: p.parked) := by
  have hb : p.berths[id]? = some p.berths[id] := Array.getElem?_eq_getElem hlt
  have hp : p.berths[id].parked = none := by
    unfold parked? at h
    rw [hb] at h
    exact h
  obtain ⟨left, right, hold, hnew⟩ :=
    toList_modify hb fun b => { b with parked := some (t, outcome) }
  unfold parked setParked
  dsimp only
  rw [hold, hnew]
  simp only [List.filterMap_append, List.filterMap_cons, hp]
  exact List.perm_middle

end ForkLisp.Machine.Pool
