/-
Who keeps which task.

A pooled task is in one place: it is free, runnable, in the hands of a worker, or parked. The
`census` lists the tasks with the roles that they have there, and `Kept` says what holds of them:

* every index of the pool has exactly one task, and at most one task is that of a form;
* a task with a lease has been neither joined nor given up, and its owner is still at work;
* a task at work conducts itself, towards an outcome that its lease allows.

A step changes what is known of a few tasks and leaves the others `Untouched` (`Kept.exchange`).
-/
import Mathlib.Data.List.Nodup
import ForkLisp.Proofs.Machine.Conduct
import ForkLisp.Proofs.Machine.Pooling
import ForkLisp.Schedule.Workers

namespace ForkLisp.Schedule

open ForkLisp.Code ForkLisp.Machine ForkLisp.Behaviour ForkLisp.Reference

/-! ### What is wanted of tasks -/

/-- What programs mean whose tasks share a world, and what is wanted of them. -/
structure Regime (H : Type) where
  /-- How many pooled tasks there are. -/
  capacity : Nat
  Means : Program → Meaning Datum H Unit → Prop
  holds : World → Prop
  delivers : H → Outcome → Prop
  wanted : Outcome → Prop

/-- The meanings allow what the machine does, and calls may be left to other tasks. -/
structure Regime.Sound {H : Type} (R : Regime H) : Prop where
  fulfils : ∀ p m, R.Means p m → p.Fulfils m
  describes : ∀ p m, R.Means p m → Describes m fun w _ => R.holds w
  detachable : ∀ p m n args, R.Means p m → ¬ m.spawn n args () .stuck → Detachable m n args ()
  delivers_iff : ∀ p m h o, R.Means p m → (Delivers m h o () ↔ R.delivers h o)
  pool : ∀ w pool, R.holds w → R.holds { w with pool }

/-- What is known of tasks beyond their state: the leases, and what tasks that have
ended came to. -/
structure Books (H : Type) where
  leases : Leases H
  results : TaskId → Option Outcome

section

variable {H : Type} (R : Regime H)

/-- What is wanted of a task: that of a form ends as it should, and that of a lease delivers. -/
def Regime.Wanted (leases : Leases H) (id : Option TaskId) (outcome : Outcome) (_ : Unit) : Prop :=
  match id with
  | none => R.wanted outcome
  | some id => ∀ lease, leases id = some lease → R.delivers lease.handle outcome

/-- What a task does in its place. -/
inductive Role where
  | free
  /-- It is runnable, and no worker has it. -/
  | ready
  | active
  /-- It is over, and so is the wait for the tasks that it started. -/
  | ending (outcome : Outcome)
  | parked (outcome : Outcome)
  /-- It was parked and has been picked up by the task that waited for it. -/
  | collected (outcome : Outcome)
  /-- It is over and nobody waits for it. -/
  | dismissed

/-- A task is at work: it may have started others. -/
def Role.Works : Role → Prop
  | ready | active | ending _ => True
  | free | parked _ | collected _ | dismissed => False

variable (b : Books H) (pool : Pool)

/-- Nobody waits for a task, and it is not parked. -/
def Unowned (t : Task) : Prop :=
  ∃ id, t.id = some id ∧ pool.parked? id = none ∧ b.leases id = none

/-- A task has ended with an outcome that somebody waits for. -/
def Due (t : Task) (outcome : Outcome) (parked : Option (Task × Outcome)) : Prop :=
  ∃ id lease, t.id = some id ∧ pool.parked? id = parked ∧ b.leases id = some lease ∧
    R.delivers lease.handle outcome ∧ b.results id = some outcome ∧ pool.stage? id = some .ended

/-- A task at work has the leases of the tasks that it started and has not joined. Its berth says
whether somebody waits for it. -/
structure Working (t : Task) : Prop where
  nodup : t.children.Nodup
  children : ∀ id, id ∈ t.children ↔ ∃ lease, b.leases id = some lease ∧ lease.owner = t.id
  berth : ∀ id, t.id = some id → pool.parked? id = none ∧ b.results id = none ∧
    (pool.stage? id = some .detached ↔ b.leases id = none)

/-- A task conducts itself towards an outcome that is wanted. -/
def Runs (t : Task) : Prop :=
  ∃ m, R.Means t.program m ∧ Conducts m (R.Wanted b.leases t.id) b.leases t ()

/-- What holds of a task in its role. -/
def Keeps (size : Nat) (e : Task × Role) : Prop :=
  e.1.stack.size = size ∧
  match e.2 with
  | .free => Unowned b pool e.1 ∧ e.1.children = []
  | .ready => Working b pool e.1 ∧ (e.1.fits = true → Runs R b e.1) ∧
      (e.1.fits = false → R.Wanted b.leases e.1.id (.error .stackOverflow) ())
  | .active => Working b pool e.1 ∧ Runs R b e.1
  | .ending outcome => Working b pool e.1 ∧ R.Wanted b.leases e.1.id outcome ()
  | .parked outcome => Due R b pool e.1 outcome (some (e.1, outcome))
  | .collected outcome => Due R b pool e.1 outcome none
  | .dismissed => Unowned b pool e.1

/-- The tasks that there are: one for each index of the pool, and that of a form which
is waited for. -/
def everyone (waiting : Bool) (capacity : Nat) : List (Option TaskId) :=
  (if waiting then [none] else []) ++ (List.range capacity).map some

/-- What holds of a list of all tasks with their roles. -/
structure Kept (size : Nat) (w : World) (waiting : Bool) (census : List (Task × Role)) : Prop where
  holds : R.holds w
  capacity : w.pool.capacity = R.capacity
  complete : (census.map (·.1.id)).Perm (everyone waiting w.pool.capacity)
  keeps : ∀ e ∈ census, Keeps R b w.pool size e
  owned : ∀ id lease, b.leases id = some lease → ∃ e ∈ census, e.2.Works ∧ e.1.id = lease.owner
  berthed : ∀ id t outcome, w.pool.parked? id = some (t, outcome) →
    t.id = some id ∧ (t, .parked outcome) ∈ census

end

/-! ### Everything else is unchanged -/

section

variable {H : Type} {R : Regime H} {b b' : Books H} {pool pool' : Pool} {size : Nat} {w w' : World}
  {waiting : Bool} {census rest : List (Task × Role)} {ids : List (Option TaskId)}

/-- Nothing changes but what concerns some tasks. -/
structure Untouched (ids : List (Option TaskId)) (b b' : Books H) (pool pool' : Pool) : Prop where
  parked : ∀ id, some id ∉ ids → pool'.parked? id = pool.parked? id
  stage : ∀ id, some id ∉ ids → pool'.stage? id = pool.stage? id
  leases : ∀ id, some id ∉ ids → b'.leases id = b.leases id
  results : ∀ id, some id ∉ ids → b'.results id = b.results id
  owned : ∀ id lease, lease.owner ∉ ids → (b'.leases id = some lease ↔ b.leases id = some lease)

namespace Untouched

variable (h : Untouched ids b b' pool pool') {t : Task} (ht : t.id ∉ ids)

include h ht

theorem wanted : R.Wanted b'.leases t.id = R.Wanted b.leases t.id := by
  unfold Regime.Wanted
  cases hid : t.id with
  | none => rfl
  | some id =>
    rw [hid] at ht
    simp only [h.leases id ht]

theorem unowned (hk : Unowned b pool t) : Unowned b' pool' t := by
  obtain ⟨id, hid, hp, hl⟩ := hk
  rw [hid] at ht
  exact ⟨id, hid, (h.parked id ht).trans hp, (h.leases id ht).trans hl⟩

theorem due {outcome : Outcome} {parked : Option (Task × Outcome)}
    (hk : Due R b pool t outcome parked) :
    Due R b' pool' t outcome parked := by
  obtain ⟨id, lease, hid, hp, hl, hd, hr, hs⟩ := hk
  rw [hid] at ht
  exact ⟨id, lease, hid, (h.parked id ht).trans hp, (h.leases id ht).trans hl, hd,
    (h.results id ht).trans hr, (h.stage id ht).trans hs⟩

theorem working (hk : Working b pool t) : Working b' pool' t where
  nodup := hk.nodup
  children id := by
    rw [hk.children id]
    constructor
    · rintro ⟨lease, hl, ho⟩
      exact ⟨lease, (h.owned id lease (ho ▸ ht)).mpr hl, ho⟩
    · rintro ⟨lease, hl, ho⟩
      exact ⟨lease, (h.owned id lease (ho ▸ ht)).mp hl, ho⟩
  berth id hid := by
    rw [hid] at ht
    rw [h.parked id ht, h.results id ht, h.stage id ht, h.leases id ht]
    exact hk.berth id hid

theorem runs (hk : Runs R b t) : Runs R b' t := by
  obtain ⟨m, hm, hc⟩ := hk
  refine ⟨m, hm, ?_⟩
  rw [h.wanted ht]
  exact hc.ofLeases fun id i p hl => (h.owned id ⟨t.id, i, p⟩ ht).mpr hl

end Untouched

/-- What holds of a task does not depend on other tasks. -/
theorem Keeps.frame {e : Task × Role} (hk : Keeps R b pool size e)
    (h : Untouched ids b b' pool pool') (he : e.1.id ∉ ids) : Keeps R b' pool' size e := by
  obtain ⟨t, role⟩ := e
  refine ⟨hk.1, ?_⟩
  have hk := hk.2
  cases role with
  | free => exact ⟨h.unowned he hk.1, hk.2⟩
  | ready =>
    refine ⟨h.working he hk.1, fun hf => h.runs he (hk.2.1 hf), fun hf => ?_⟩
    have hwanted := hk.2.2 hf
    rwa [← h.wanted he] at hwanted
  | active => exact ⟨h.working he hk.1, h.runs he hk.2⟩
  | ending outcome =>
    refine ⟨h.working he hk.1, ?_⟩
    have hwanted := hk.2
    rwa [← h.wanted he] at hwanted
  | parked outcome => exact h.due he hk
  | collected outcome => exact h.due he hk
  | dismissed => exact h.unowned he hk

theorem Keeps.working {e : Task × Role} (hk : Keeps R b pool size e) (hw : e.2.Works) :
    Working b pool e.1 := by
  obtain ⟨t, role⟩ := e
  have hk := hk.2
  cases role with
  | ready | active | ending => exact hk.1
  | free | parked | collected | dismissed => exact absurd hw (by simp [Role.Works])

/-! ### Replacing some entries -/

theorem nodup_everyone (waiting : Bool) (capacity : Nat) : (everyone waiting capacity).Nodup := by
  have hrange : ((List.range capacity).map some).Nodup :=
    List.nodup_range.map fun _ _ h => Option.some.inj h
  unfold everyone
  cases waiting with
  | false => exact hrange
  | true =>
    refine List.nodup_cons.mpr ⟨?_, hrange⟩
    simp

namespace Kept

variable (h : Kept R b size w waiting census)

include h

theorem perm {census' : List (Task × Role)} (hp : census.Perm census') :
    Kept R b size w waiting census' where
  holds := h.holds
  capacity := h.capacity
  complete := (hp.map _).symm.trans h.complete
  keeps e he := h.keeps e (hp.mem_iff.mpr he)
  owned id lease hl := by
    obtain ⟨e, he, hw⟩ := h.owned id lease hl
    exact ⟨e, hp.mem_iff.mp he, hw⟩
  berthed id t outcome ht := by
    obtain ⟨hid, hmem⟩ := h.berthed id t outcome ht
    exact ⟨hid, hp.mem_iff.mp hmem⟩

theorem nodup : (census.map (·.1.id)).Nodup :=
  h.complete.nodup_iff.mpr (nodup_everyone _ _)

/-- A task is in one place only. -/
theorem unique {e e' : Task × Role} (he : e ∈ census) (he' : e' ∈ census) (hid : e.1.id = e'.1.id) :
    e = e' :=
  List.inj_on_of_nodup_map h.nodup he he' hid

theorem lt_capacity {e : Task × Role} (he : e ∈ census) {id : TaskId} (hid : e.1.id = some id) :
    id < w.pool.capacity := by
  have hmem : some id ∈ everyone waiting w.pool.capacity :=
    h.complete.mem_iff.mp (List.mem_map.mpr ⟨e, he, hid⟩)
  unfold everyone at hmem
  cases waiting <;> simpa using hmem

end Kept

/-- Entries apart have different tasks. -/
theorem Kept.apart {old : List (Task × Role)} (h : Kept R b size w waiting (old ++ rest))
    {e : Task × Role} (he : e ∈ rest) : e.1.id ∉ old.map (·.1.id) := by
  have hnodup := h.nodup
  rw [List.map_append] at hnodup
  intro hmem
  exact (List.disjoint_of_nodup_append hnodup) hmem (List.mem_map.mpr ⟨e, he, rfl⟩)

/-- Some entries are replaced, and what concerns others does not change. -/
theorem Kept.exchange (old new : List (Task × Role)) (ids : List (Option TaskId))
    (h : Kept R b size w waiting (old ++ rest)) (hids : ∀ e ∈ old, e.1.id ∈ ids)
    (hu : Untouched ids b b' w.pool w'.pool) (hholds : R.holds w')
    (hcapacity : w'.pool.capacity = w.pool.capacity) (hsame : new.map (·.1.id) = old.map (·.1.id))
    (hnew : ∀ e ∈ new, Keeps R b' w'.pool size e)
    (hrest : ∀ e ∈ rest, e.1.id ∈ ids → Keeps R b' w'.pool size e)
    (howned : ∀ id lease, b'.leases id = some lease → lease.owner ∈ ids → ∃ e ∈ new ++ rest,
      e.2.Works ∧ e.1.id = lease.owner)
    (hberthed : ∀ id t outcome, some id ∈ ids → w'.pool.parked? id = some (t, outcome) →
      t.id = some id ∧ (t, .parked outcome) ∈ new ++ rest) :
    Kept R b' size w' waiting (new ++ rest) where
  holds := hholds
  capacity := hcapacity.trans h.capacity
  complete := by
    rw [List.map_append, hsame, ← List.map_append, hcapacity]
    exact h.complete
  keeps e he := by
    rcases List.mem_append.mp he with he | he
    · exact hnew e he
    · by_cases hmem : e.1.id ∈ ids
      · exact hrest e he hmem
      · exact (h.keeps e (List.mem_append_right old he)).frame hu hmem
  owned id lease hl := by
    by_cases hmem : lease.owner ∈ ids
    · exact howned id lease hl hmem
    · obtain ⟨e, he, hw, ho⟩ := h.owned id lease ((hu.owned id lease hmem).mp hl)
      rcases List.mem_append.mp he with he | he
      -- an owner that is not touched is none of those exchanged
      · exact absurd (ho ▸ hids e he) hmem
      · exact ⟨e, List.mem_append_right new he, hw, ho⟩
  berthed id t outcome ht := by
    by_cases hmem : some id ∈ ids
    · exact hberthed id t outcome hmem ht
    · rw [hu.parked id hmem] at ht
      obtain ⟨hid, he⟩ := h.berthed id t outcome ht
      rcases List.mem_append.mp he with he | he
      · have hin := hids _ he
        rw [hid] at hin
        exact absurd hin hmem
      · exact ⟨hid, List.mem_append_right new he⟩

/-- Some entries are replaced, and nothing changes but what concerns them. -/
theorem Kept.replace (old new : List (Task × Role)) (ids : List (Option TaskId))
    (h : Kept R b size w waiting (old ++ rest)) (hids : old.map (·.1.id) = ids)
    (hu : Untouched ids b b' w.pool w'.pool) (hholds : R.holds w')
    (hcapacity : w'.pool.capacity = w.pool.capacity) (hsame : new.map (·.1.id) = old.map (·.1.id))
    (hnew : ∀ e ∈ new, Keeps R b' w'.pool size e)
    (howned : ∀ id lease, b'.leases id = some lease → lease.owner ∈ ids →
      ∃ e ∈ new ++ rest, e.2.Works ∧ e.1.id = lease.owner)
    (hberthed : ∀ id t outcome, some id ∈ ids → w'.pool.parked? id = some (t, outcome) →
      t.id = some id ∧ (t, .parked outcome) ∈ new ++ rest) :
    Kept R b' size w' waiting (new ++ rest) :=
  h.exchange old new ids (fun _ he => hids ▸ List.mem_map.mpr ⟨_, he, rfl⟩) hu
    hholds hcapacity hsame hnew (fun _ he hmem => absurd (hids ▸ hmem) (h.apart he)) howned hberthed

end

end ForkLisp.Schedule
