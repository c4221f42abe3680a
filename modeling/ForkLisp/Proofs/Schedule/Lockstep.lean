/-
Workers that keep step.

Two crews of workers have tasks in their hands that are in step with each other, in worlds that are
alike. Then workers take tasks alike (`Hand.Alike.take`) and do the same in both
(`Hand.Alike.act?`): the same happens, the same tasks become runnable, and the crews are in step
again (`System.Alike.after`).
-/
import ForkLisp.Proofs.Machine.Lockstep
import ForkLisp.Schedule.Workers

namespace ForkLisp.Schedule

open ForkLisp.Code ForkLisp.Machine

/-- Two workers are at the same point of the same work. -/
inductive Hand.Alike (size : Nat) : Hand → Hand → Prop where
  | idle : Alike size .idle .idle
  | running {t t' : Task} (ht : Paired size t t') : Alike size (.running t) (.running t')
  | starting {t t' c c' : Task} (ht : Paired size t t') (hc : Paired size c c') :
      Alike size (.starting t c) (.starting t' c')
  | joining {t t' : Task} {r : Reg} {id : TaskId} (ht : Paired size t t')
      (ha : t.awaits? = some (r, id)) : Alike size (.joining t r id) (.joining t' r id)
  | joined {t t' c c' : Task} {r : Reg} {id : TaskId} {outcome : Outcome} (ht : Paired size t t')
      (ha : t.awaits? = some (r, id)) (hc : Parked size (c, outcome) (c', outcome)) :
      Alike size (.joined t r id c outcome) (.joined t' r id c' outcome)
  | suspending {t t' : Task} (ht : Paired size t t') : Alike size (.suspending t) (.suspending t')
  | ending {t t' : Task} {outcome : Outcome} (ht : t.Alike size t') (ho : Ends t outcome) :
      Alike size (.ending t outcome) (.ending t' outcome)
  | discarding {t t' c c' : Task} {outcome o : Outcome} (ht : t.Alike size t') (ho : Ends t outcome)
      (hc : Parked size (c, o) (c', o)) :
      Alike size (.discarding t outcome c) (.discarding t' outcome c')
  | releasing {t t' : Task} {outcome : Outcome} (ht : Parked size (t, outcome) (t', outcome)) :
      Alike size (.releasing t) (.releasing t')
  | lost : Alike size .lost .lost

/-- Two workers have done the same. -/
structure Deed.Alike (size : Nat) (d d' : Deed) : Prop where
  hand : Hand.Alike size d.hand d'.hand
  world : d.world.Alike size d'.world
  ready : Option.Rel (Paired size) d.ready d'.ready
  answer : d'.answer = d.answer
  event : d'.event = d.event

/-- Two crews are at the same point of the same work. -/
structure System.Alike (size : Nat) (s s' : System) : Prop where
  world : s.world.Alike size s'.world
  queued : List.Forall₂ (Paired size) s.queued s'.queued
  hands : List.Forall₂ (Hand.Alike size) s.hands s'.hands
  waiting : s'.waiting = s.waiting
  outcome : s'.outcome = s.outcome

variable {size : Nat}

/-! ### Deeds -/

section

variable {w w' : World} {hand hand' : Hand}

theorem Deed.Alike.quiet (hh : hand.Alike size hand') (hw : w.Alike size w') :
    Deed.Alike size (.quiet hand w) (.quiet hand' w') := ⟨hh, hw, .none, rfl, rfl⟩

/-- Workers have done the same who took the same step. -/
theorem Deed.Alike.ofStep {x x' : Step} (h : x.Alike size x') {e e' : Option Event} (he : e' = e) :
    Deed.Alike size (.ofStep e x) (.ofStep e' x') := by
  cases h with
  | next ht hw => exact ⟨.running ht, hw, .none, rfl, he⟩
  | spawned ht hc hw => exact ⟨.starting ht hc, hw, .none, rfl, he⟩
  | ended ht ho hw => exact ⟨.ending ht ho, hw, .none, rfl, he⟩
  | crashed hw => exact ⟨.lost, hw, .none, rfl, he⟩

end

/-- Tasks in step start the same tasks. -/
theorem eventOf_eq {t t' : Task} (ht : Paired size t t') {x x' : Step} (h : x.Alike size x') :
    eventOf t' x' = eventOf t x := by
  cases h with
  | spawned _ hc _ =>
    have hslot : t'.handleSlot? = t.handleSlot? := by
      cases ht.alike with
      | mk => rfl
    unfold eventOf
    dsimp only
    rw [hslot, hc.alike.id, ht.alike.id]
  | next | ended | crashed => rfl

/-- A frame fits on both stacks, or on neither. -/
theorem fits_eq {t t' : Task} (ht : t.Alike size t') : t'.fits = t.fits := by
  cases ht with
  | mk t p hsize =>
    unfold Task.fits
    rw [Task.on_lowered?, Task.on_lowered?]
    cases t.lowered? with
    | none => rfl
    | some l =>
      show decide (t.base + l.frameSize ≤ p.right.size) = decide
        (t.base + l.frameSize ≤ p.left.size)
      rw [p.size_eq]

theorem Hand.Alike.take {t t' : Task} (ht : Paired size t t') :
    Hand.Alike size (.take t) (.take t') := by
  unfold Hand.take
  rw [fits_eq ht.alike]
  split
  · exact .running ht
  · exact .ending ht.alike (ends_error t _)

/-- Whatever has ended, the tasks that it did not wait for are given up alike. -/
theorem Hand.Alike.ending_act? {t t' : Task} {outcome : Outcome} (ht : t.Alike size t')
    (ho : Ends t outcome) {w w' : World} (hw : w.Alike size w') :
    Option.Rel (Deed.Alike size) (Hand.act? w (.ending t outcome))
      (Hand.act? w' (.ending t' outcome)) := by
  cases ht with
  | mk t p hsize =>
    unfold Hand.act?
    simp only [Task.on_children, Task.on_id]
    cases hc : t.children with
    | nil =>
      cases hid : t.id with
      | none => exact .some ⟨.idle, hw, .none, rfl, rfl⟩
      | some id =>
        have hparked : Parked size (t.on p.left, outcome) (t.on p.right, outcome) :=
          ⟨.mk t p hsize, by rw [show (t.on p.left).id = t.id from rfl, hid]; rfl, rfl, ho.data⟩
        dsimp only
        rw [hw.pool.stage? id]
        split
        · exact .some ⟨.releasing hparked, hw, .none, rfl, rfl⟩
        · exact .some ⟨.idle, hw.withPool (hw.pool.finish hparked id), .none, rfl, rfl⟩
    | cons id rest =>
      -- so it is a fault
      have ho' : ∀ t' : Task, Ends t' outcome := fun t' =>
        ⟨ho.data, fun s hs => by cases hc.symm.trans (ho.children s hs)⟩
      dsimp only
      have hparked := hw.pool.parked? id
      generalize w.pool.parked? id = x, w'.pool.parked? id = x' at hparked
      cases hparked with
      | none =>
        exact .some ⟨.ending (.mk { t with children := rest } p hsize) (ho' _),
          hw.withPool (hw.pool.setStage id .detached), .none, rfl, rfl⟩
      | @some y y' hp =>
        obtain ⟨c, o⟩ := y
        obtain ⟨c', o'⟩ := y'
        obtain rfl : o' = o := hp.outcome
        exact .some ⟨.discarding (.mk { t with children := rest } p hsize) (ho' _) hp,
          hw.withPool (hw.pool.setParked id .none), .none, rfl, rfl⟩

/-- Workers at the same point do the same, or have nothing to do. -/
theorem Hand.Alike.act? {hand hand' : Hand} (h : hand.Alike size hand') {w w' : World}
    (hw : w.Alike size w') : Option.Rel (Deed.Alike size) (hand.act? w) (hand'.act? w') := by
  cases h with
  | idle | lost => exact .none
  | @running t t' ht =>
    unfold Hand.act?
    dsimp only
    rw [ht.awaits?_eq]
    cases hawaits : t.awaits? with
    | none =>
      have hstep := ht.step hw hawaits
      exact .some (.ofStep hstep (eventOf_eq ht hstep))
    | some p =>
      obtain ⟨r, id⟩ := p
      dsimp only
      rw [hw.pool.hasEnded id]
      split
      · exact .some (.quiet (.joining ht hawaits) hw)
      · exact .some (.quiet (.suspending ht) hw)
  | starting ht hc => exact .some ⟨.running ht, hw, .some hc, rfl, rfl⟩
  | @joining t t' r id ht ha =>
    unfold Hand.act?
    dsimp only
    have hparked := hw.pool.parked? id
    generalize w.pool.parked? id = x, w'.pool.parked? id = x' at hparked
    cases hparked with
    | none => exact .some (.quiet (.suspending ht) hw)
    | @some y y' hp =>
      obtain ⟨c, o⟩ := y
      obtain ⟨c', o'⟩ := y'
      obtain rfl : o' = o := hp.outcome
      exact .some (.quiet (.joined ht ha hp) (hw.withPool (hw.pool.setParked id .none)))
  | @joined t t' c c' r id outcome ht ha hc =>
    have hstep := ht.resume (hw.withPool (hw.pool.release hc.alike hc.pooled)) ha hc.data
    refine .some (.ofStep hstep ?_)
    rw [ht.alike.id, ht.alike.base]
  | suspending ht => exact .some ⟨.idle, hw, .some ht, rfl, rfl⟩
  | ending ht ho => exact Hand.Alike.ending_act? ht ho hw
  | discarding ht ho hc =>
    exact .some (.quiet (.ending ht ho) (hw.withPool (hw.pool.release hc.alike hc.pooled)))
  | releasing ht => exact .some (.quiet .idle (hw.withPool (hw.pool.release ht.alike ht.pooled)))

/-! ### Crews -/

namespace System.Alike

variable {s s' : System}

/-- A worker has done something in both crews. -/
theorem after (h : s.Alike size s') {left left' right right' : List Hand} {d d' : Deed}
    (hl : List.Forall₂ (Hand.Alike size) left left')
    (hr : List.Forall₂ (Hand.Alike size) right right') (hd : d.Alike size d') :
    (s.after left right d).Alike size (s'.after left' right' d') where
  world := hd.world
  queued := by
    refine List.rel_append h.queued ?_
    have hready := hd.ready
    generalize d.ready = x, d'.ready = x' at hready
    cases hready with
    | none => exact .nil
    | some ht => exact .cons ht .nil
  hands := List.rel_append hl (.cons hd.hand hr)
  waiting := by
    show (s'.waiting && d'.answer.isNone) = (s.waiting && d.answer.isNone)
    rw [h.waiting, hd.answer]
  outcome := by
    show d'.answer.or s'.outcome = d.answer.or s.outcome
    rw [h.outcome, hd.answer]

theorem submit (h : s.Alike size s') {t t' : Task} (ht : Paired size t t') :
    (s.submit t).Alike size (s'.submit t') :=
  ⟨h.world, List.rel_append h.queued (.cons ht .nil), h.hands, rfl, rfl⟩

end System.Alike

end ForkLisp.Schedule
