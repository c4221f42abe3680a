/-
Workers and programs with the same functions.

Two crews have the same tasks in their hands, but for the programs that these belong to, and the two
programs agree. Then the crews do the same (`Hand.Twin.act?`). So whatever comes of a program may
come of one that agrees with it (`System.start_shows`).
-/
import ForkLisp.Proofs.Machine.Tables
import ForkLisp.Proofs.Pairing
import ForkLisp.Schedule.Workers

namespace ForkLisp.Schedule

open ForkLisp.Code ForkLisp.Machine

/-! ### Runs -/

/-- What workers may come to, with all that happens before. -/
inductive System.Reaches (s : System) : List Event → System → Prop where
  | refl : Reaches s [] s
  | step {events : List Event} {e : Option Event} {s' s'' : System} (h : Reaches s events s')
      (hm : s'.Moves e s'') : Reaches s (events ++ e.toList) s''

/-- Workers that have a program to run and nothing else to do. -/
def System.start (workers poolSize stackSize : Nat) (globals : Array Slot)
    (program : Program) : System :=
  (System.new workers ⟨globals, #[], .ofSize poolSize stackSize⟩).submit (.root stackSize program)

/-- What is seen of workers from outside: whether their program has come to its end, its outcome,
the globals, and the lines that were printed. -/
structure System.View where
  waiting : Bool
  outcome : Option Outcome
  globals : Array Slot
  printed : Array String

/-- What is seen of workers. -/
def System.view (s : System) : System.View :=
  ⟨s.waiting, s.outcome, s.world.globals, s.world.printed⟩

/-- Something may happen and something may be seen then. -/
def System.Shows (s : System) (events : List Event) (view : System.View) : Prop :=
  ∃ s', s.Reaches events s' ∧ s'.view = view

/-! ### Twins -/

/-- Two workers have the same in their hands, but for the programs of tasks. -/
inductive Hand.Twin (n : Nat) (p p' : Program) : Hand → Hand → Prop where
  | idle : Twin n p p' .idle .idle
  | running {t t' : Task} (ht : t.Twin n p p' t') : Twin n p p' (.running t) (.running t')
  | starting {t t' c c' : Task} (ht : t.Twin n p p' t') (hc : c.Twin n p p' c') :
      Twin n p p' (.starting t c) (.starting t' c')
  | joining {t t' : Task} {r : Reg} {id : TaskId} (ht : t.Twin n p p' t') :
      Twin n p p' (.joining t r id) (.joining t' r id)
  | joined {t t' c c' : Task} {r : Reg} {id : TaskId} {outcome : Outcome} (ht : t.Twin n p p' t')
      (hc : ParkedTwin n p p' (c, outcome) (c', outcome)) :
      Twin n p p' (.joined t r id c outcome) (.joined t' r id c' outcome)
  | suspending {t t' : Task} (ht : t.Twin n p p' t') : Twin n p p' (.suspending t) (.suspending t')
  | ending {t t' : Task} {outcome : Outcome} (ht : t.Twin n p p' t')
      (ho : Outcome.Below n outcome) : Twin n p p' (.ending t outcome) (.ending t' outcome)
  | discarding {t t' c c' : Task} {outcome : Outcome} (ht : t.Twin n p p' t')
      (ho : Outcome.Below n outcome) (hc : c.Twin n p p' c') :
      Twin n p p' (.discarding t outcome c) (.discarding t' outcome c')
  | releasing {t t' : Task} (ht : t.Twin n p p' t') : Twin n p p' (.releasing t) (.releasing t')
  | lost : Twin n p p' .lost .lost

/-- Two workers have done the same. -/
structure Deed.Twin (n : Nat) (p p' : Program) (d d' : Deed) : Prop where
  hand : d.hand.Twin n p p' d'.hand
  world : d.world.Twin n p p' d'.world
  ready : Option.Rel (Task.Twin n p p') d.ready d'.ready
  answer : d'.answer = d.answer
  event : d'.event = d.event

/-- Two crews have the same to do, but for the programs of tasks. -/
structure System.Twin (n : Nat) (p p' : Program) (s s' : System) : Prop where
  world : s.world.Twin n p p' s'.world
  queued : List.Forall₂ (Task.Twin n p p') s.queued s'.queued
  hands : List.Forall₂ (Hand.Twin n p p') s.hands s'.hands
  waiting : s'.waiting = s.waiting
  outcome : s'.outcome = s.outcome

variable {n : Nat} {p p' : Program}

section

variable {w w' : World} {hand hand' : Hand} {t t' : Task}

theorem Deed.Twin.quiet (hh : hand.Twin n p p' hand') (hw : w.Twin n p p' w') :
    Deed.Twin n p p' (.quiet hand w) (.quiet hand' w') := ⟨hh, hw, .none, rfl, rfl⟩

theorem Deed.Twin.ofStep {x x' : Step} (h : x.Twin n p p' x') {e e' : Option Event} (he : e' = e) :
    Deed.Twin n p p' (.ofStep e x) (.ofStep e' x') := by
  cases h with
  | next ht hw => exact ⟨.running ht, hw, .none, rfl, he⟩
  | spawned ht hc hw => exact ⟨.starting ht hc, hw, .none, rfl, he⟩
  | suspended ht hw => exact ⟨.suspending ht, hw, .none, rfl, he⟩
  | ended ht ho hw => exact ⟨.ending ht ho, hw, .none, rfl, he⟩
  | crashed hw => exact ⟨.lost, hw, .none, rfl, he⟩

theorem eventOf_twin (hp : p.Agree n p') (ht : t.Twin n p p' t') {x x' : Step}
    (h : x.Twin n p p' x') : eventOf t' x' = eventOf t x := by
  cases h with
  | spawned _ hc _ =>
    unfold eventOf
    dsimp only
    rw [ht.handleSlot? hp, hc.id, ht.id]
  | next | suspended | ended | crashed => rfl

theorem Hand.Twin.take (hp : p.Agree n p') (ht : t.Twin n p p' t') :
    Hand.Twin n p p' (.take t) (.take t') := by
  unfold Hand.take
  rw [ht.fits hp]
  split
  · exact .running ht
  · exact .ending ht (Outcome.below_error _)

theorem Hand.Twin.ending_act? (ht : t.Twin n p p' t') {outcome : Outcome}
    (ho : Outcome.Below n outcome) (hw : w.Twin n p p' w') :
    Option.Rel (Deed.Twin n p p') (Hand.act? w (.ending t outcome))
      (Hand.act? w' (.ending t' outcome)) := by
  cases ht with
  | mk t hcode hstack =>
    unfold Hand.act?
    simp only [Task.under_children, Task.under_id]
    cases hc : t.children with
    | nil =>
      cases hid : t.id with
      | none => exact .some ⟨.idle, hw, .none, rfl, rfl⟩
      | some id =>
        dsimp only
        rw [hw.pool.stage? id]
        split
        · exact .some ⟨.releasing (.mk t hcode hstack), hw, .none, rfl, rfl⟩
        · exact .some ⟨.idle, hw.withPool (hw.pool.finish (.mk t hcode hstack) ho id),
            .none, rfl, rfl⟩
    | cons id rest =>
      have hrest : Task.Twin n p p' { t.under p with children := rest }
          { t.under p' with children := rest } := .mk { t with children := rest } hcode hstack
      dsimp only
      have hparked := hw.pool.parked? id
      generalize w.pool.parked? id = x, w'.pool.parked? id = x' at hparked
      cases hparked with
      | none => exact .some ⟨.ending hrest ho, hw.withPool (hw.pool.setStage id .detached),
          .none, rfl, rfl⟩
      | some hx =>
        exact .some ⟨.discarding hrest ho hx.task, hw.withPool (hw.pool.setParked id .none),
          .none, rfl, rfl⟩

/-- Workers do the same, or have nothing to do. -/
theorem Hand.Twin.act? (hp : p.Agree n p') (h : hand.Twin n p p' hand') (hw : w.Twin n p p' w') :
    Option.Rel (Deed.Twin n p p') (hand.act? w) (hand'.act? w') := by
  cases h with
  | idle | lost => exact .none
  | @running t t' ht =>
    unfold Hand.act?
    dsimp only
    rw [ht.awaits? hp]
    cases hawaits : t.awaits? with
    | none =>
      have hstep := ht.step hp hw
      exact .some (.ofStep hstep (eventOf_twin hp ht hstep))
    | some q =>
      obtain ⟨r, id⟩ := q
      dsimp only
      rw [hw.pool.hasEnded id]
      split
      · exact .some (.quiet (.joining ht) hw)
      · exact .some (.quiet (.suspending ht) hw)
  | starting ht hc => exact .some ⟨.running ht, hw, .some hc, rfl, rfl⟩
  | @joining t t' r id ht =>
    unfold Hand.act?
    dsimp only
    have hparked := hw.pool.parked? id
    generalize w.pool.parked? id = x, w'.pool.parked? id = x' at hparked
    cases hparked with
    | none => exact .some (.quiet (.suspending ht) hw)
    | @some y y' hy =>
      obtain ⟨c, o⟩ := y
      obtain ⟨c', o'⟩ := y'
      obtain rfl : o' = o := hy.outcome
      exact .some (.quiet (.joined ht hy) (hw.withPool (hw.pool.setParked id .none)))
  | @joined t t' c c' r id outcome ht hc =>
    have hstep := ht.resume (hw.withPool (hw.pool.release hc.task)) hc.below r id
    refine .some (.ofStep hstep ?_)
    cases ht with
    | mk => rfl
  | suspending ht => exact .some ⟨.idle, hw, .some ht, rfl, rfl⟩
  | ending ht ho => exact Hand.Twin.ending_act? ht ho hw
  | discarding ht ho hc => exact .some (.quiet (.ending ht ho) (hw.withPool (hw.pool.release hc)))
  | releasing ht => exact .some (.quiet .idle (hw.withPool (hw.pool.release ht)))

end

/-! ### Crews -/

namespace System

variable {s s' : System}

/-- Whatever happens in one crew may happen in the other. -/
theorem Twin.moves (hp : p.Agree n p') (h : s.Twin n p p' s') {e : Option Event} {u : System}
    (hm : s.Moves e u) : ∃ u', s'.Moves e u' ∧ u.Twin n p p' u' := by
  have hhands := h.hands
  cases hm with
  | @take left right before after t hands queued =>
    have hqueued := h.queued
    rw [hands] at hhands
    rw [queued] at hqueued
    obtain ⟨left', hand, right', hands', hleft, hidle, hright⟩ := exists_of_append_forall₂ hhands
    obtain ⟨before', t', after', queued', hbefore, ht, hafter⟩ := exists_of_append_forall₂ hqueued
    cases hidle
    exact ⟨_, .take hands' queued', h.world, List.rel_append hbefore hafter,
      List.rel_append hleft (.cons (.take hp ht) hright), h.waiting, h.outcome⟩
  | @act left right hand d hands act =>
    rw [hands] at hhands
    obtain ⟨left', hand', right', hands', hleft, hhand, hright⟩ := exists_of_append_forall₂ hhands
    have hact := hhand.act? hp h.world
    rw [act] at hact
    generalize hd : hand'.act? s'.world = x at hact
    cases hact with
    | @some _ d' hdeed =>
      refine ⟨s'.after left' right' d', hdeed.event ▸ .act hands' hd, ?_⟩
      have hready : List.Forall₂ (Task.Twin n p p') d.ready.toList d'.ready.toList := by
        have hready := hdeed.ready
        generalize d.ready = x, d'.ready = x' at hready
        cases hready with
        | none => exact .nil
        | some ht => exact .cons ht .nil
      refine ⟨hdeed.world, List.rel_append h.queued hready,
        List.rel_append hleft (.cons hdeed.hand hright), ?_, ?_⟩
      · exact congrArg₂ (fun b o => b && Option.isNone o) h.waiting hdeed.answer
      · exact congrArg₂ (fun a o => Option.or a o) hdeed.answer h.outcome

theorem Twin.reaches (hp : p.Agree n p') (h : s.Twin n p p' s') {events : List Event} {u : System}
    (hr : s.Reaches events u) : ∃ u', s'.Reaches events u' ∧ u.Twin n p p' u' := by
  induction hr with
  | refl => exact ⟨s', .refl, h⟩
  | step _ hm ih =>
    obtain ⟨v, hv, hvtwin⟩ := ih
    obtain ⟨u', hu, htwin⟩ := hvtwin.moves hp hm
    exact ⟨u', .step hv hu, htwin⟩

theorem Twin.view (h : s.Twin n p p' s') : s'.view = s.view := by
  unfold System.view
  rw [h.waiting, h.outcome, h.world.globals, h.world.printed]

variable {workers poolSize stackSize : Nat} {globals : Array Slot}

theorem twin_start (hg : ∀ s ∈ globals, s.Below n) :
    (System.start workers poolSize stackSize globals p).Twin n p p'
      (System.start workers poolSize stackSize globals p') where
  world := by
    refine ⟨rfl, hg, rfl, fun id => ?_, rfl, fun t ht s hs => ?_⟩
    · show Option.Rel _ (Array.replicate poolSize _)[id]? (Array.replicate poolSize _)[id]?
      rw [Array.getElem?_replicate]
      split
      · exact .some ⟨rfl, .none⟩
      · exact .none
    · obtain ⟨id, -, rfl⟩ := List.mem_map.mp ht
      rw [Array.eq_of_mem_replicate hs]
      trivial
  queued := by
    refine .cons (.mk (.root stackSize p) trivial fun s hs => ?_) .nil
    rw [Array.eq_of_mem_replicate hs]
    trivial
  hands := by
    refine List.forall₂_same.mpr fun hand hh => ?_
    rw [List.eq_of_mem_replicate hh]
    exact .idle
  waiting := rfl
  outcome := rfl

/-- Two programs that agree do the same, and are seen to come to the same. -/
theorem start_shows (hp : p.Agree n p') (hg : ∀ s ∈ globals, s.Below n) (events : List Event)
    (view : System.View) :
    (System.start workers poolSize stackSize globals p).Shows events view ↔
      (System.start workers poolSize stackSize globals p').Shows events view := by
  have hshows : ∀ {p p' : Program}, p.Agree n p' →
      (System.start workers poolSize stackSize globals p).Shows events view →
        (System.start workers poolSize stackSize globals p').Shows events view := by
    rintro p p' hp ⟨s, hs, rfl⟩
    obtain ⟨s', hs', htwin⟩ := (twin_start hg).reaches hp hs
    exact ⟨s', hs', htwin.view⟩
  exact ⟨hshows hp, hshows hp.symm⟩

end System

end ForkLisp.Schedule
