/-
Sessions with and without tasks.

The same forms are given to a session that starts no tasks and does not optimize, and to one with
many workers. They define the same functions in both (`counterparts_of_passes`). If a form then
neither assigns nor prints, and no task is left from earlier forms, then it does not matter for its
outcome how the workers take turns (`schedule_independent`).
-/
import Mathlib
import ForkLisp.Proofs.Reference.Forking
import ForkLisp.Proofs.Session.Parallel
import ForkLisp.Proofs.Session.Reference

namespace ForkLisp.Session

open ForkLisp.Code ForkLisp.Compile ForkLisp.Machine ForkLisp.Reader ForkLisp.Reference
  ForkLisp.Behaviour ForkLisp.Schedule ForkLisp.Terms

/-! ### The same forms in both -/

/-- A session without tasks and one with many workers in which the same functions are defined. -/
structure Counterparts (solo settings : Settings) (s : State) (p : Parallel) (r : Definitions)
    (b : Books Unit) : Prop where
  sound : Sound solo s r
  tended : Parallel.Tended settings p r.closures b
  resembles : s.context.Resembles p.context

section

variable {solo settings : Settings} {s : State} {p : Parallel} {r : Definitions} {b : Books Unit}

/-- In contexts that resemble each other the same closure is learned from a form. -/
theorem learned_eq {c c' : Context} (h : c.Resembles c') (f : Form) :
    learned f (compile c' f) = learned f (compile c f) := by
  obtain ⟨hcontext, halike⟩ := h.compile f
  unfold learned
  rw [hcontext.names]
  generalize (compile c f).outcome = o at halike
  generalize (compile c' f).outcome = o' at halike
  cases o with
  | error e =>
    cases o' with
    | error e' => rfl
    | ok r' => exact halike.elim
  | ok r =>
    cases o' with
    | error e' => exact halike.elim
    | ok r' =>
      cases r with
      | function name =>
        cases r' with
        | function name' =>
          obtain rfl : name = name' := halike
          rfl
        | entry => exact halike.elim
      | entry =>
        cases r' with
        | function => exact halike.elim
        | entry => rfl

/-- A session learns the closure of a form that is evaluated. -/
theorem Sound.closures_learn (h : Sound solo s r) (f : Form) :
    (r.learn f (s.evaluateForm f).outcome).closures = r.closures ++ learned f
      (compile s.context f) := by
  have hnames := (h.compiled f).names
  have hr := compile_arises s.context f
  unfold State.evaluateForm
  generalize compile s.context f = compiled at hr hnames
  unfold learned
  cases hr with
  | failed => rw [List.append_nil]; rfl
  | @defined d own k ts log hd =>
    simp only [hd, Definitions.learn_ok hd] at hnames ⊢
    show r.closures ++ _ = _
    rw [show (own.complete s.context.functions.size k (bodyCode ts d.params.length)
      (finalCode own (some s.context.functions.size) (bodyCode ts d.params.length)).1).names =
        r.names.insert d.name r.closures.length from hnames]
  | entry hd =>
    rw [Definitions.learn_of_none (definition?_eq_none hd)]
    exact (List.append_nil _).symm

/-- Submitting a form leaves the context that compiling it leaves, but for the values of globals. -/
theorem submit_resembles {closures : List Closure} (h : Traced p.context closures) (f : Form) :
    (compile p.context f).context.Resembles (p.submit f).context := by
  have htraced := (compile_arises p.context f).traced h
  unfold Parallel.submit
  dsimp only
  split
  · rw [functionTable_eq htraced]
    exact ⟨rfl, rfl, rfl⟩
  · exact .refl _

/-- After the same forms both sessions define the same functions. -/
theorem counterparts_of_passes (hsolo : Solitary solo) {fs : List Form}
    (h : (Parallel.new settings).Passes fs p) :
    ∃ r b, Counterparts solo settings ((State.new solo).pass fs) p r b := by
  induction h with
  | refl =>
    exact ⟨.empty, Books.empty, sound_new solo, Parallel.tended_new settings, rfl, rfl, rfl⟩
  | work _ hm ih =>
    obtain ⟨r, b, hsound, htended, hresembles⟩ := ih
    obtain ⟨b', -, hgoverned⟩ := htended.governed.moves (looseRegime_sound _ _) hm
    exact ⟨r, b', hsound, ⟨htended.configured, htended.traced, htended.data, hgoverned⟩, hresembles⟩
  | @submit fs p _ f hw ih =>
    obtain ⟨r, b, hsound, htended, hresembles⟩ := ih
    generalize hs : (State.new solo).pass fs = s at hsound hresembles
    have hpass : (State.new solo).pass (fs ++ [f]) = s.next f := by
      unfold State.pass at hs ⊢
      rw [List.foldl_append, hs]
      rfl
    rw [hpass]
    refine ⟨r.learn f (s.evaluateForm f).outcome, b, hsound.keeps hsolo f, ?_, ?_⟩
    · rw [hsound.closures_learn f, ← learned_eq hresembles f]
      exact htended.submit f hw
    · exact (evaluateForm_resembles s hsound f).symm.trans
        ((hresembles.compile f).1.trans (submit_resembles htended.traced f))

end

/-! ### Forms that leave the memory alone -/

/-- The code that may be run once some code is: the code itself, and that of the
functions called. -/
inductive Reachable (c : Context) (code : ForkLisp.Code) : ForkLisp.Code → Prop where
  | self : Reachable c code code
  | callee {code' : ForkLisp.Code} {i : Inst} {id : FuncId} {f : Function}
      (h : Reachable c code code')
      (hi : i ∈ code') (hid : i.callee? = some id) (hf : c.function? id = some f) :
      Reachable c code f.code

/-- Neither code nor the functions that it may call assign to a global or print. -/
def Calm (c : Context) (code : ForkLisp.Code) : Prop :=
  ∀ code', Reachable c code code' → ∀ i ∈ code', writes i = false

/-- It suffices to look at the code and at all functions. -/
theorem calm_of_all {c : Context} {code : ForkLisp.Code} (h : ∀ i ∈ code, writes i = false)
    (hc : ∀ f ∈ c.functions, ∀ i ∈ f.code, writes i = false) : Calm c code := by
  intro code' hr
  cases hr with
  | self => exact h
  | callee _ _ _ hf => exact hc _ (Array.mem_of_getElem? hf)

/-- The functions that are called once some code is run. -/
def Called (c : Context) (code : ForkLisp.Code) (id : FuncId) : Prop :=
  ∃ code' i, Reachable c code code' ∧ i ∈ code' ∧ i.callee? = some id

theorem Calm.mild {c : Context} {code code' : ForkLisp.Code} (h : Calm c code)
    (hr : Reachable c code code') : ∀ i ∈ code', Mild (Called c code) i :=
  fun i hi => ⟨h code' hr i hi, fun _ hid => ⟨code', i, hr, hi, hid⟩⟩

/-- In a context that does not optimize, the closures of calm code assign nothing and
print nothing. -/
theorem Calm.keeps {c : Context} {closures : List Closure} {code : ForkLisp.Code} (h : Calm c code)
    (htraced : Traced c closures) (hopt : c.settings.optimize = false) :
    ∀ id cl, closures[id]? = some cl → Called c code id →
      KeepAll (Called c code) False cl.names cl.body := by
  rintro id cl hcl ⟨code', i, hr, hi, hid⟩
  have hlt : id < c.functions.size := by
    rw [← htraced.length]
    exact (List.getElem?_eq_some_iff.mp hcl).1
  have hf : c.function? id = some c.functions[id] := Array.getElem?_eq_getElem hlt
  obtain ⟨own, cl', ts, hcl', horigin⟩ := htraced.origin id _ hf
  obtain rfl := Option.some.inj (hcl.symm.trans hcl')
  rw [horigin.names]
  have hmild := h.mild (hr.callee hi hid hf)
  rw [horigin.generated_code hopt] at hmild
  exact horigin.body.keeps hmild

/-! ### One program alone -/

/-- An outcome that is possible for a computation. -/
def Accords (free : Failure → Prop) (mem : Memory) (x : Eval Datum) (outcome : Outcome) : Prop :=
  match outcome with
  | .ok slot => ∃ v : Datum, slot = v.slot ∧ Settles free mem x (.value v ())
  | .error e => Settles free mem x (.fault e ())

/-- Where the evaluator comes to a value, so do the workers, or the stack overflows. -/
theorem Accords.of_value {free : Failure → Prop} {mem mem' : Memory} {x : Eval Datum}
    {outcome : Outcome} (h : Accords free mem x outcome) {v : Datum}
    (hx : x mem = some (.ok v, mem')) :
    outcome = .ok v.slot ∨ outcome = .error .stackOverflow := by
  cases outcome with
  | ok slot =>
    obtain ⟨u, rfl, hu⟩ := h
    rcases hu _ _ hx with heq | ⟨e, heq, -⟩
    · cases heq
      exact .inl rfl
    · cases heq
  | error e =>
    rcases h with rfl | hnot
    · exact .inr rfl
    · exact absurd hx (hnot v mem')

/-- Where the evaluator comes to a fault that is not free, so do the workers. -/
theorem Accords.of_fault {free : Failure → Prop} {mem mem' : Memory} {x : Eval Datum}
    {outcome : Outcome} (h : Accords free mem x outcome) {e : Failure}
    (hx : x mem = some (.error e, mem')) (he : ¬ free e) :
    ∃ e', outcome = .error e' := by
  cases outcome with
  | ok slot =>
    obtain ⟨u, rfl, hu⟩ := h
    rcases hu _ _ hx with heq | ⟨e', heq, hfree⟩
    · cases heq
    · cases heq
      exact absurd hfree he
  | error e' => exact ⟨e', rfl⟩

/-- What is asked of tasks that all run one program. -/
def soleRegime {H : Type} (capacity : Nat) (program : Program) (m : Meaning Datum H Unit)
    (holds : World → Prop) (wanted : Outcome → Prop) : Regime H where
  capacity := capacity
  Means p m' := p = program ∧ m' = m
  holds := holds
  delivers h outcome := Delivers m h outcome ()
  wanted := wanted

theorem soleRegime_sound {H : Type} {capacity : Nat} {program : Program} {m : Meaning Datum H Unit}
    {holds : World → Prop} {wanted : Outcome → Prop} (hp : program.Fulfils m)
    (hm : Describes m fun w _ => holds w)
    (hd : ∀ n args, ¬ m.spawn n args () .stuck → Detachable m n args ()) :
    (soleRegime capacity program m holds wanted).Sound where
  fulfils := by
    rintro _ _ ⟨rfl, rfl⟩
    exact hp
  describes := by
    rintro _ _ ⟨-, rfl⟩
    exact hm
  detachable := by
    rintro _ _ n args ⟨-, rfl⟩
    exact hd n args
  delivers_iff := by
    rintro _ _ h o ⟨-, rfl⟩
    exact Iff.rfl
  pool w pool := hm.pool w () pool

section

variable {settings : Settings} {p q : Parallel} {closures : List Closure} {b : Books Unit}
  {free : Failure → Prop} {calls : FuncId → Prop} {mem : Memory} {own : Context} {f : Form}
  {ts : List Term} {k : Kind} {log : List String}

/-- The program of a form. -/
def formProgram (own : Context) (ts : List Term) : Program :=
  ⟨own.currentTable, lower (finalCode own none (bodyCode ts 0)).1 0⟩

/-- What the functions of a context mean to a form that leaves the memory alone. -/
def formMeaning (free : Failure → Prop) (calls : FuncId → Prop) (closures : List Closure)
    (mem : Memory) (own : Context) : Meaning Datum (FuncId × List Datum) Unit :=
  forking free (own.settings.spawn = true) own calls (closures[·]?) mem (scopeOf own).arity

theorem interprets_formMeaning
    (hfree : own.settings.optimize = true → ∀ got, free (.lax (.typeMismatch got)))
    (hdefs : ∀ id cl, closures[id]? = some cl → calls id → KeepAll calls False cl.names cl.body) :
    Interprets own (closures[·]?) (forkingSpec free (own.settings.spawn = true) own calls mem)
      (formMeaning free calls closures mem own) :=
  interprets_forking hfree hdefs

/-- What is asked of the tasks of a form that leaves the memory alone. -/
def formRegime (free : Failure → Prop) (calls : FuncId → Prop) (closures : List Closure)
    (mem : Memory) (own : Context) (f : Form) (ts : List Term) : Regime (FuncId × List Datum) :=
  soleRegime own.settings.poolSize (formProgram own ts) (formMeaning free calls closures mem own)
    (fun w => Contains own mem w.globals)
      (Accords free mem (evaluate (closures[·]?) own.names [] f))

theorem formRegime_sound (htraced : Traced own closures)
    (hfree : own.settings.optimize = true → ∀ got, free (.lax (.typeMismatch got)))
    (hdefs : ∀ id cl, closures[id]? = some cl → calls id → KeepAll calls False cl.names cl.body) :
    (formRegime free calls closures mem own f ts).Sound :=
  soleRegime_sound (htraced.fulfils (interprets_formMeaning hfree hdefs) _) forking_describes
    fun _ _ hs => forking_detachable hs

/-- A form that leaves the memory alone is submitted when all pooled tasks are free. -/
theorem Parallel.Tended.start (h : Parallel.Tended settings p closures b)
    (hwaiting : p.system.waiting = false)
    (hpool : p.system.world.pool.available = settings.poolSize)
    (hcompile : compile p.context f =
      ⟨own, log, .ok (.entry (lower (finalCode own none (bodyCode ts 0)).1 0))⟩)
    (hb : ResolvesBody (scopeOf own) [] [f] ts k)
    (hfree : own.settings.optimize = true → ∀ got, free (.lax (.typeMismatch got)))
    (hdefs : ∀ id cl, closures[id]? = some cl → calls id → KeepAll calls False cl.names cl.body)
    (hkeeps : Keeps calls False own.names f)
    (hmem : Contains own mem (Parallel.withGlobals p.system.world own).globals) :
    Governed (formRegime free calls closures mem own f ts) Books.empty settings.taskStackSize
      (p.submit f).system := by
  have hr := compile_arises p.context f
  rw [hcompile] at hr
  have hsettings : own.settings = settings := hr.settings.trans h.configured
  have htraced : Traced own closures := by
    have htraced := hr.traced h.traced
    rwa [show learned f _ = [] from rfl, List.append_nil] at htraced
  have hcapacity : p.system.world.pool.capacity = settings.poolSize := h.governed.kept.capacity
  have hi : Interprets own (closures[·]?) _ (formMeaning free calls closures mem own) :=
    interprets_formMeaning hfree hdefs
  have hrestart : Governed (formRegime free calls closures mem own f ts) Books.empty
      settings.taskStackSize { p.system with
        world := Parallel.withGlobals p.system.world own, outcome := none } :=
    h.governed.restart hwaiting (hpool.trans hcapacity.symm)
      (congrArg Settings.poolSize hsettings) hmem
  -- the program of the form accords with the evaluator, whatever it comes to
  have hentry : Entry (formMeaning free calls closures mem own)
      (fun outcome _ => Accords free mem (evaluate (closures[·]?) own.names [] f) outcome)
      (formProgram own ts) () :=
    { not_stuck := fun hs => (htraced.entry_agrees hi hb hkeeps hs).1
      value := fun v _ hv => ⟨v, rfl, (htraced.entry_agrees hi hb hkeeps hv).1⟩
      fault := fun e _ he => (htraced.entry_agrees hi hb hkeeps he).1
      overflow := .inl rfl }
  unfold Parallel.submit
  rw [hcompile]
  dsimp only
  rw [functionTable_eq htraced]
  -- a program that does not fit on the stack ends with an overflow, which accords as well
  refine hrestart.submit hwaiting rfl rfl ?_ (fun hfits => ?_) (.inl rfl)
  · show (Array.replicate own.settings.taskStackSize Slot.empty).size = _
    rw [Array.size_replicate, hsettings]
  · exact ⟨_, ⟨rfl, rfl⟩, hentry.conducts _ rfl rfl rfl rfl hfits⟩

end

/-! ### The same globals in both -/

/-- A session with other values in its globals. -/
def State.holding (s : State) (globals : Array Slot) : State :=
  { s with context := s.context.withGlobalValues globals }

section

variable {solo settings : Settings} {s : State} {p q : Parallel} {r : Definitions} {b : Books Unit}
  {f : Form} {globals : Array Slot}

theorem Sound.holding (h : Sound solo s r)
    (hdata : ∀ (i : Nat) slot, globals[i]? = some slot → ∃ v : Datum, slot = v.slot) :
    Sound solo (s.holding globals) r where
  configured := h.configured
  traced := traced_withGlobalValues h.traced globals
  names := h.names
  sorted := h.sorted
  data v hv := by
    obtain ⟨i, hi⟩ := Array.mem_iff_getElem?.mp hv
    have hi : (s.context.withGlobalValues globals).globals[i]? = some v := hi
    rw [withGlobalValues_getElem?] at hi
    obtain ⟨u, hu, rfl⟩ := Option.map_eq_some_iff.mp hi
    show ∃ x : Datum, globals.getD i u.value = x.slot
    rw [Array.getD_eq_getD_getElem?]
    cases hg : globals[i]? with
    | none => exact h.data u (Array.mem_of_getElem? hu)
    | some slot => exact hdata i slot hg
  idle := h.idle
  pool := h.pool

theorem holding_resembles (s : State) (globals : Array Slot) :
    (s.holding globals).context.Resembles s.context := by
  refine ⟨rfl, rfl, Array.ext_getElem? fun i => ?_⟩
  show (s.context.globals.map _)[i]? = ((s.context.withGlobalValues globals).globals.map _)[i]?
  rw [Array.getElem?_map, Array.getElem?_map, withGlobalValues_getElem?, Option.map_map]
  rfl

/-- The globals of a world, and those that compiling a form has added, have the same contents as in
the session without tasks. -/
theorem Counterparts.contains (h : Counterparts solo settings s p r b) (f : Form) :
    Contains (compile p.context f).context ⟨(s.holding p.system.world.globals).contents, []⟩
      (Parallel.withGlobals p.system.world (compile p.context f).context).globals := by
  generalize hg : p.system.world.globals = globals
  have hsound : Sound solo (s.holding globals) r :=
    h.sound.holding (hg ▸ h.tended.governed.kept.holds.2)
  have hresembles := ((holding_resembles s globals).trans h.resembles).compile f |>.1
  have hsize : globals.size = p.context.globals.size := hg ▸ h.tended.governed.kept.holds.1
  have hsize' : (s.holding globals).context.globals.size = globals.size := by
    rw [hsize, ((holding_resembles s globals).trans h.resembles).globals_size]
  obtain ⟨more, hmore, hzero⟩ := (compile_arises p.context f).globals
  obtain ⟨more', hmore', hzero'⟩ := (compile_arises (s.holding globals).context f).globals
  intro i v hv
  -- the global of the same index in the session without tasks
  have hnames := congrArg (·[i]?) hresembles.globals
  simp only [Array.getElem?_map, hv, Option.map_some] at hnames
  obtain ⟨u, hu, hname⟩ := Option.map_eq_some_iff.mp hnames.symm
  have hcontents : ((s.holding globals).contents v.name).slot = u.value := by
    have hheld := holds_contents (hsound.compiled f).traced.distinct (hsound.compiled f).data []
    rw [contents_compiled] at hheld
    rw [hheld u (Array.mem_of_getElem? hu), hname]
  have hvalue : (Parallel.withGlobals p.system.world (compile p.context f).context).globals[i]? =
      some (globals.getD i v.value) := by
    show (((compile p.context f).context.withGlobalValues p.system.world.globals).globals.map
      (·.value))[i]? = _
    rw [Array.getElem?_map, withGlobalValues_getElem?, hv, hg]
    rfl
  rw [hvalue]
  show some _ = some ((s.holding globals).contents v.name).slot
  rw [hcontents, Array.getD_eq_getD_getElem?]
  by_cases hlt : i < globals.size
  · have hold : (s.context.withGlobalValues globals).globals[i]? = some u := by
      rw [hmore', Array.getElem?_append_left (hsize'.symm ▸ hlt)] at hu
      exact hu
    rw [withGlobalValues_getElem?] at hold
    obtain ⟨x, -, rfl⟩ := Option.map_eq_some_iff.mp hold
    show _ = some (globals.getD i x.value)
    rw [Array.getD_eq_getD_getElem?, Array.getElem?_eq_getElem hlt]
    rfl
  · have hle : globals.size ≤ i := Nat.le_of_not_lt hlt
    rw [Array.getElem?_eq_none hle, Option.getD_none]
    rw [hmore', Array.getElem?_append_right (hsize'.symm ▸ hle)] at hu
    rw [hmore, Array.getElem?_append_right (hsize ▸ hle)] at hv
    rw [hzero v (Array.mem_of_getElem? hv), hzero' u (Array.mem_of_getElem? hu)]

/-! ### Schedules -/

/-- The session without tasks in which the same forms were evaluated before, and whose globals hold
the same values. -/
def counterpart (solo : Settings) (before : List Form) (p : Parallel) : State :=
  ((State.new solo).pass before).holding p.system.world.globals

/-- A form compiles to code that neither assigns to a global nor prints, nor do the functions
that it may call. -/
def State.Calms (s : State) (f : Form) : Prop :=
  ∀ code, (compile s.context f).outcome = .ok (.entry code) →
    Calm (compile s.context f).context code.code

/-- Any fault may be lost where code is optimized. -/
def Lenient (settings : Settings) (_ : Failure) : Prop := settings.optimize = true

/-- Workers stay governed as long as no other form is submitted. -/
theorem governed_of_passes {H : Type} {R : Regime H} {books : Books H} {size : Nat} (hR : R.Sound)
    (h : Governed R books size p.system) (hq : p.Passes [] q) :
    ∃ books', Governed R books' size q.system := by
  generalize hfs : ([] : List Form) = fs at hq
  induction hq with
  | refl => exact ⟨books, h⟩
  | work _ hm ih =>
    obtain ⟨books', h'⟩ := ih hfs
    obtain ⟨books'', -, h''⟩ := h'.moves hR hm
    exact ⟨books'', h''⟩
  | submit _ f _ _ => exact absurd hfs (by simp)

/-- What the workers come to is possible for the form, as the evaluator understands it. -/
theorem Counterparts.accords (h : Counterparts solo settings s p r b) (hopt : solo.optimize = false)
    (hwaiting : p.system.waiting = false)
    (hpool : p.system.world.pool.available = settings.poolSize)
    (hcalm : (s.holding p.system.world.globals).Calms f) (hdef : definition? f = none)
    (haccepted : ∀ e, (compile (s.holding p.system.world.globals).context f).outcome ≠ .error e)
    (hq : (p.submit f).Passes [] q) {outcome : Outcome} (ho : q.system.outcome = some outcome) :
    Accords (Lenient settings) ⟨(s.holding p.system.world.globals).contents, []⟩
      (r.evaluate f) outcome := by
  -- the form is compiled twice: for the workers, and by the session that runs alone
  have hmem := h.contains f
  have hsound : Sound solo (s.holding p.system.world.globals) r :=
    h.sound.holding h.tended.governed.kept.holds.2
  obtain ⟨hresembles, halike⟩ :=
    ((holding_resembles s p.system.world.globals).trans h.resembles).compile f
  have hr := compile_arises p.context f
  have hr' := compile_arises (s.holding p.system.world.globals).context f
  have htraced' := hr'.traced hsound.traced
  have hconfigured := hr'.settings.trans hsound.configured
  unfold State.Calms at hcalm
  generalize compile (s.holding p.system.world.globals).context f = compiled' at *
  -- the session that runs alone accepts the form, and the form defines nothing
  cases hr' with
  | failed => exact absurd rfl (haccepted _)
  | defined hd => cases hd.symm.trans hdef
  | @entry own' k' ts' log' hd' hg' hb' =>
    rw [show learned f _ = [] from rfl, List.append_nil] at htraced'
    have hopt' : own'.settings.optimize = false :=
      (congrArg Settings.optimize hconfigured).trans hopt
    -- not optimizing, it runs the code that was generated
    have hcalm : Calm own' (bodyCode ts' 0) := by
      have hcode := hcalm _ rfl
      rwa [show (lower (finalCode own' none (bodyCode ts' 0)).1 0).code = bodyCode ts' 0 from
        finalCode_of_plain hopt' none _] at hcode
    generalize hcompile : compile p.context f = compiled at *
    cases hr with
    | failed => exact halike.elim
    | defined hd => cases hd.symm.trans hdef
    | @entry own k ts log hd hg hb =>
      -- both compilations give the names the same meaning, so what the form keeps to carries over
      have hnames : own.names = own'.names := hresembles.names
      have hsettings : own.settings = settings := hg.settings.trans h.tended.configured
      have hkeeps : Keeps (Called own' (bodyCode ts' 0)) False own.names f :=
        hnames ▸ (hb'.keeps (hcalm.mild .self)).1
      have hdefs := hcalm.keeps htraced' hopt'
      have hfree : own.settings.optimize = true →
          ∀ got, Lenient settings (.lax (.typeMismatch got)) := fun hyes _ => hsettings ▸ hyes
      have htraced : Traced own r.closures := by
        have htraced := (compile_arises p.context f).traced h.tended.traced
        rw [hcompile] at htraced
        rwa [show learned f _ = [] from rfl, List.append_nil] at htraced
      have hstart := h.tended.start hwaiting hpool hcompile hb hfree hdefs hkeeps hmem
      obtain ⟨books, hgoverned⟩ :=
        governed_of_passes (formRegime_sound htraced hfree hdefs) hstart hq
      have haccords : Accords _ _ _ outcome := hgoverned.answer outcome ho
      have heq : r.evaluate f = evaluate (r.closures[·]?) own.names [] f := by
        have hknown : (s.holding p.system.world.globals).context.names = r.names := hsound.names
        rw [hnames, hg'.names, hknown]
        rfl
      rw [heq]
      exact haccords

theorem Reports.of_value {x : Eval Datum} {mem : Memory} {acts : List Action → Prop}
    {e : Evaluation Cause Value} {v : Datum} (h : Reports (fun _ => False) x mem acts e)
    (hv : e.outcome = .ok v.value) : ∃ mem', x mem = some (.ok v, mem') := by
  cases h with
  | value hp ho =>
    obtain rfl := value_inj (Except.ok.inj (ho.symm.trans hv))
    exact ⟨_, hp.exact_value⟩
  | fault _ ho => cases ho.symm.trans hv

theorem Reports.of_fault {x : Eval Datum} {mem : Memory} {acts : List Action → Prop}
    {e : Evaluation Cause Value} {error : Fault} (h : Reports (fun _ => False) x mem acts e)
    (he : e.outcome = .error (.fault error)) (hne : error ≠ .stackOverflow) :
    ∃ failure mem', x mem = some (.error failure, mem') := by
  cases h with
  | value _ ho => cases ho.symm.trans he
  | fault hp ho =>
    cases ho.symm.trans he
    obtain ⟨strict, hx⟩ := hp.exact_fault.resolve_left hne
    exact ⟨_, _, hx⟩

/-- A form that neither assigns nor prints, submitted when all pooled tasks are free, has an outcome
that does not depend on how the workers take turns. Where it has a value without tasks and without
optimizing, it has the same value, or the stack overflows. Where it has a fault other than an
overflow, it has some fault, unless code is optimized. -/
theorem schedule_independent (hopt : solo.optimize = false) (hspawn : solo.spawn = false)
    {before : List Form} (hp : (Parallel.new settings).Passes before p)
    (hwaiting : p.system.waiting = false)
    (hfree : p.system.world.pool.available = settings.poolSize)
    (hcalm : (counterpart solo before p).Calms f) (hq : (p.submit f).Passes [] q)
    {outcome : Outcome} (ho : q.system.outcome = some outcome) :
    (∀ v : Datum, ((counterpart solo before p).evaluateForm f).outcome = .ok v.value →
      outcome = .ok v.slot ∨ outcome = .error .stackOverflow) ∧
    ∀ e, ((counterpart solo before p).evaluateForm f).outcome = .error (.fault e) →
      e ≠ .stackOverflow → settings.optimize = false → ∃ e', outcome = .error e' := by
  have hsolo : Solitary solo := .inl hspawn
  obtain ⟨r, b, h⟩ := counterparts_of_passes hsolo hp
  have hsound : Sound solo (counterpart solo before p) r :=
    h.sound.holding h.tended.governed.kept.holds.2
  have hevaluates := (hsound.evaluateForm (fun _ => False) hsolo
    (fun hyes => absurd (hopt.symm.trans hyes) Bool.false_ne_true) f).2
  have haccepted : ∀ {error}, (compile (counterpart solo before p).context f).outcome =
    .error error →
      ((counterpart solo before p).evaluateForm f).outcome = .error (.compile error) :=
    evaluateForm_refused
  have haccords := fun hdef hok => h.accords hopt hwaiting hfree hcalm hdef hok hq ho
  generalize (counterpart solo before p).evaluateForm f = evaluation at hevaluates haccepted
  -- only a form that was evaluated has a value that is data, or a fault
  cases hevaluates with
  | refused _ hrefused =>
    refine ⟨fun v hv => ?_, fun e he => ?_⟩
    · cases hrefused.symm.trans hv
    · cases hrefused.symm.trans he
  | defined _ hdefined =>
    refine ⟨fun v hv => ?_, fun e he => by cases hdefined.symm.trans he⟩
    have hsymbol := Except.ok.inj (hdefined.symm.trans hv)
    cases v <;> cases hsymbol
  | evaluated hdef _ hreports =>
    have haccords := haccords hdef fun e hrefused => hreports.not_refused e (haccepted hrefused)
    refine ⟨fun v hv => ?_, fun e he hne hsettings => ?_⟩
    · obtain ⟨mem, hx⟩ := hreports.of_value hv
      exact haccords.of_value hx
    · obtain ⟨failure, mem, hx⟩ := hreports.of_fault he hne
      exact haccords.of_fault hx fun hyes => absurd (hsettings.symm.trans hyes) Bool.false_ne_true

/-- Whether what a form was compiled to, and all functions, neither assign to a global nor print. -/
def calm (r : Compilation) : Bool :=
  match r.outcome with
  | .ok (.entry code) =>
    code.code.all (fun i => !writes i) &&
      r.context.functions.all fun f => f.code.all fun i => !writes i
  | _ => true

theorem calms_of_calm (h : calm (compile s.context f) = true) : s.Calms f := by
  intro code hcode
  unfold calm at h
  rw [hcode] at h
  simp only [Bool.and_eq_true, Array.all_eq_true_iff_forall_mem, Bool.not_eq_true'] at h
  exact calm_of_all h.1 h.2

end

/-- A session with two workers and a function that returns its argument. -/
def defining : Parallel := (Parallel.new Parallel.forking).submit (formOf "(defun f (x) x)")

/-- One worker begins a sum and leaves a summand to a task, which the other one runs. Then the first
goes on with the sum. -/
def sumTurns : List Parallel.Choice :=
  [Parallel.Choice.take 0 0] ++ List.replicate 6 (Parallel.Choice.act 0) ++
    [Parallel.Choice.take 1 0] ++ List.replicate 2 (Parallel.Choice.act 1) ++
    [Parallel.Choice.take 0 0] ++ List.replicate 6 (Parallel.Choice.act 0)

theorem schedule_independent_forking : ∃ q outcome,
    (Parallel.new Parallel.forking).Passes [formOf "(defun f (x) x)"] defining ∧
    (defining.submit (formOf "(+ (f 1) (f 2))")).Passes [] q ∧ q.system.outcome = some outcome ∧
    (outcome = .ok (.int 3) ∨ outcome = .error .stackOverflow) := by
  have hplay : ((defining.submit (formOf "(+ (f 1) (f 2))")).play? sumTurns).bind
      (·.2.system.outcome) = some (.ok (.int 3)) := by cbv
  obtain ⟨⟨events, q⟩, hq, ho⟩ := Option.bind_eq_some_iff.mp hplay
  have hp : (Parallel.new Parallel.forking).Passes [formOf "(defun f (x) x)"] defining :=
    .submit .refl _ rfl
  have hpasses : (defining.submit (formOf "(+ (f 1) (f 2))")).Passes [] q :=
    Parallel.play?_passes hq
  have hcalm : (counterpart { single with optimize := false } [formOf "(defun f (x) x)"]
    defining).Calms
      (formOf "(+ (f 1) (f 2))") := calms_of_calm (by cbv)
  have hvalue : ((counterpart { single with optimize := false } [formOf "(defun f (x) x)"]
      defining).evaluateForm (formOf "(+ (f 1) (f 2))")).outcome = .ok (.int 3) := by cbv
  exact ⟨q, .ok (.int 3), hp, hpasses, ho,
    (schedule_independent rfl rfl hp (by cbv) (by cbv) hcalm hpasses ho).1 (.int 3) hvalue⟩

end ForkLisp.Session
