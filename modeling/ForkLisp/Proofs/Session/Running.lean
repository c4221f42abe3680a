/-
Forms of a session that starts no tasks.

`Sound` says what holds between the forms of a session: every function was compiled from a closure
that the reference evaluator knows, globals hold values, and the workers have nothing to do.
Evaluating a form keeps that (`Sound.evaluateForm`). A form that compiles and is no definition comes
to an end, and what it comes to is permitted by the evaluator (`Reports`), with what it does on the
way (`State.Acts`).
-/
import ForkLisp.Proofs.Compile.Linking
import ForkLisp.Proofs.Compile.Successors
import ForkLisp.Proofs.Reference.Sequential
import ForkLisp.Proofs.Schedule.Alone
import ForkLisp.Session.Evaluate

namespace ForkLisp.Reference

open ForkLisp.Code ForkLisp.Compile ForkLisp.Machine ForkLisp.Reader ForkLisp.Session

/-- A value as the result of a form. -/
def Datum.value : Datum → Value
  | .int n => .int n
  | .bool b => .bool b
  | .float x => .float x

/-- The value that a slot holds. -/
def Datum.ofSlot? : Slot → Option Datum
  | .int n => some (.int n)
  | .bool b => some (.bool b)
  | .float x => some (.float x)
  | _ => none

@[simp] theorem Datum.ofSlot?_slot (v : Datum) : Datum.ofSlot? v.slot = some v := by cases v <;> rfl

@[simp] theorem value_ofSlot?_slot (v : Datum) : Value.ofSlot? v.slot = some v.value := by
  cases v <;> rfl

theorem value_inj {u v : Datum} (h : u.value = v.value) : u = v := by
  cases u <;> cases v <;> cases h <;> rfl

theorem slot_inj {u v : Datum} (h : u.slot = v.slot) : u = v := by
  cases u <;> cases v <;> cases h <;> rfl

/-- The functions that were defined, and what function names are bound to now. -/
structure Definitions where
  closures : List Closure
  names : Bindings FuncId

namespace Definitions

/-- Nothing is defined. -/
def empty : Definitions := ⟨[], .empty⟩

/-- Another function. In its body its own name stands for itself. -/
def define (r : Definitions) (d : Definition) : Definitions :=
  let names := r.names.insert d.name r.closures.length
  ⟨r.closures ++ [⟨d.params, d.body, names⟩], names⟩

/-- What is known after a form, which defines a function if it is a definition and did not fail. -/
def learn {ε α : Type} (r : Definitions) (f : Form) (outcome : Except ε α) : Definitions :=
  match outcome, definition? f with
  | .ok _, some d => r.define d
  | _, _ => r

theorem learn_ok {ε α : Type} {r : Definitions} {f : Form} {d : Definition}
    (h : definition? f = some d) (a : α) : r.learn f (.ok a : Except ε α) = r.define d := by
  unfold learn
  rw [h]

/-- A form that is no definition teaches nothing. -/
theorem learn_of_none {ε α : Type} {r : Definitions} {f : Form} (h : definition? f = none)
    (outcome : Except ε α) : r.learn f outcome = r := by
  unfold learn
  rw [h]
  cases outcome <;> rfl

/-- The value of a form that stands by itself. -/
def evaluate (r : Definitions) (f : Form) : Eval Datum :=
  Reference.evaluate (r.closures[·]?) r.names [] f

end Definitions

end ForkLisp.Reference

namespace ForkLisp.Session

open ForkLisp.Code ForkLisp.Compile ForkLisp.Machine ForkLisp.Reader ForkLisp.Reference
  ForkLisp.Behaviour ForkLisp.Schedule ForkLisp.Terms

/-- What a global of a session holds; a global that does not exist is zero. -/
def State.contents (s : State) (name : String) : Datum :=
  ((s.context.globals.find? (·.name == name)).bind fun v => Datum.ofSlot? v.value).getD (.int 0)

/-- The session `s` after a form. -/
def State.next (s : State) (f : Form) : State := (s.evaluateForm f).state

/-- The session `s` after some forms. -/
def State.pass (s : State) (fs : List Form) : State := fs.foldl State.next s

/-- A session and what the reference evaluator knows, after some forms. -/
def State.follow (s : State) (r : Definitions) : List Form → State × Definitions
  | [] => (s, r)
  | f :: fs =>
    let e := s.evaluateForm f
    e.state.follow (r.learn f e.outcome) fs

theorem State.follow_fst (s : State) (r : Definitions) (fs : List Form) :
    (s.follow r fs).1 = s.pass fs := by
  induction fs generalizing s r with
  | nil => rfl
  | cons f fs ih => exact ih _ _

/-- What holds between the forms of a session. -/
structure Sound (settings : Settings) (s : State) (r : Definitions) : Prop where
  configured : s.context.settings = settings
  traced : Traced s.context r.closures
  names : s.context.names = r.names
  sorted : s.context.Sorted
  data : ∀ v ∈ s.context.globals, ∃ x : Datum, v.value = x.slot
  idle : s.scheduler.Idle
  pool : s.scheduler.pool = .ofSize settings.poolSize settings.taskStackSize

/-- The globals of a session hold what a memory says. -/
def Holds (s : State) (mem : Memory) : Prop :=
  ∀ v ∈ s.context.globals, v.value = (mem.globals v.name).slot

/-- The program of a form comes to an end, if the form compiles to one. -/
def State.Ends (s : State) (f : Form) : Prop :=
  ∀ code, (compile s.context f).outcome = .ok (.entry code) →
    ∃ run, s.scheduler.run? ⟨(compile s.context f).context.functionTable.1, code⟩
      (compile s.context f).context.globalValues = some run

/-- The task of some code runs to its end in a session, and has some effects on the way. -/
def State.Traces (s : State) (entry : Lowered) (es : List Effect) : Prop :=
  ∃ run, s.scheduler.run? ⟨s.context.functionTable.1, entry⟩ s.context.globalValues = some run ∧
    Completes (.root s.scheduler.crew.stackSize ⟨s.context.functionTable.1, entry⟩)
      ⟨s.context.globalValues, #[], s.scheduler.pool⟩ es run.outcome
      ⟨run.globals, run.printed.toArray, s.scheduler.pool⟩

/-- What a form does to globals and prints, one thing after the other. If it has no program, this is
nothing. -/
def State.Performs (s : State) (f : Form) (es : List Effect) : Prop :=
  match (compile s.context f).outcome with
  | .ok (.entry code) => { s with context := (compile s.context f).context : State }.Traces code es
  | _ => es = []

/-- What a form does shows as something that is done to a memory. -/
def State.Acts (s : State) (f : Form) (as : List Action) : Prop :=
  ∃ es, s.Performs f es ∧ List.Forall₂ (Shows (compile s.context f).context) es as

/-- An evaluation ends in a way that is permitted for a computation. Unless the stack overflows, the
program does what the computation does to the memory. -/
inductive Reports (free : Failure → Prop) (x : Eval Datum) (mem : Memory)
    (acts : List Action → Prop) (e : Evaluation Cause Value) : Prop where
  | value {v : Datum} {mem' : Memory} (h : Permits free x mem (.value v mem'))
      (ho : e.outcome = .ok v.value) (hp : e.printed = mem'.printed) (hg : Holds e.state mem')
      (ha : acts mem'.actions)
  | fault {error : Fault} {mem' : Memory} (h : Permits free x mem (.fault error mem'))
      (ho : e.outcome = .error (.fault error)) (hp : e.printed = mem'.printed)
      (hg : Holds e.state mem') (ha : error ≠ .stackOverflow → acts mem'.actions)

section

variable {settings : Settings} {s : State} {r : Definitions} {free : Failure → Prop}

theorem sound_new (settings : Settings) : Sound settings (.new settings) .empty where
  configured := rfl
  traced := traced_new settings
  names := rfl
  sorted := Context.sorted_new settings
  data v hv := absurd hv (by simp [State.new, Context.new])
  idle := Scheduler.new_idle settings
  pool := rfl

/-- The contents of the globals are what they hold. -/
theorem holds_contents (hd : DistinctGlobals s.context)
    (hdata : ∀ v ∈ s.context.globals, ∃ x : Datum, v.value = x.slot) (actions : List Action) :
    Holds s ⟨s.contents, actions⟩ := by
  intro v hv
  show v.value = (s.contents v.name).slot
  unfold State.contents
  cases hfind : s.context.globals.find? (·.name == v.name) with
  | none =>
    have := Array.find?_eq_none.mp hfind v hv
    exact absurd (beq_self_eq_true v.name) this
  | some u =>
    -- names differ, so that it is the global itself that was found
    have hname : u.name = v.name := by simpa using Array.find?_some hfind
    obtain ⟨i, hi⟩ := Array.mem_iff_getElem?.mp (Array.mem_of_find?_eq_some hfind)
    obtain ⟨j, hj⟩ := Array.mem_iff_getElem?.mp hv
    obtain rfl := hd i j u v hi hj hname
    obtain rfl := Option.some.inj (hi.symm.trans hj)
    obtain ⟨x, hx⟩ := hdata u hv
    rw [Option.bind_some, hx, Datum.ofSlot?_slot, Option.getD_some]

/-- The sequential meaning is one for the code of a traced context. -/
theorem interprets_sequential (free : Failure → Prop) {c : Context} {closures : List Closure}
    (hfree : c.settings.optimize = true → ∀ got, free (.lax (.typeMismatch got))) :
    Interprets c (closures[·]?) (sequentialSpec free (c.settings.spawn = true) c)
      (sequential free (c.settings.spawn = true) c (closures[·]?) (scopeOf c).arity) where
  simulates _ := sequential_simulates
  permissive := sequential_permissive
  algebraic hopt := sequential_algebraic (hfree hopt)
  known _ hg := hg
  spawns h := h
  kind id f hf := by
    show kindOf c id = .bool ↔ f.kind = .bool
    rw [kindOf_eq hf]
  keeps _ cl _ _ := keepAll_of_forall cl.names (fun _ => trivial) trivial cl.body

/-- The settings of a session in which no task is started. -/
def Solitary (settings : Settings) : Prop := settings.spawn = false ∨ settings.poolSize = 0

theorem alone_of_solitary (h : Solitary settings) {c : Context} (hc : c.settings = settings)
    (free : Failure → Prop) (defs : FuncId → Option Closure) (arity : FuncId → Option Nat) :
    Alone (sequential free (c.settings.spawn = true) c defs arity)
      (.ofSize settings.poolSize settings.taskStackSize) := by
  rcases h with hspawn | hsize
  · refine .inr fun n args a hs => ?_
    rw [hc, hspawn] at hs
    exact absurd hs (by decide)
  · refine .inl ?_
    rw [hsize]
    rfl

theorem withGlobalValues_getElem? (c : Context) (values : Array Slot) (i : Nat) :
    (c.withGlobalValues values).globals[i]? =
      (c.globals[i]?).map fun v => { v with value := values.getD i v.value } := by
  show (c.globals.mapIdx _)[i]? = _
  rw [Array.getElem?_mapIdx]

/-- The globals that a program leaves. -/
theorem holds_withGlobalValues {c : Context} {values : Array Slot} {printed : Array String}
    {pool : Pool} {mem : Memory} (h : Mirrors c ⟨values, printed, pool⟩ mem)
    (scheduler : Scheduler) :
    Holds ⟨c.withGlobalValues values, scheduler⟩ mem := by
  intro v hv
  obtain ⟨i, hi⟩ := Array.mem_iff_getElem?.mp hv
  have hi : (c.withGlobalValues values).globals[i]? = some v := hi
  rw [withGlobalValues_getElem?] at hi
  obtain ⟨u, hu, rfl⟩ := Option.map_eq_some_iff.mp hi
  show values.getD i u.value = (mem.globals u.name).slot
  rw [Array.getD_eq_getD_getElem?, h.globals i u hu, Option.getD_some]

theorem traced_withGlobalValues {c : Context} {closures : List Closure} (h : Traced c closures)
    (values : Array Slot) : Traced (c.withGlobalValues values) closures := by
  refine h.mono rfl (fun g hg => ?_) rfl (.inl rfl) fun i j u v hu hv hn => ?_
  · unfold Knows
    rw [withGlobalValues_getElem?, Option.map_map]
    exact hg
  · rw [withGlobalValues_getElem?] at hu hv
    obtain ⟨u', hu', rfl⟩ := Option.map_eq_some_iff.mp hu
    obtain ⟨v', hv', rfl⟩ := Option.map_eq_some_iff.mp hv
    exact h.distinct i j u' v' hu' hv' hn

/-- The context in which the table of functions is kept. -/
theorem functionTable_eq {c : Context} {closures : List Closure} (h : Traced c closures) :
    c.functionTable = (c.currentTable, { c with table := some c.currentTable }) := by
  unfold Context.functionTable
  rcases h.table with ht | ht
  · rw [ht]
  · rw [ht]
    dsimp only
    rw [← ht]

/-- An outcome is one that a computation permits. -/
def Answers (free : Failure → Prop) (x : Eval Datum) (mem : Memory) (outcome : Outcome)
    (mem' : Memory) : Prop :=
  match outcome with
  | .ok slot => ∃ v : Datum, slot = v.slot ∧ Permits free x mem (.value v mem')
  | .error e => Permits free x mem (.fault e mem')

/-- What is reported of a run answers for it. -/
theorem Answers.reports {x : Eval Datum} {mem mem' : Memory} {outcome : Outcome}
    {acts : List Action → Prop} {e : Evaluation Cause Value} (h : Answers free x mem outcome mem')
    (ho : e.outcome = resultOf outcome) (hp : e.printed = mem'.printed) (hg : Holds e.state mem')
    (ha : outcome ≠ .error .stackOverflow → acts mem'.actions) : Reports free x mem acts e := by
  cases outcome with
  | error error => exact .fault h ho hp hg fun hne => ha fun heq => hne (Except.error.inj heq)
  | ok slot =>
    obtain ⟨v, rfl, hv⟩ := h
    refine .value hv (ho.trans ?_) hp hg (ha nofun)
    dsimp only [resultOf]
    rw [value_ofSlot?_slot]

/-- Running code keeps the table of functions, and takes over what the program leaves. -/
theorem run_eq {c : Context} {closures : List Closure} (h : Traced c closures)
    (scheduler : Scheduler) (entry : Lowered) {run : Scheduler.Run}
    (hrun : scheduler.run ⟨c.currentTable, entry⟩ c.globalValues = run) :
    State.run ⟨c, scheduler⟩ entry =
      ⟨⟨({ c with table := some c.currentTable } : Context).withGlobalValues run.globals,
        run.scheduler⟩, [], run.printed, resultOf run.outcome⟩ := by
  unfold State.run
  simp only [functionTable_eq h]
  rw [show scheduler.run ⟨c.currentTable, entry⟩
    ({ c with table := some c.currentTable } : Context).globalValues = run from hrun]

/-- Running the code of a form ends as the evaluator permits. -/
theorem Sound.run (h : Sound settings s r) (hsolo : Solitary settings)
    (hfree : settings.optimize = true → ∀ got, free (.lax (.typeMismatch got))) {f : Form}
    {ts : List Term} {k : Kind} (hb : ResolvesBody (scopeOf s.context) [] [f] ts k) :
    Sound settings (s.run (lower (finalCode s.context none (bodyCode ts 0)).1 0)).state r ∧
      Reports free (r.evaluate f) ⟨s.contents, []⟩
        (fun as => ∃ es, s.Traces (lower (finalCode s.context none (bodyCode ts 0)).1 0) es ∧
          List.Forall₂ (Shows s.context) es as)
        (s.run (lower (finalCode s.context none (bodyCode ts 0)).1 0)) ∧
      ∃ run, s.scheduler.run? ⟨s.context.functionTable.1,
        lower (finalCode s.context none (bodyCode ts 0)).1 0⟩ s.context.globalValues =
        some run := by
  obtain ⟨c, scheduler⟩ := s
  have hc : c.settings = settings := h.configured
  have htraced : Traced c r.closures := h.traced
  have hi : Interprets c (r.closures[·]?) _ _ :=
    interprets_sequential free fun hopt => hfree (hc ▸ hopt)
  generalize hentry : lower (finalCode c none (bodyCode ts 0)).1 0 = entry
  have hmem : Mirrors c ⟨c.globalValues, #[], scheduler.pool⟩
    ⟨State.contents ⟨c, scheduler⟩, []⟩ := by
    refine ⟨fun i v hv => ?_, rfl⟩
    show (c.globals.map (·.value))[i]? = _
    rw [Array.getElem?_map, hv, Option.map_some]
    exact congrArg some (holds_contents htraced.distinct h.data [] v (Array.mem_of_getElem? hv))
  have hpool : scheduler.pool = .ofSize settings.poolSize settings.taskStackSize := h.pool
  have halone := alone_of_solitary hsolo hc free (r.closures[·]?) (scopeOf c).arity
  rw [← hpool] at halone
  have hfulfils := htraced.fulfils hi (finalCode c none (bodyCode ts 0)).1
  rw [hentry] at hfulfils
  have hagrees : ∀ w o, (sequential free (c.settings.spawn = true) c (r.closures[·]?)
      (scopeOf c).arity).Runs Meaning.done entry.code 0 (Frame.enter []) w o →
      Permits free (r.evaluate f) w o := by
    intro w o hrun
    rw [← hentry] at hrun
    have hkeeps := keeps_of_forall c.names (fun _ : FuncId => trivial) trivial f
    have hpermits := (htraced.entry_agrees hi hb hkeeps hrun).1
    rwa [show c.names = r.names from h.names] at hpermits
  -- what is wanted of the program
  have hpost : Entry _ (Answers free (r.evaluate f) ⟨State.contents ⟨c, scheduler⟩, []⟩)
    (Program.mk c.currentTable entry) _ :=
    { not_stuck := fun hs => Permits.not_stuck (hagrees _ _ hs)
      value := fun v mem hv => ⟨v, rfl, hagrees _ _ hv⟩
      fault := fun e mem he => hagrees _ _ he
      overflow := .overflow }
  obtain ⟨run, mem, hrun, hout, hw, hidle, hsame, hcompletes⟩ :=
    Scheduler.run_alone h.idle (sequential_describes htraced.distinct) hfulfils halone hmem hpost
  have hrun' : scheduler.run (Program.mk c.currentTable entry) c.globalValues = run := by
    unfold Scheduler.run
    rw [hrun]
    rfl
  have hkept : Traced { c with table := some c.currentTable } r.closures :=
    htraced.mono rfl (fun _ hg => hg) rfl (.inr rfl) htraced.distinct
  have hheld : Holds ⟨({ c with table := some c.currentTable } : Context).withGlobalValues
      run.globals, run.scheduler⟩ mem :=
    holds_withGlobalValues ⟨hw.globals, hw.printed⟩ run.scheduler
  rw [run_eq htraced scheduler entry hrun']
  refine ⟨⟨hc, traced_withGlobalValues hkept _, h.names, h.sorted, fun v hv =>
    ⟨_, hheld v hv⟩, hidle, hsame.trans hpool⟩,
    hout.reports rfl hw.printed hheld fun hne => ?_, run, ?_⟩
  · obtain ⟨es, hes, hundergoes⟩ := hcompletes.resolve_left hne
    obtain ⟨as, hactions, hshows⟩ := shows_of_undergoes hundergoes
    refine ⟨es, ⟨run, ?_⟩, hactions ▸ hshows⟩
    rw [functionTable_eq htraced]
    exact ⟨hrun, hes⟩
  · rw [functionTable_eq htraced]
    exact hrun

/-- The state in which the code of a form is run. -/
theorem Sound.compiled (h : Sound settings s r) (f : Form) :
    Sound settings { s with context := (compile s.context f).context }
      (r.learn f (compile s.context f).outcome) := by
  have hr := compile_arises s.context f
  have hnames := compile_names h.sorted f
  have htraced := hr.traced h.traced
  have hdata : ∀ v ∈ (compile s.context f).context.globals, ∃ x : Datum, v.value = x.slot := by
    obtain ⟨more, hmore, hzero⟩ := hr.globals
    intro v hv
    rw [hmore] at hv
    exact (Array.mem_append.mp hv).elim (h.data v) fun hv => ⟨.int 0, hzero v hv⟩
  -- a form is learned by the reference at the same index, and under the same name
  refine ⟨hr.settings.trans h.configured, ?_, ?_, compile_sorted h.sorted f, hdata, h.idle, h.pool⟩
  · have hlearn : s.context.names = r.names := h.names
    generalize compile s.context f = compiled at hr hnames htraced
    cases hr with
    | failed =>
      rw [show learned f _ = [] from rfl, List.append_nil] at htraced
      exact htraced
    | @defined d own k ts log hd hg hb =>
      have hnames : own.names = r.names.insert d.name r.closures.length := by
        rw [← hlearn, h.traced.length]
        exact hg.names
      unfold learned at htraced
      simp only [hd] at htraced
      rw [show (own.complete s.context.functions.size k (bodyCode ts d.params.length)
        (finalCode own (some s.context.functions.size) (bodyCode ts d.params.length)).1).names = _
        from hnames] at htraced
      rw [Definitions.learn_ok hd]
      exact htraced
    | entry hd =>
      rw [show learned f _ = [] from rfl, List.append_nil] at htraced
      rw [Definitions.learn_of_none (definition?_eq_none hd)]
      exact htraced
  · have hlearn : s.context.names = r.names := h.names
    show (compile s.context f).context.names = _
    rw [hnames]
    generalize compile s.context f = compiled at hr
    unfold namesAfter
    cases hr with
    | failed => exact hlearn
    | @defined d own k ts log hd hg hb =>
      simp only [hd]
      rw [Definitions.learn_ok hd, hlearn, ← h.traced.length]
      rfl
    | entry hd =>
      rw [Definitions.learn_of_none (definition?_eq_none hd)]
      exact hlearn

/-- What comes of a form: it is refused, it defines a function, or it ends as the
evaluator permits. -/
inductive Evaluates (free : Failure → Prop) (s : State) (r : Definitions) (f : Form)
    (e : Evaluation Cause Value) : Prop where
  | refused {error : CompileError} (h : (compile s.context f).outcome = .error error)
      (ho : e.outcome = .error (.compile error)) (hp : e.printed = [])
      (hg : e.state.context.globals = s.context.globals)
  | defined {d : Definition} (h : definition? f = some d) (ho : e.outcome = .ok (.symbol d.name))
      (hp : e.printed = []) (hg : Holds e.state ⟨s.contents, []⟩)
  | evaluated (h : definition? f = none) (hends : s.Ends f)
      (he : Reports free (r.evaluate f) ⟨s.contents, []⟩ (s.Acts f) e)

/-- The contents of globals that were just created are zero. -/
theorem contents_compiled (s : State) (f : Form) :
    ({ s with context := (compile s.context f).context } : State).contents = s.contents := by
  obtain ⟨more, hmore, hzero⟩ := (compile_arises s.context f).globals
  funext name
  unfold State.contents
  dsimp only
  rw [hmore, Array.find?_append]
  cases hfind : s.context.globals.find? (·.name == name) with
  | some v => rfl
  | none =>
    rw [Option.none_or]
    cases hnew : more.find? (·.name == name) with
    | none => rfl
    | some v =>
      rw [Option.bind_some, hzero v (Array.mem_of_find?_eq_some hnew)]
      rfl

/-- A definition does not compile to a program. -/
theorem not_entry_of_definition {c : Context} {f : Form} {d : Definition}
    (h : definition? f = some d) (code : Lowered) :
    (compile c f).outcome ≠ .ok (.entry code) := by
  intro hcode
  have hr := compile_arises c f
  generalize compile c f = compiled at hr hcode
  cases hr with
  | failed | defined => exact absurd hcode (by simp)
  | entry hnone => cases (definition?_eq_none hnone).symm.trans h

/-- A form that has no program does nothing. -/
theorem performs_nil {f : Form} (h : ∀ code, (compile s.context f).outcome ≠ .ok (.entry code)) :
    s.Performs f [] := by
  unfold State.Performs
  split
  · rename_i code hcode
    exact absurd hcode (h code)
  · rfl

/-- A form that compiles to a program has an end. -/
theorem Evaluates.ends {f : Form} {e : Evaluation Cause Value} (h : Evaluates free s r f e) :
    s.Ends f := by
  cases h with
  | refused h =>
    intro code hcode
    cases h.symm.trans hcode
  | defined h => exact fun code hcode => absurd hcode (not_entry_of_definition h code)
  | evaluated _ hends _ => exact hends

/-- Evaluating a form keeps a session sound, and ends as the evaluator permits. -/
theorem Sound.evaluateForm (free : Failure → Prop) (h : Sound settings s r)
    (hsolo : Solitary settings)
    (hfree : settings.optimize = true → ∀ got, free (.lax (.typeMismatch got)))
    (f : Form) :
    Sound settings (s.evaluateForm f).state (r.learn f (s.evaluateForm f).outcome) ∧
      Evaluates free s r f (s.evaluateForm f) := by
  have hcompiled := h.compiled f
  have hcontents := contents_compiled s f
  have hheld := holds_contents hcompiled.traced.distinct hcompiled.data []
  rw [hcontents] at hheld
  have hr := compile_arises s.context f
  unfold State.evaluateForm
  generalize hcomp : compile s.context f = compiled at hr hcompiled hheld hcontents
  -- a form is refused, defines a function, or becomes an entry that is run
  cases hr with
  | @failed c log e hsame =>
    exact ⟨hcompiled, .refused (by rw [hcomp]) rfl rfl hsame.globals⟩
  | @defined d own k ts log hd hg hb =>
    refine ⟨?_, .defined hd rfl rfl hheld⟩
    dsimp only
    rw [Definitions.learn_ok hd] at hcompiled ⊢
    exact hcompiled
  | @entry own k ts log hd hg hb =>
    have hnone := definition?_eq_none hd
    rw [Definitions.learn_of_none hnone] at hcompiled
    obtain ⟨hsound, hreports, run, hrun⟩ := hcompiled.run hsolo hfree hb
    rw [hcontents] at hreports
    refine ⟨?_, .evaluated hnone (fun code hcode => ⟨run, ?_⟩) ?_⟩
    · dsimp only [Evaluation.after]
      rw [Definitions.learn_of_none hnone]
      exact hsound
    · rw [hcomp] at hcode ⊢
      cases hcode
      exact hrun
    · have hacts : ∀ as, (∃ es, State.Traces ⟨own, s.scheduler⟩
          (lower (finalCode own none (bodyCode ts 0)).1 0) es ∧
            List.Forall₂ (Shows own) es as) → s.Acts f as := by
        rintro as ⟨es, htraces, hshows⟩
        unfold State.Acts State.Performs
        rw [hcomp]
        exact ⟨es, htraces, hshows⟩
      dsimp only [Evaluation.after]
      cases hreports with
      | value hp ho hpr hg ha => exact .value hp ho hpr hg (hacts _ ha)
      | fault hp ho hpr hg ha => exact .fault hp ho hpr hg fun hne => hacts _ (ha hne)

theorem Sound.keeps (h : Sound settings s r) (hsolo : Solitary settings) (f : Form) :
    Sound settings (s.evaluateForm f).state (r.learn f (s.evaluateForm f).outcome) := by
  exact (h.evaluateForm (fun _ => True) hsolo (fun _ _ => trivial) f).1

/-- Every session is sound after any forms. -/
theorem Sound.follow (h : Sound settings s r) (hsolo : Solitary settings) (fs : List Form) :
    Sound settings (s.follow r fs).1 (s.follow r fs).2 := by
  induction fs generalizing s r with
  | nil => exact h
  | cons f fs ih => exact ih (h.keeps hsolo f)

end

/-! ### Texts of forms -/

/-- The forms of a text that can be read. -/
def formsOf (text : String) : List Form := (read text).toOption.getD []

/-- The first form of a text. -/
def formOf (text : String) : Form := (formsOf text).headD (.list .front [])

/-- Settings for a single task with a small stack. -/
def single : Settings :=
  { spawn := false, workers := 1, taskPoolSize := some 0, taskStackSize := 20 }

/-- A function that counts in a global how often it comes to the end of its recursion. -/
def counting : List Form :=
  formsOf "(setq y 0) (defun f (x) (if (< x 1) (setq y (+ y 1)) (+ (f (- x 1)) (f (- x 2)))))"

/-- A call of it, whose value is printed. -/
def counted : Form := formOf "(print (f 2))"

/-- Settings for a single task with a stack on which there is room for such calls. -/
def roomy : Settings := { single with taskStackSize := 60 }

end ForkLisp.Session
