/-
Kinds over whole sessions.

In a session whose forms are all plural, a call of a function returns a value of the kind that the
function was given, whatever it is called with and whatever globals hold, and a form that stands by
itself has a value of its kind (`kinds_sound`). A sum of a single operand shows that the condition
is needed (`kinds_unsound`).
-/
import Mathlib
import ForkLisp.Proofs.Reference.Kinds
import ForkLisp.Proofs.Session.Optimizing

namespace ForkLisp.Machine

/-- A task runs by itself to an outcome. -/
inductive Task.Reaches (outcome : Outcome) : Task → World → Prop where
  | ended {t t' : Task} {w w' : World} (h : step t w = .ended t' outcome w') : Reaches outcome t w
  | next {t t' : Task} {w w' : World} (h : step t w = .next t' w') (hs : Reaches outcome t' w') :
      Reaches outcome t w

/-- The outcome that a task reaches by itself within some steps. -/
def Task.outcome? : Nat → Task → World → Option Outcome
  | 0, _, _ => none
  | n + 1, t, w =>
    match step t w with
    | .next t w => t.outcome? n w
    | .ended _ outcome _ => some outcome
    | _ => none

theorem Task.reaches_of_outcome? {n : Nat} {t : Task} {w : World} {outcome : Outcome}
    (h : t.outcome? n w = some outcome) : t.Reaches outcome w := by
  induction n generalizing t w with
  | zero => cases h
  | succ n ih =>
    unfold Task.outcome? at h
    split at h
    · rename_i hstep
      exact .next hstep (ih h)
    · rename_i hstep
      obtain rfl := Option.some.inj h
      exact .ended hstep
    · cases h

end ForkLisp.Machine

namespace ForkLisp.Session

open ForkLisp.Code ForkLisp.Compile ForkLisp.Machine ForkLisp.Reader ForkLisp.Reference
  ForkLisp.Behaviour ForkLisp.Schedule ForkLisp.Terms

/-! ### Functions -/

section

variable {c own : Context} {closures : List Closure}

/-- The code of a plural body ends with a value of the kind of the body. -/
theorem body_has {s : Scope} {params : List String} {args : List Datum} {fs : List Form}
    {ts : List Term} {k : Kind} {arity : FuncId → Option Nat} {sync : Prop}
    (hs : Suits (looseSpec sync c) s) (hb : ResolvesBody s params fs ts k)
    (hp : pluralAll fs = true) (hlen : args.length = params.length)
    (harity : ∀ n a, s.arity n = some a → arity n = some a)
    (hkinds : ∀ id f, s.functions id = some f → f.kind = k → kindOf c id = k) {w : Unit}
    {o : Ending Datum Unit}
    (hrun : (typed sync c arity).Runs Meaning.done (bodyCode ts params.length) 0
      (Frame.enter args) w o) :
    o ≠ .stuck ∧ ∀ v w', o = .value v w' → v.Has k := by
  have hscoped := AllScoped.mono harity (fun _ hg => hg) ts hb.scoped
  have hbody : EvalsBody (typed sync c arity) args ts w o :=
    bodyCode_runs hb.ne_nil (hlen ▸ hscoped) (hlen ▸ hrun)
  refine ⟨(resolvesBody_agrees (@typed_simulates sync c arity fun _ => none) hs hlen hb
    (keepAll_loose _ _) hbody).1, ?_⟩
  rintro v w' rfl
  by_cases hk : k = .any
  · rw [hk]
    trivial
  · exact resolvesBody_has hs hlen hk hkinds hb hp rfl hbody

/-- A program of plural functions returns values of their kinds. -/
theorem typed_fulfils (h : Traced c closures) (hopt : c.settings.optimize = false)
    (hplural : ∀ cl ∈ closures, pluralAll cl.body = true) (code : ForkLisp.Code) :
    (Program.mk c.currentTable (lower code 0)).Fulfils
      (typed (c.settings.spawn = true) c (scopeOf c).arity) := by
  refine h.fulfils_of rfl (fun n f hf args w o hlen hrun => ?_) code
  obtain ⟨own, cl, ts, hcl, ho⟩ := h.origin n f hf
  have hcode : f.code = bodyCode ts f.params.length := ho.generated_code hopt
  have hrun : (typed (c.settings.spawn = true) c (scopeOf c).arity).Runs Meaning.done
      (bodyCode ts f.params.length) 0 (Frame.enter args) w o := hcode ▸ hrun
  have hi := @interprets_loose (fun _ => True) c (scopeOf c).arity (closures[·]?) fun _ _ => trivial
  have harity : ∀ k a, (scopeOf own).arity k = some a → (scopeOf c).arity k = some a :=
    fun _ _ hk => (ho.arity_of hf hk).2
  have hkinds : ∀ k g, (scopeOf own).functions k = some g → g.kind = f.kind →
    kindOf c k = f.kind := by
    intro k g hg hkind
    have hg : own.function? k = some g := hg
    have hlt : k < own.functions.size := (Array.getElem?_eq_some_iff.mp hg).1
    rw [ho.size] at hlt
    -- the body knows the functions before it and itself, and nothing defined later
    rcases Nat.lt_or_eq_of_le (Nat.le_of_lt_succ hlt) with hlt | rfl
    · rw [kindOf_eq ((ho.earlier k hlt).symm.trans hg), hkind]
    · exact kindOf_eq hf
  obtain ⟨hstuck, hvalue⟩ :=
    body_has (ho.suits hi) ho.body (hplural cl (List.mem_of_getElem? hcl)) hlen
    harity hkinds hrun
  exact ⟨hstuck, fun v w' hv => (kindOf_eq hf).symm ▸ hvalue v w' hv⟩

end

/-! ### Tasks -/

/-- A task that runs by itself reaches only wanted outcomes. -/
theorem reaches_wanted {H W : Type} {m : Meaning Datum H W} {holds : World → W → Prop}
    {post : Outcome → W → Prop} {outcome : Outcome} {t : Task} {w : World} {a : W}
    (hreach : t.Reaches outcome w) (hm : Describes m holds) (halone : Alone m w.pool)
    (hs : Single m t) (h : Conducts m post noLeases t a) (hw : holds w a) :
    ∃ b, post outcome b := by
  induction hreach generalizing a with
  | ended hstep =>
    rcases hs.step hm halone h hw with
      ⟨_, _, _, _, hstep', -⟩ | ⟨_, _, _, hstep', -, -, -, hpost, -⟩
    · cases hstep.symm.trans hstep'
    · cases hstep.symm.trans hstep'
      exact ⟨a, hpost⟩
  | next hstep _ ih =>
    rcases hs.step hm halone h hw with
      ⟨_, _, b, _, hstep', -, -, hs', hp, -, -, h', hw'⟩ | ⟨_, _, _, hstep', -⟩
    · cases hstep.symm.trans hstep'
      exact ih (hp ▸ halone) hs' h' hw'
    · cases hstep.symm.trans hstep'

/-! ### Sessions -/

section

variable {settings : Settings} {s : State} {r : Definitions}

/-- The body of a plural definition is plural. -/
theorem plural_definition {f : Form} {d : Definition} (h : plural f = true)
    (hd : definition? f = some d) :
    pluralAll d.body = true := by
  obtain ⟨range, items, rfl, hbody⟩ := body_of_definition hd
  exact pluralAll_iff.mpr fun g hg => (plural_list h).2 g (hbody g hg)

/-- All functions of a session whose forms are plural have plural bodies. -/
theorem plural_follow {fs : List Form} (hr : ∀ cl ∈ r.closures, pluralAll cl.body = true)
    (hfs : pluralAll fs = true) : ∀ cl ∈ (s.follow r fs).2.closures, pluralAll cl.body = true := by
  induction fs generalizing s r with
  | nil => exact hr
  | cons f fs ih =>
    have hp := pluralAll_iff.mp hfs
    refine ih (fun cl hcl => ?_) (pluralAll_iff.mpr fun g hg => hp g (List.mem_cons_of_mem f hg))
    unfold Definitions.learn at hcl
    split at hcl
    · rename_i d _ hd
      rcases List.mem_append.mp hcl with hcl | hcl
      · exact hr cl hcl
      · rw [List.mem_singleton.mp hcl]
        exact plural_definition (hp f (by simp)) hd
    · exact hr cl hcl

/-- A session that neither optimizes nor starts tasks, and whose functions are all plural. -/
structure Kinded (settings : Settings) (s : State) (r : Definitions) : Prop where
  sound : Sound settings s r
  plain : settings.optimize = false
  alone : settings.spawn = false
  bodies : ∀ cl ∈ r.closures, pluralAll cl.body = true

theorem Kinded.optimize (h : Kinded settings s r) : s.context.settings.optimize = false := by
  rw [h.sound.configured, h.plain]

theorem Kinded.spawn (h : Kinded settings s r) : s.context.settings.spawn = false := by
  rw [h.sound.configured, h.alone]

theorem Kinded.solitary (h : Kinded settings s r) (pool : Pool) :
    Alone (typed (s.context.settings.spawn = true) s.context (scopeOf s.context).arity) pool :=
  .inr fun _ _ _ hs => absurd (h.spawn.symm.trans hs) Bool.false_ne_true

/-- The data of a context are what its globals hold. -/
theorem Kinded.holdsData (h : Kinded settings s r) :
    HoldsData s.context s.context.globalValues := by
  intro i hi
  obtain ⟨x, hx⟩ := h.sound.data _ (Array.getElem_mem hi)
  exact ⟨x, by
    rw [Context.globalValues, Array.getElem?_map, Array.getElem?_eq_getElem hi,
      Option.map_some, hx]⟩

/-- A task that runs a function of a session returns a value of its kind. -/
theorem Kinded.call (h : Kinded settings s r) {id : FuncId} {f : Function}
    (hf : s.context.function? id = some f) {code : ForkLisp.Code} {args : List Datum}
    (hlen : args.length = f.arity) {t : Task} {w : World} (hid : t.id = none) (hc : t.children = [])
    (hroom : frameSize f.code f.arity ≤ t.stack.size) (hw : HoldsData s.context w.globals)
    {v : Slot}
    (hreach : (t.start ⟨s.context.functionTable.1, lower code 0⟩ id (args.map Datum.slot)).Reaches
      (.ok v) w) :
    ∃ x : Datum, v = x.slot ∧ x.Has f.kind := by
  have hfulfils := typed_fulfils h.sound.traced h.optimize h.bodies code
  have hfunc : (Program.mk s.context.currentTable (lower code 0)).func? id =
    some (lower f.code f.arity) := by
    rw [h.sound.traced.func?, hf]
    rfl
  rw [functionTable_eq h.sound.traced] at hreach
  have hcond := @conducts_start Unit Unit (typed (s.context.settings.spawn = true) s.context
      (scopeOf s.context).arity) (fun outcome _ => ∀ v, outcome = .ok v → ∃ x : Datum,
        v = x.slot ∧ x.Has f.kind)
      noLeases () _ hfulfils id _ hfunc args hlen t hroom (fun hs => hs.1 rfl)
      (fun v b hv u hu => ⟨v, (Except.ok.inj hu).symm, kindOf_eq hf ▸ hv.2 v b rfl⟩)
      (fun e b _ u hu => by cases hu)
  obtain ⟨_, hpost⟩ := reaches_wanted hreach loose_describes (h.solitary w.pool)
    ⟨hid, hc, hfulfils⟩ hcond hw
  exact hpost v rfl

/-- The code of a form has a value of the kind of the form. -/
theorem Kinded.run (h : Kinded settings s r) {f : Form} {ts : List Term} {k : Kind}
    (hb : ResolvesBody (scopeOf s.context) [] [f] ts k) (hp : plural f = true) {v : Value}
    (hv : (s.run (lower (finalCode s.context none (bodyCode ts 0)).1 0)).outcome = .ok v) :
    ∃ x : Datum, v = x.value ∧ x.Has k := by
  rw [finalCode_of_plain h.optimize] at hv
  -- the machine fulfils the meaning in which a call yields a value of its kind
  have hfulfils := typed_fulfils h.sound.traced h.optimize h.bodies (bodyCode ts 0)
  have hi := @interprets_loose (fun _ => True) s.context (scopeOf s.context).arity (r.closures[·]?)
    fun _ _ => trivial
  have hbody : ∀ o, (typed (s.context.settings.spawn = true) s.context
    (scopeOf s.context).arity).Runs
      Meaning.done (bodyCode ts 0) 0 (Frame.enter []) () o →
      o ≠ .stuck ∧ ∀ v w', o = .value v w' → v.Has k := fun o ho =>
    body_has hi.suits hb (pluralAll_iff.mpr (by simpa using hp)) rfl (fun _ _ hn => hn)
      (fun id g hg hkind => (kindOf_eq hg).trans hkind) ho
  -- one worker alone runs the form, and ends only as the meaning says
  obtain ⟨run, _, hrun, hpost, -⟩ := @Scheduler.run_alone Unit Unit _ _
    (fun outcome _ => ∀ v, outcome = .ok v → ∃ x : Datum, v = x.slot ∧ x.Has k) () s.scheduler
    h.sound.idle loose_describes _ hfulfils (h.solitary _) s.context.globalValues h.holdsData
    { not_stuck := fun ho => (hbody _ ho).1 rfl
      value := fun v b hv u hu => ⟨v, (Except.ok.inj hu).symm, (hbody _ hv).2 v b rfl⟩
      fault := fun _ _ _ _ hu => by cases hu
      overflow := fun _ hu => by cases hu }
  have hrun' : s.scheduler.run ⟨s.context.currentTable, lower (bodyCode ts 0) 0⟩
      s.context.globalValues = run := by
    unfold Scheduler.run
    rw [hrun]
    rfl
  unfold State.run at hv
  simp only [functionTable_eq h.sound.traced] at hv
  rw [show s.scheduler.run ⟨s.context.currentTable, lower (bodyCode ts 0) 0⟩
    ({ s.context with table := some s.context.currentTable } : Context).globalValues =
    run from hrun'] at hv
  unfold resultOf at hv
  split at hv
  · cases hv
  · rename_i slot hslot
    obtain ⟨x, rfl, hx⟩ := hpost slot hslot
    rw [value_ofSlot?_slot] at hv
    exact ⟨x, (Except.ok.inj hv).symm, hx⟩

theorem definingArguments?_eq_none {range range' : Source.Range} {name : String} {args : List Form}
    (h : Builtin.ofName? name ≠ some .define) :
    definingArguments? (.list range (.symbol range' name :: args)) = none :=
  if_neg h

/-- A form that becomes a term is no definition. -/
theorem not_defining_of_resolves {sc : Scope} {params : List String} {f : Form} {t : Term}
    {k : Kind} (h : Resolves sc params f t k) : definingArguments? f = none := by
  cases h with
  | int | float | truth _ | param _ _ | global _ _ _ | nil => rfl
  | call hb _ _ _ _ =>
    refine definingArguments?_eq_none ?_
    simp [hb]
  | neutral hb | same hb _ _ | negate hb _ | arith hb _ _ | compare hb _ _ | short hb _ _
  | full hb _ _ _ | assign hb _ _ | print hb _ =>
    refine definingArguments?_eq_none ?_
    simp [hb]

/-- A form whose code can be generated compiles to that code. -/
theorem compile_of_generates {c own : Context} {f : Form} {code : List Inst} {k : Kind}
    (h : generateBody [] [f] 0 c = ⟨code, own, .ok k⟩) :
    ∃ log ts, compile c f =
    ⟨own, log, .ok (.entry (lower (finalCode own none (bodyCode ts 0)).1 0))⟩ ∧
      definition? f = none ∧ ResolvesBody (scopeOf own) [] [f] ts k := by
  obtain ⟨-, ts, hcode, hb⟩ := generateBody_resolves (by simp) h
  have hargs : definingArguments? f = none := by
    cases hb with
    | last hf => exact not_defining_of_resolves hf
    | more _ hs => cases hs
  have hcomp : compile c f = compileEntry c f := by
    unfold compile
    simp only [hargs]
    unfold compileEntry
    simp only [h]
  have hnone := definition?_eq_none hargs
  refine ⟨(compileEntry c f).log, ts, hcomp.trans ?_, hnone, hb⟩
  unfold compileEntry
  simp only [h, hcode]

/-- The value of a form has the kind of the form. -/
theorem Kinded.form (h : Kinded settings s r) {f : Form} (hp : plural f = true) {k : Kind}
    (hk : (generateBody [] [f] 0 s.context).outcome = .ok k) {v : Value}
    (hv : (s.evaluateForm f).outcome = .ok v) : ∃ x : Datum, v = x.value ∧ x.Has k := by
  generalize hgen : generateBody [] [f] 0 s.context = e at hk
  obtain ⟨code, own, out⟩ := e
  obtain rfl : out = .ok k := hk
  obtain ⟨log, ts, hcomp, hnone, hb⟩ := compile_of_generates hgen
  have hcompiled := h.sound.compiled f
  rw [hcomp] at hcompiled
  rw [Definitions.learn_of_none hnone] at hcompiled
  have hkinded : Kinded settings { s with context := own } r :=
    ⟨hcompiled, h.plain, h.alone, h.bodies⟩
  unfold State.evaluateForm at hv
  rw [hcomp] at hv
  exact hkinded.run hb hp hv

/-- After plural forms a session is one in which kinds can be relied on. -/
theorem kinded_pass (hopt : settings.optimize = false) (hspawn : settings.spawn = false)
    {before : List Form} (hp : pluralAll before = true) :
    ∃ r, Kinded settings ((State.new settings).pass before) r := by
  have hsound := (sound_new settings).follow (.inl hspawn) before
  rw [State.follow_fst] at hsound
  refine ⟨_, hsound, hopt, hspawn, plural_follow (fun cl hcl => ?_) hp⟩
  exact absurd hcl (by simp [Definitions.empty])

end

/-- Kinds can be relied on after plural forms: a task that runs a function, with any
arguments and any globals, returns a value of the kind of the function, and a plural form has
a value of its kind. -/
theorem kinds_sound (settings : Settings) (before : List Form) (hp : pluralAll before = true) :
    let s := (State.new { settings with optimize := false, spawn := false }).pass before
    (∀ id f (code : ForkLisp.Code) (args : List Datum) (t : Task) (w : World) v,
      s.context.function? id = some f → args.length = f.arity → t.id = none → t.children = [] →
      frameSize f.code f.arity ≤ t.stack.size → HoldsData s.context w.globals →
      (t.start ⟨s.context.functionTable.1, lower code 0⟩ id (args.map Datum.slot)).Reaches
        (.ok v) w →
      ∃ x : Datum, v = x.slot ∧ x.Has f.kind) ∧
    ∀ f k v, plural f = true → (generateBody [] [f] 0 s.context).outcome = .ok k →
      (s.evaluateForm f).outcome = .ok v → ∃ x : Datum, v = x.value ∧ x.Has k := by
  obtain ⟨r, h⟩ :=
    @kinded_pass { settings with optimize := false, spawn := false } rfl rfl before hp
  exact ⟨fun _ _ _ _ _ _ _ hf hlen hid hc hroom hw hreach => h.call hf hlen hid hc hroom hw hreach,
    fun _ _ _ hp hk hv => h.form hp hk hv⟩

/-- The code of a product with a sum for its second operand. -/
def productCode : ForkLisp.Code :=
  #[.intConst 1 2, .move 2 0, .intConst 3 1, .arith .add 2 3, .arith .mul 1 2, .ret 1, .stop]

/-- The function is run by a task for the argument four, and called by a form. -/
theorem kinds_sound_product :
    (∃ x : Datum, Slot.int 10 = x.slot ∧ x.Has .int) ∧
      ∃ x : Datum, Value.int 10 = x.value ∧ x.Has .int := by
  have hsize : ((State.new { single with optimize := false, spawn := false }).pass
      (formsOf "(defun f (x) (* 2 (+ x 1)))")).context.globals.size = 0 := by cbv
  have h := kinds_sound single (formsOf "(defun f (x) (* 2 (+ x 1)))") (by cbv)
  refine ⟨h.1 0 ⟨"f", ["x"], .int, productCode, productCode,
    some (lower productCode 1)⟩ #[] [.int 4]
      (.idle none 20) ⟨#[], #[], .ofSize 0 20⟩ (.int 10) (by cbv) rfl rfl rfl
        (by cbv) (fun i hi => ?_)
      (Task.reaches_of_outcome? (n := 20) (by cbv)),
    h.2 (formOf "(f 4)") .int (.int 10) (by cbv) (by cbv) (by cbv)⟩
  rw [hsize] at hi
  exact absurd hi (Nat.not_lt_zero i)

/-- Without the condition kinds cannot be relied on: a sum of one operand counts as a number, but is
whatever the operand is. -/
theorem kinds_unsound :
    ¬ ∀ (settings : Settings) (before : List Form) (f : Form) (k : Kind) (v : Value),
      let s := (State.new { settings with optimize := false, spawn := false }).pass before
      (generateBody [] [f] 0 s.context).outcome = .ok k → (s.evaluateForm f).outcome = .ok v →
      ∃ x : Datum, v = x.value ∧ x.Has k := by
  intro hall
  obtain ⟨x, hv, n, rfl⟩ := hall single (formsOf "(defun f (x) (+ x))") (formOf "(f t)") .int
    (.bool true) (by cbv) (by cbv)
  cases hv

end ForkLisp.Session
