/-
Where functions come from.

`Compilation.Arises` lists what compiling a form can come to. In a context that is `Traced`, every
function was compiled from a closure, in a context that had the functions before it and the function
itself. Compiling another form keeps that (`Compilation.Arises.traced`), and the closure of a
function is learned with its definition.
-/
import ForkLisp.Compile.Compile
import ForkLisp.Proofs.Compile.Matching
import ForkLisp.Proofs.Reference.Evaluator

namespace ForkLisp.Compile

open ForkLisp.Code ForkLisp.Machine ForkLisp.Optimize ForkLisp.Reader ForkLisp.Reference
  ForkLisp.Source ForkLisp.Terms

/-! ### What compiling comes to -/

/-- A form that defines something is a list whose head stands for defining. -/
theorem definingArguments?_eq_some {f : Form} {args : List Form}
    (h : definingArguments? f = some args) :
    ∃ range range' name, f = .list range (.symbol range' name :: args) ∧
      Builtin.ofName? name = some .define := by
  unfold definingArguments? at h
  split at h
  · rename_i range range' name items
    split at h
    · rename_i hb
      obtain rfl := Option.some.inj h
      exact ⟨range, range', name, rfl, hb⟩
    · cases h
  · cases h

/-- The definition that a form makes. -/
def definition? (f : Form) : Option Definition :=
  (definingArguments? f).bind fun args => (Definition.ofArguments f.range args).toOption

theorem definition?_eq_none {f : Form} (h : definingArguments? f = none) :
    definition? f = none := by
  unfold definition?
  rw [h]
  rfl

theorem definition?_eq_some {f : Form} {args : List Form} {d : Definition}
    (h : definingArguments? f = some args) (hd : Definition.ofArguments f.range args = .ok d) :
    definition? f = some d := by
  unfold definition?
  rw [h, Option.bind_some, hd]
  rfl

/-- The arguments of a definition are a name, parameters, and its body, which is not empty. -/
theorem arguments_of_definition {range : Range} {args : List Form} {d : Definition}
    (h : Definition.ofArguments range args = .ok d) :
    (∃ name params, args = name :: params :: d.body) ∧ d.body ≠ [] := by
  unfold Definition.ofArguments at h
  split at h
  · rename_i nameForm paramsForm body
    cases hn : Definition.functionName nameForm with
    | error e => rw [hn] at h; cases h
    | ok name =>
      cases hp : Definition.parameterNames paramsForm with
      | error e => rw [hn, hp] at h; cases h
      | ok params =>
        simp only [hn, hp, bind, Except.bind] at h
        split at h
        · cases h
        · rename_i hbody
          cases h
          exact ⟨⟨nameForm, paramsForm, rfl⟩, fun he => hbody (List.isEmpty_iff.mpr he)⟩
  · cases h

/-- A definition is a list whose head stands for defining. -/
theorem form_of_definition {f : Form} {d : Definition} (h : definition? f = some d) :
    ∃ range range' name args, f = .list range (.symbol range' name :: args) ∧
      Definition.ofArguments range args = .ok d := by
  obtain ⟨args, hargs, hd⟩ := Option.bind_eq_some_iff.mp h
  obtain ⟨range, range', name, rfl, -⟩ := definingArguments?_eq_some hargs
  refine ⟨range, range', name, args, rfl, ?_⟩
  cases hd' : Definition.ofArguments range args with
  | error e =>
    rw [Form.range, hd'] at hd
    cases hd
  | ok d' =>
    rw [Form.range, hd'] at hd
    rw [Option.some.inj hd]

/-- The body of a definition is not empty. -/
theorem body_ne_nil {f : Form} {d : Definition} (h : definition? f = some d) : d.body ≠ [] := by
  obtain ⟨_, _, _, _, -, hd⟩ := form_of_definition h
  exact (arguments_of_definition hd).2

/-- The forms of the body of a definition are items of the form. -/
theorem body_of_definition {f : Form} {d : Definition} (h : definition? f = some d) :
    ∃ range items, f = .list range items ∧ ∀ g ∈ d.body, g ∈ items := by
  obtain ⟨range, range', name, args, rfl, hd⟩ := form_of_definition h
  obtain ⟨⟨nameForm, paramsForm, rfl⟩, -⟩ := arguments_of_definition hd
  refine ⟨range, _, rfl, fun g hg => ?_⟩
  exact List.mem_cons_of_mem _ (List.mem_cons_of_mem _ (List.mem_cons_of_mem _ hg))

/-- Two contexts have the same functions, globals and settings. -/
structure Context.Untouched (c c' : Context) : Prop where
  functions : c'.functions = c.functions
  globals : c'.globals = c.globals
  settings : c'.settings = c.settings
  table : c'.table = c.table

/-- What compiling a form can come to. -/
inductive Compilation.Arises (c : Context) (f : Form) : Compilation → Prop where
  | failed {c' : Context} {log : List String} {e : CompileError} (h : c.Untouched c') :
      Arises c f ⟨c', log, .error e⟩
  | defined {d : Definition} {own : Context} {k : Kind} {ts : List Term} {log : List String}
      (hd : definition? f = some d) (hg : Grows (c.define d.name d.params).1 own)
      (hb : ResolvesBody (scopeOf own) d.params d.body ts k) :
      Arises c f ⟨own.complete c.functions.size k (bodyCode ts d.params.length)
        (finalCode own (some c.functions.size) (bodyCode ts d.params.length)).1, log,
        .ok (.function d.name)⟩
  | entry {own : Context} {k : Kind} {ts : List Term} {log : List String}
      (hd : definingArguments? f = none) (hg : Grows c own)
      (hb : ResolvesBody (scopeOf own) [] [f] ts k) :
      Arises c f ⟨own, log, .ok (.entry (lower (finalCode own none (bodyCode ts 0)).1 0))⟩

theorem generateBody_grows (params : List String) (fs : List Form) (r : Reg) (c : Context) :
    Grows c (generateBody params fs r c).context :=
  (generateBody_matches fs r r c c (.refl c)).left

theorem take_globals {c own : Context} (h : Grows c own) :
    own.globals.take c.globals.size = c.globals := by
  obtain ⟨more, hm, -⟩ := h.globals
  rw [hm]
  simp

/-- A failed definition leaves no function behind. -/
theorem undefine_functions {c own : Context} {name : String} {params : List String}
    (h : Grows (c.define name params).1 own) :
    (own.undefine (c.define name params).2).functions = c.functions := by
  show (if c.functions.size + 1 = own.functions.size then own.functions.pop else own.functions) = _
  have hf : own.functions = c.functions.push ⟨name, params, .int, #[], #[], none⟩ := h.functions
  rw [hf, Array.size_push, if_pos rfl, Array.pop_push]

theorem compile_arises (c : Context) (f : Form) : Compilation.Arises c f (compile c f) := by
  unfold compile
  cases hargs : definingArguments? f with
  | none =>
    have hgrows := generateBody_grows [] [f] 0 c
    unfold compileEntry
    generalize he : generateBody [] [f] 0 c = e at hgrows
    obtain ⟨code, own, out⟩ := e
    cases out with
    | error e =>
      exact .failed ⟨hgrows.functions, take_globals hgrows, hgrows.settings,
        hgrows.table⟩
    | ok k =>
      obtain ⟨-, ts, hcode, hb⟩ := generateBody_resolves (by simp) he
      dsimp only
      rw [hcode]
      exact .entry hargs hgrows hb
  | some args =>
    dsimp only
    cases hd : Definition.ofArguments f.range args with
    -- the form of the definition is wrong, and nothing was declared yet
    | error e =>
      refine .failed ⟨rfl, ?_, rfl, rfl⟩
      exact take_globals (.refl c)
    | ok d =>
      have hdef := definition?_eq_some hargs hd
      have hgrows := generateBody_grows d.params d.body d.params.length (c.define d.name d.params).1
      unfold compileDefinition
      dsimp only
      generalize he : generateBody d.params d.body d.params.length (c.define d.name d.params).1 = e
        at hgrows
      obtain ⟨code, own, out⟩ := e
      cases out with
      -- the body is refused, and the declaration is taken back
      | error e =>
        have hglobals := take_globals hgrows
        exact .failed ⟨undefine_functions hgrows, hglobals, hgrows.settings, hgrows.table⟩
      | ok k =>
        obtain ⟨-, ts, hcode, hb⟩ := generateBody_resolves (body_ne_nil hdef) he
        dsimp only
        rw [hcode]
        exact .defined hdef hgrows hb

/-! ### Origins -/

/-- A function was compiled from a closure, in the context `own`. -/
structure Origin (c own : Context) (id : FuncId) (f : Function) (cl : Closure) (ts : List Term) :
    Prop where
  params : cl.params = f.params
  names : cl.names = own.names
  body : ResolvesBody (scopeOf own) f.params cl.body ts f.kind
  raw : f.raw = bodyCode ts f.params.length
  code : f.code = (finalCode own (some id) f.raw).1
  lowered : f.lowered = some (lower f.code f.arity)
  size : own.functions.size = id + 1
  /-- A function that calls itself is taken to return a number. -/
  self : ∃ g, own.function? id = some g ∧ g.params = f.params ∧ g.kind = .int
  earlier : ∀ j, j < id → own.function? j = c.function? j
  known : ∀ g, Knows own g → Knows c g
  settings : own.settings = c.settings

/-- Without the optimizer, code is left as it was generated. -/
theorem finalCode_of_plain {c : Context} (h : c.settings.optimize = false) (this : Option FuncId)
    (raw : ForkLisp.Code) : (finalCode c this raw).1 = raw := by
  unfold finalCode
  rw [if_neg (by rw [h]; exact Bool.false_ne_true)]

theorem Origin.generated_code {c own : Context} {id : FuncId} {f : Function} {cl : Closure}
    {ts : List Term} (h : Origin c own id f cl ts) (hopt : c.settings.optimize = false) :
    f.code = bodyCode ts f.params.length := by
  rw [h.code, finalCode_of_plain ((congrArg Settings.optimize h.settings).trans hopt), h.raw]

/-- Every function of a context has its origin in a closure. -/
structure Traced (c : Context) (closures : List Closure) : Prop where
  length : closures.length = c.functions.size
  origin : ∀ id f, c.function? id = some f →
    ∃ own cl ts, closures[id]? = some cl ∧ Origin c own id f cl ts
  table : c.table = none ∨ c.table = some c.currentTable
  distinct : DistinctGlobals c

section

variable {c own : Context} {name : String} {params : List String}

theorem define_self (h : Grows (c.define name params).1 own) :
    own.function? c.functions.size = some ⟨name, params, .int, #[], #[], none⟩ := by
  show own.functions[c.functions.size]? = _
  rw [h.functions]
  exact Array.getElem?_push_size

theorem define_of_lt (h : Grows (c.define name params).1 own) {j : Nat}
    (hj : j < c.functions.size) :
    own.function? j = c.function? j := by
  show own.functions[j]? = c.functions[j]?
  rw [h.functions]
  show (c.functions.push _)[j]? = _
  rw [Array.getElem?_push, if_neg (Nat.ne_of_lt hj)]

variable {k : Kind} {raw code : ForkLisp.Code}

theorem complete_self (h : Grows (c.define name params).1 own) :
    (own.complete c.functions.size k raw code).function? c.functions.size =
      some ⟨name, params, k, raw, code, some (lower code params.length)⟩ := by
  show (own.functions.modify c.functions.size _)[c.functions.size]? = _
  rw [Array.getElem?_modify, if_pos rfl,
    show own.functions[c.functions.size]? = _ from define_self h]
  rfl

theorem complete_of_lt (h : Grows (c.define name params).1 own) {j : Nat}
    (hj : j < c.functions.size) :
    (own.complete c.functions.size k raw code).function? j = c.function? j := by
  rw [← define_of_lt h hj]
  show (own.functions.modify c.functions.size _)[j]? = own.functions[j]?
  rw [Array.getElem?_modify, if_neg (Nat.ne_of_gt hj)]

theorem complete_size (h : Grows (c.define name params).1 own) :
    (own.complete c.functions.size k raw code).functions.size = c.functions.size + 1 := by
  show (own.functions.modify _ _).size = _
  rw [Array.size_modify, h.functions]
  exact Array.size_push _

end

/-- The closure that is learned from a form. -/
def learned (f : Form) (r : Compilation) : List Closure :=
  match r.outcome, definition? f with
  | .ok (.function _), some d => [⟨d.params, d.body, r.context.names⟩]
  | _, _ => []

theorem traced_new (settings : Settings) : Traced (.new settings) [] where
  length := rfl
  origin id f h := absurd h (by simp [Context.function?, Context.new])
  table := .inl rfl
  distinct i j u v h := absurd h (by simp [Context.new])

namespace Traced

variable {c c' : Context} {closures : List Closure}

theorem origin_mono {own : Context} {id : FuncId} {f : Function} {cl : Closure} {ts : List Term}
    (h : Origin c own id f cl ts) (hf : ∀ j, j < id → c'.function? j = c.function? j)
    (hk : ∀ g, Knows c g → Knows c' g) (hs : c'.settings = c.settings) :
    Origin c' own id f cl ts :=
  { h with
    earlier := fun j hj => (h.earlier j hj).trans (hf j hj).symm
    known := fun g hg => hk g (h.known g hg)
    settings := h.settings.trans hs.symm }

/-- Functions stay what they are while the globals change. -/
theorem mono (h : Traced c closures) (hf : c'.functions = c.functions)
    (hk : ∀ g, Knows c g → Knows c' g) (hs : c'.settings = c.settings)
    (ht : c'.table = c.table ∨ c'.table = some c'.currentTable) (hd : DistinctGlobals c') :
    Traced c' closures where
  length := by rw [hf, h.length]
  origin id f hid := by
    have hfun : ∀ j, c'.function? j = c.function? j := fun j => congrArg (·[j]?) hf
    obtain ⟨own, cl, ts, hcl, ho⟩ := h.origin id f ((hfun id).symm.trans hid)
    exact ⟨own, cl, ts, hcl, origin_mono ho (fun j _ => hfun j) hk hs⟩
  table := by
    rcases ht with ht | ht
    · unfold Context.currentTable
      rw [ht, hf]
      exact h.table
    · exact .inr ht
  distinct := hd

theorem untouched (h : Traced c closures) (hc : c.Untouched c') : Traced c' closures := by
  refine h.mono hc.functions (fun g hg => ?_) hc.settings (.inl hc.table) fun i j u v hu hv => ?_
  · unfold Knows
    rw [hc.globals]
    exact hg
  · rw [hc.globals] at hu hv
    exact h.distinct i j u v hu hv

theorem grows (h : Traced c closures) (hg : Grows c c') : Traced c' closures :=
  h.mono hg.functions (fun _ => hg.knows) hg.settings (.inl hg.table) (hg.distinct h.distinct)

/-- A definition adds a function with an origin. -/
theorem define (h : Traced c closures) {d : Definition} {own : Context} {k : Kind} {ts : List Term}
    (hg : Grows (c.define d.name d.params).1 own)
    (hb : ResolvesBody (scopeOf own) d.params d.body ts k) :
    Traced (own.complete c.functions.size k (bodyCode ts d.params.length)
        (finalCode own (some c.functions.size) (bodyCode ts d.params.length)).1)
      (closures ++ [⟨d.params, d.body, own.names⟩]) where
  length := by rw [List.length_append, h.length, complete_size hg, List.length_singleton]
  origin id f hid := by
    have hlt : id < c.functions.size + 1 := complete_size hg ▸ (Array.getElem?_eq_some_iff.mp hid).1
    rcases Nat.lt_or_eq_of_le (Nat.le_of_lt_succ hlt) with hlt | rfl
    · rw [complete_of_lt hg hlt] at hid
      obtain ⟨own', cl, ts', hcl, ho⟩ := h.origin id f hid
      refine ⟨own', cl, ts', ?_, ?_⟩
      · rw [List.getElem?_append_left (h.length ▸ hlt), hcl]
      · exact origin_mono ho (fun j hj => complete_of_lt hg (Nat.lt_trans hj hlt))
          (fun g hk => hg.knows hk) hg.settings
    · rw [complete_self hg] at hid
      obtain rfl := Option.some.inj hid
      refine ⟨own, ⟨d.params, d.body, own.names⟩, ts, ?_, ?_⟩
      · rw [← h.length, List.getElem?_append_right (Nat.le_refl _), Nat.sub_self]
        rfl
      · refine ⟨rfl, rfl, hb, rfl, rfl, rfl, ?_, ⟨_, define_self hg, rfl, rfl⟩, fun j hj => ?_,
          fun g hk => hk, rfl⟩
        · rw [hg.functions]
          exact Array.size_push _
        · rw [complete_of_lt hg hj, define_of_lt hg hj]
  table := .inl rfl
  distinct := hg.distinct h.distinct

end Traced

/-- Compiling a form keeps every function traced. -/
theorem Compilation.Arises.traced {c : Context} {closures : List Closure} {f : Form}
    {r : Compilation} (hr : r.Arises c f) (h : Traced c closures) :
    Traced r.context (closures ++ learned f r) := by
  cases hr with
  | failed hc =>
    rw [show learned f _ = [] from rfl, List.append_nil]
    exact h.untouched hc
  | @defined d own k ts log hd hg hb =>
    unfold learned
    simp only [hd]
    exact h.define hg hb
  | entry hd hg hb =>
    rw [show learned f _ = [] from rfl, List.append_nil]
    exact h.grows hg

end ForkLisp.Compile
