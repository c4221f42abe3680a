/-
Resolving forms.

`Resolves` says which term a form becomes, in a scope that tells what its names stand for. What
generating code for a form emits is the code of such a term (`generate_resolves`).

`Emit.Yields` says that an emission comes to a result; it is the form in which emissions are taken
apart.
-/
import ForkLisp.Compile.Generate
import ForkLisp.Proofs.Terms.Term

namespace ForkLisp.Compile

open ForkLisp.Code

/-- An emission emits some code, leaves a context and comes to a result. -/
def Emit.Yields {α : Type} (x : Emit α) (c : Context) (code : List Inst) (c' : Context) (a : α) :
    Prop :=
  x c = ⟨code, c', .ok a⟩

namespace Emit

variable {α β : Type} {c c' : Context} {code : List Inst}

theorem yields_pure {a b : α} :
    (pure a : Emit α).Yields c code c' b ↔ code = [] ∧ c' = c ∧ a = b := by
  show (⟨[], c, .ok a⟩ : Emission α) = ⟨code, c', .ok b⟩ ↔ _
  rw [Emission.mk.injEq, Except.ok.injEq]
  exact ⟨fun h => ⟨h.1.symm, h.2.1.symm, h.2.2⟩, fun h => ⟨h.1.symm, h.2.1.symm, h.2.2⟩⟩

theorem yields_bind {x : Emit α} {f : α → Emit β} {b : β} :
    (x >>= f).Yields c code c' b ↔ ∃ code₁ c₁ a code₂,
      x.Yields c code₁ c₁ a ∧ (f a).Yields c₁ code₂ c' b ∧ code = code₁ ++ code₂ := by
  show andThen x f c = ⟨code, c', .ok b⟩ ↔ _
  unfold andThen Yields
  constructor
  · intro h
    rcases hx : x c with ⟨code₁, c₁, out⟩
    dsimp only at h
    rw [hx] at h
    cases out with
    | error e => exact absurd (congrArg Emission.outcome h) (by simp)
    | ok a =>
      rcases hf : f a c₁ with ⟨code₂, c₂, out⟩
      simp only [hf, Emission.mk.injEq] at h
      obtain ⟨hcode, hc, ho⟩ := h
      exact ⟨code₁, c₁, a, code₂, rfl, by rw [hf, hc, ho], hcode.symm⟩
  · rintro ⟨code₁, c₁, a, code₂, hx, hf, rfl⟩
    dsimp only
    rw [hx]
    simp only [hf]

theorem yields_fail {e : CompileError} {a : α} : ¬ (fail e : Emit α).Yields c code c' a := by
  intro h
  exact absurd (congrArg Emission.outcome h) (by simp [fail])

theorem yields_code {is : List Inst} {a : Unit} :
    (Emit.code is).Yields c code c' a ↔ code = is ∧ c' = c := by
  show (⟨is, c, .ok ()⟩ : Emission Unit) = ⟨code, c', .ok a⟩ ↔ _
  rw [Emission.mk.injEq]
  exact ⟨fun h => ⟨h.1.symm, h.2.1.symm⟩, fun h => ⟨h.1.symm, h.2.symm, rfl⟩⟩

theorem yields_context {a : Context} :
    Emit.context.Yields c code c' a ↔ code = [] ∧ c' = c ∧ a = c := by
  show (⟨[], c, .ok c⟩ : Emission Context) = ⟨code, c', .ok a⟩ ↔ _
  rw [Emission.mk.injEq, Except.ok.injEq]
  exact ⟨fun h => ⟨h.1.symm, h.2.1.symm, h.2.2.symm⟩, fun h => ⟨h.1.symm, h.2.1.symm, h.2.2.symm⟩⟩

theorem yields_context_bind {f : Context → Emit β} {b : β} :
    (Emit.context >>= f).Yields c code c' b ↔ (f c).Yields c code c' b := by
  rw [yields_bind]
  constructor
  · rintro ⟨code₁, c₁, a, code₂, hc, hf, hcode⟩
    obtain ⟨rfl, rfl, rfl⟩ := yields_context.mp hc
    rw [List.nil_append] at hcode
    exact hcode ▸ hf
  · intro h
    exact ⟨[], c, c, code, yields_context.mpr ⟨rfl, rfl, rfl⟩, h, rfl⟩

/-- Some instructions and a result. -/
theorem yields_code_pure {is : List Inst} {a b : β} :
    (Emit.code is >>= fun _ => pure a : Emit β).Yields c code c' b ↔
      code = is ∧ c' = c ∧ a = b := by
  rw [yields_bind]
  constructor
  · rintro ⟨code₁, c₁, u, code₂, hc, hf, rfl⟩
    obtain ⟨rfl, rfl⟩ := yields_code.mp hc
    obtain ⟨rfl, rfl, rfl⟩ := yields_pure.mp hf
    exact ⟨List.append_nil _, rfl, rfl⟩
  · rintro ⟨rfl, rfl, rfl⟩
    exact ⟨code, c', (), [], yields_code.mpr ⟨rfl, rfl⟩, yields_pure.mpr ⟨rfl, rfl, rfl⟩,
      (List.append_nil _).symm⟩

theorem yields_global {name : String} {g : Global} :
    (Emit.global name).Yields c code c' g ↔ code = [] ∧ c.defineGlobal name = (g, c') := by
  show (⟨[], (c.defineGlobal name).2, .ok (c.defineGlobal name).1⟩ : Emission Global)
    = ⟨code, c', .ok g⟩ ↔ _
  rw [Emission.mk.injEq, Except.ok.injEq, Prod.ext_iff]
  exact ⟨fun h => ⟨h.1.symm, h.2.2, h.2.1⟩, fun h => ⟨h.1.symm, h.2.2, h.2.1⟩⟩

theorem yields_branching {skip : Comparison} {r : Reg} {first : Emit α} {second : Emit β} {a : α}
    {b : β} : (branching skip r first second).Yields c code c' (a, b) ↔ ∃ code₁ c₁ code₂,
      first.Yields c code₁ c₁ a ∧ second.Yields c₁ code₂ c' b ∧
        code = .branch skip (code₁.length + 2) r (r + 1) :: code₁
          ++ .jump (code₂.length + 1) :: code₂ := by
  unfold branching Yields
  constructor
  · intro h
    rcases hx : first c with ⟨code₁, c₁, out⟩
    dsimp only at h
    rw [hx] at h
    cases out with
    | error e => exact absurd (congrArg Emission.outcome h) (by simp)
    | ok a' =>
      rcases hy : second c₁ with ⟨code₂, c₂, out⟩
      simp only [hy, Emission.mk.injEq] at h
      obtain ⟨hcode, hc, ho⟩ := h
      cases out with
      | error e => exact absurd ho (by simp [Except.map])
      | ok b' =>
        obtain ⟨rfl, rfl⟩ := Prod.mk.inj (Except.ok.inj ho)
        exact ⟨code₁, c₁, code₂, rfl, by rw [hy, hc], hcode.symm⟩
  · rintro ⟨code₁, c₁, code₂, hx, hy, rfl⟩
    dsimp only
    rw [hx]
    simp only [hy, Except.map]

end Emit

/-- Only truth values are of the kind of truth values, whichever branch they come from. -/
theorem Kind.of_merge_bool {a b : Kind} (h : a.merge b = .bool) : a = .bool ∧ b = .bool := by
  unfold merge at h
  split at h
  · rename_i hab
    exact ⟨h, hab ▸ h⟩
  · exact absurd h (by simp)

end ForkLisp.Compile

namespace ForkLisp.Terms

open ForkLisp.Code ForkLisp.Compile ForkLisp.Reader ForkLisp.Source

/-- What names stand for: functions, and the globals that are known. Operands become tasks only if
`spawns` is set. -/
structure Scope where
  names : Bindings FuncId
  functions : FuncId → Option Function
  known : Global → Prop
  spawns : Bool

/-- How many arguments a function takes. -/
def Scope.arity (s : Scope) (f : FuncId) : Option Nat := (s.functions f).map Function.arity

/-- A global is one of a context. -/
def Knows (c : Context) (g : Global) : Prop :=
  (c.globals[g.index]?).map (·.name) = some g.name

/-- The scope of a context. -/
def scopeOf (c : Context) : Scope := ⟨c.names, c.function?, Knows c, c.settings.spawn⟩

mutual

/-- A form becomes a term of some kind, with the parameters `params`. -/
inductive Resolves (s : Scope) (params : List String) : Form → Term → Kind → Prop where
  | int {range : Range} {n : Int64} : Resolves s params (.int range n) (.int n) .int
  | float {range : Range} {x : Numeric.Binary64} :
      Resolves s params (.float range x) (.float x) .float
  | truth {range : Range} {name : String} (h : isTruthName name = true) :
      Resolves s params (.symbol range name) (.bool (name == "t")) .bool
  | param {range : Range} {name : String} {i : Nat} (h : isTruthName name = false)
      (hi : params.idxOf? name = some i) : Resolves s params (.symbol range name) (.param i) .any
  | global {range : Range} {g : Global} (h : isTruthName g.name = false)
      (hi : params.idxOf? g.name = none) (hg : s.known g) :
      Resolves s params (.symbol range g.name) (.global g) .any
  | nil {range : Range} : Resolves s params (.list range []) (.bool false) .bool
  | call {range range' : Range} {name : String} {id : FuncId} {f : Function} {args : List Form}
      {ts : List Term} (hb : Builtin.ofName? name = none) (hid : s.names.find? name = some id)
      (hf : s.functions id = some f) (hn : f.arity = args.length)
      (h : ResolvesAll s params args ts) :
      Resolves s params (.list range (.symbol range' name :: args)) (.call id ts) f.kind
  | neutral {range range' : Range} {name : String} {op : ArithOp}
      (hb : Builtin.ofName? name = some (.arith op)) :
      Resolves s params (.list range [.symbol range' name]) (.int (neutral op)) .int
  | same {range range' : Range} {name : String} {op : ArithOp} {f : Form} {t : Term} {k : Kind}
      (hb : Builtin.ofName? name = some (.arith op)) (hop : op ≠ .sub)
      (h : Resolves s params f t k) :
      Resolves s params (.list range [.symbol range' name, f]) t .int
  | negate {range range' : Range} {name : String} {f : Form} {t : Term} {k : Kind}
      (hb : Builtin.ofName? name = some (.arith .sub)) (h : Resolves s params f t k) :
      Resolves s params (.list range [.symbol range' name, f]) (.negate t) .int
  | arith {range range' : Range} {name : String} {op : ArithOp} {f : Form} {fs : List Form}
      {t : Term} {ts : List Term} (hb : Builtin.ofName? name = some (.arith op)) (hne : fs ≠ [])
      (h : ResolvesOperands s params (f :: fs) (t :: ts)) :
      Resolves s params (.list range (.symbol range' name :: f :: fs)) (.arith op t ts) .int
  | compare {range range' : Range} {name : String} {test : Comparison} {lhs rhs : Form} {a b : Term}
      {k k' : Kind} (hb : Builtin.ofName? name = some (.compare test))
      (hl : Resolves s params lhs a k) (hr : Resolves s params rhs b k') :
      Resolves s params (.list range [.symbol range' name, lhs, rhs])
        (.cond test.negate a b (.bool true) (.bool false)) .bool
  | short {range range' : Range} {name : String} {test first : Form} {skip : Comparison}
      {a b t : Term} {k : Kind} (hb : Builtin.ofName? name = some .conditional)
      (hc : ResolvesTest s params test skip a b) (h : Resolves s params first t k) :
      Resolves s params (.list range [.symbol range' name, test, first])
        (.cond skip a b t (.bool false)) (k.merge .bool)
  | full {range range' : Range} {name : String} {test first second : Form} {skip : Comparison}
      {a b t u : Term} {k k' : Kind} (hb : Builtin.ofName? name = some .conditional)
      (hc : ResolvesTest s params test skip a b) (h : Resolves s params first t k)
      (h' : Resolves s params second u k') :
      Resolves s params (.list range [.symbol range' name, test, first, second])
        (.cond skip a b t u) (k.merge k')
  | assign {range range' range'' : Range} {name : String} {g : Global} {value : Form} {t : Term}
      {k : Kind} (hb : Builtin.ofName? name = some .assign) (hg : s.known g)
      (h : Resolves s params value t k) :
      Resolves s params (.list range [.symbol range' name, .symbol range'' g.name, value])
        (.assign g t) k
  | print {range range' : Range} {name : String} {value : Form} {t : Term} {k : Kind}
      (hb : Builtin.ofName? name = some .print) (h : Resolves s params value t k) :
      Resolves s params (.list range [.symbol range' name, value]) (.print (k = .bool) t) k

inductive ResolvesAll (s : Scope) (params : List String) : List Form → List Term → Prop where
  | nil : ResolvesAll s params [] []
  | cons {f : Form} {fs : List Form} {t : Term} {ts : List Term} {k : Kind}
      (h : Resolves s params f t k) (hs : ResolvesAll s params fs ts) :
      ResolvesAll s params (f :: fs) (t :: ts)

/-- Operands, some of which are calls that become tasks. -/
inductive ResolvesOperands (s : Scope) (params : List String) : List Form → List Term → Prop where
  | nil : ResolvesOperands s params [] []
  | value {f : Form} {fs : List Form} {t : Term} {ts : List Term} {k : Kind}
      (h : Resolves s params f t k) (hs : ResolvesOperands s params fs ts) :
      ResolvesOperands s params (f :: fs) (t :: ts)
  | task {range range' : Range} {name : String} {id : FuncId} {f : Function} {args fs : List Form}
      {us ts : List Term} (hsp : s.spawns = true) (hb : Builtin.ofName? name = none)
      (hid : s.names.find? name = some id)
      (hf : s.functions id = some f) (hn : f.arity = args.length) (h : ResolvesAll s params args us)
      (hs : ResolvesOperands s params fs ts) :
      ResolvesOperands s params (.list range (.symbol range' name :: args) :: fs)
        (.task id us :: ts)

/-- The condition of a conditional: two terms, and the comparison that holds of them if the
condition does not. -/
inductive ResolvesTest (s : Scope) (params : List String) :
    Form → Comparison → Term → Term → Prop where
  | compared {range range' : Range} {name : String} {test : Comparison}
      {lhs rhs : Form} {a b : Term}
      {k k' : Kind} (hb : Builtin.ofName? name = some (.compare test))
      (hl : Resolves s params lhs a k) (hr : Resolves s params rhs b k') :
      ResolvesTest s params (.list range [.symbol range' name, lhs, rhs]) test.negate a b
  | value {f : Form} {t : Term} {k : Kind} (h : Resolves s params f t k) :
      ResolvesTest s params f .eq t (.int 0)

end

/-- The forms of a body become terms; the kind is that of the last one. -/
inductive ResolvesBody (s : Scope) (params : List String) :
    List Form → List Term → Kind → Prop where
  | last {f : Form} {t : Term} {k : Kind} (h : Resolves s params f t k) :
      ResolvesBody s params [f] [t] k
  | more {f : Form} {fs : List Form} {t : Term} {ts : List Term} {k k' : Kind}
      (h : Resolves s params f t k) (hs : ResolvesBody s params fs ts k') :
      ResolvesBody s params (f :: fs) (t :: ts) k'

/-! ### Larger scopes -/

/-- A scope knows at least the globals of another one, and the same functions. -/
structure Scope.Within (s s' : Scope) : Prop where
  names : s'.names = s.names
  functions : s'.functions = s.functions
  known : ∀ g, s.known g → s'.known g
  spawns : s'.spawns = s.spawns

section

variable {s s' : Scope} {params : List String}

mutual

theorem Resolves.within (h : s.Within s') : ∀ {f t k}, Resolves s params f t k →
    Resolves s' params f t k
  | _, _, _, .int => .int
  | _, _, _, .float => .float
  | _, _, _, .truth ht => .truth ht
  | _, _, _, .param ht hi => .param ht hi
  | _, _, _, .global ht hi hg => .global ht hi (h.known _ hg)
  | _, _, _, .nil => .nil
  | _, _, _, .call hb hid hf hn ha =>
    .call hb (by rw [h.names, hid]) (by rw [h.functions, hf]) hn (ha.within h)
  | _, _, _, .neutral hb => .neutral hb
  | _, _, _, .same hb hop hf => .same hb hop (hf.within h)
  | _, _, _, .negate hb hf => .negate hb (hf.within h)
  | _, _, _, .arith hb hne hf => .arith hb hne (hf.within h)
  | _, _, _, .compare hb hl hr => .compare hb (hl.within h) (hr.within h)
  | _, _, _, .short hb hc hf => .short hb (hc.within h) (hf.within h)
  | _, _, _, .full hb hc hf hf' => .full hb (hc.within h) (hf.within h) (hf'.within h)
  | _, _, _, .assign hb hg hf => .assign hb (h.known _ hg) (hf.within h)
  | _, _, _, .print hb hf => .print hb (hf.within h)

theorem ResolvesAll.within (h : s.Within s') : ∀ {fs ts}, ResolvesAll s params fs ts →
    ResolvesAll s' params fs ts
  | _, _, .nil => .nil
  | _, _, .cons hf hs => .cons (hf.within h) (hs.within h)

theorem ResolvesOperands.within (h : s.Within s') : ∀ {fs ts}, ResolvesOperands s params fs ts →
    ResolvesOperands s' params fs ts
  | _, _, .nil => .nil
  | _, _, .value hf hs => .value (hf.within h) (hs.within h)
  | _, _, .task hsp hb hid hf hn ha hs =>
    .task (by rw [h.spawns, hsp]) hb (by rw [h.names, hid]) (by rw [h.functions, hf]) hn
      (ha.within h) (hs.within h)

theorem ResolvesTest.within (h : s.Within s') : ∀ {f skip a b}, ResolvesTest s params f skip a b →
    ResolvesTest s' params f skip a b
  | _, _, _, _, .compared hb hl hr => .compared hb (hl.within h) (hr.within h)
  | _, _, _, _, .value hf => .value (hf.within h)

end

theorem Resolves.not_task : ∀ {f t k}, Resolves s params f t k → t.isTask = false
  | _, _, _, .same _ _ h => h.not_task
  | _, _, _, .int | _, _, _, .float | _, _, _, .truth _ | _, _, _, .param _ _
  | _, _, _, .global _ _ _ | _, _, _, .nil | _, _, _, .call _ _ _ _ _ | _, _, _, .neutral _
  | _, _, _, .negate _ _ | _, _, _, .arith _ _ _ | _, _, _, .compare _ _ _ | _, _, _, .short _ _ _
  | _, _, _, .full _ _ _ _ | _, _, _, .assign _ _ _ | _, _, _, .print _ _ => rfl

theorem lt_of_idxOf? {name : String} {i : Nat} (h : params.idxOf? name = some i) :
    i < params.length := by
  unfold List.idxOf? at h
  exact (List.findIdx?_eq_some_iff_getElem.mp h).1

theorem ResolvesAll.length {fs : List Form} {ts : List Term} (h : ResolvesAll s params fs ts) :
    ts.length = fs.length := by
  induction fs generalizing ts with
  | nil => cases h; rfl
  | cons f fs ih =>
    cases h with
    | cons _ hs => rw [List.length_cons, List.length_cons, ih hs]

theorem ResolvesOperands.length {fs : List Form} {ts : List Term}
    (h : ResolvesOperands s params fs ts) : ts.length = fs.length := by
  induction fs generalizing ts with
  | nil => cases h; rfl
  | cons f fs ih =>
    cases h with
    | value _ hs => rw [List.length_cons, List.length_cons, ih hs]
    | task _ _ _ _ _ _ hs => rw [List.length_cons, List.length_cons, ih hs]

theorem Scope.arity_eq {id : FuncId} {f : Function} (h : s.functions id = some f) :
    s.arity id = some f.arity := by
  rw [Scope.arity, h, Option.map_some]

mutual

/-- A term that a form resolves to can run. -/
theorem Resolves.scoped : ∀ {f t k}, Resolves s params f t k →
    t.Scoped s.arity s.known params.length
  | _, _, _, .int | _, _, _, .float | _, _, _, .truth _ | _, _, _, .nil | _, _, _, .neutral _ =>
    trivial
  | _, _, _, .param _ hi => lt_of_idxOf? hi
  | _, _, _, .global _ _ hg => hg
  | _, _, _, .call _ _ hf hn ha => ⟨by rw [Scope.arity_eq hf, hn, ha.length], ha.scoped⟩
  | _, _, _, .same _ _ h => h.scoped
  | _, _, _, .negate _ h => h.scoped
  | _, _, _, .arith _ _ h => scoped_arith.mpr h.scoped
  | _, _, _, .compare _ hl hr => ⟨hl.scoped, hr.scoped, trivial, trivial⟩
  | _, _, _, .short _ hc h => ⟨hc.scoped.1, hc.scoped.2, h.scoped, trivial⟩
  | _, _, _, .full _ hc h h' => ⟨hc.scoped.1, hc.scoped.2, h.scoped, h'.scoped⟩
  | _, _, _, .assign _ hg h => ⟨hg, h.scoped⟩
  | _, _, _, .print _ h => h.scoped

theorem ResolvesAll.scoped : ∀ {fs ts}, ResolvesAll s params fs ts →
    AllScoped s.arity s.known params.length ts
  | _, _, .nil => trivial
  | _, _, .cons h hs => ⟨h.scoped, hs.scoped⟩

theorem ResolvesOperands.scoped : ∀ {fs ts}, ResolvesOperands s params fs ts →
    OperandsScoped s.arity s.known params.length ts
  | _, _, .nil => trivial
  | _, _, .value h hs => operandsScoped_cons.mpr
    ⟨(Term.operandScoped_of_not_task h.not_task).mpr h.scoped, hs.scoped⟩
  | _, _, .task _ _ _ hf hn ha hs => operandsScoped_cons.mpr
    ⟨⟨by rw [Scope.arity_eq hf, hn, ha.length], ha.scoped⟩, hs.scoped⟩

theorem ResolvesTest.scoped : ∀ {f skip a b}, ResolvesTest s params f skip a b →
    a.Scoped s.arity s.known params.length ∧ b.Scoped s.arity s.known params.length
  | _, _, _, _, .compared _ hl hr => ⟨hl.scoped, hr.scoped⟩
  | _, _, _, _, .value h => ⟨h.scoped, trivial⟩

end

/-- So can the terms of a body. -/
theorem ResolvesBody.scoped {fs : List Form} {ts : List Term} {k : Kind}
    (h : ResolvesBody s params fs ts k) : AllScoped s.arity s.known params.length ts := by
  induction h with
  | last h => exact ⟨h.scoped, trivial⟩
  | more h _ ih => exact ⟨h.scoped, ih⟩

theorem ResolvesBody.ne_nil {fs : List Form} {ts : List Term} {k : Kind}
    (h : ResolvesBody s params fs ts k) : ts ≠ [] := by
  cases h <;> simp

end

end ForkLisp.Terms
