/-
Generated code is the code of terms.

What `generate` emits for a form is the code of a term that the form resolves to, in the scope that
is left at the end (`generate_resolves`). Generating code only adds globals to a context, so that
the scope of a part lies within that of the whole. `generateBody_resolves` is the same for bodies.
-/
import ForkLisp.Proofs.Terms.Resolve

namespace ForkLisp.Terms

open ForkLisp.Code ForkLisp.Compile ForkLisp.Reader ForkLisp.Source

/-! ### Contexts that grow -/

/-- The names of the globals differ. -/
def DistinctGlobals (c : Context) : Prop :=
  ∀ (i j : Nat) u v, c.globals[i]? = some u → c.globals[j]? = some v → u.name = v.name → i = j

/-- A context has the globals of another one and perhaps more, which are zero, and else the same. -/
structure Grows (c c' : Context) : Prop where
  settings : c'.settings = c.settings
  functions : c'.functions = c.functions
  names : c'.names = c.names
  table : c'.table = c.table
  globals : ∃ more, c'.globals = c.globals ++ more ∧ ∀ v ∈ more, v.value = .int 0
  distinct : DistinctGlobals c → DistinctGlobals c'

namespace Grows

variable {c c' c'' : Context}

theorem refl (c : Context) : Grows c c :=
  ⟨rfl, rfl, rfl, rfl, ⟨#[], by simp, fun _ hv => absurd hv (by simp)⟩, id⟩

theorem trans (h : Grows c c') (h' : Grows c' c'') : Grows c c'' := by
  obtain ⟨more, hm, hz⟩ := h.globals
  obtain ⟨more', hm', hz'⟩ := h'.globals
  refine ⟨h'.settings.trans h.settings, h'.functions.trans h.functions, h'.names.trans h.names,
    h'.table.trans h.table, ⟨more ++ more', by rw [hm', hm, Array.append_assoc], fun v hv => ?_⟩,
    fun hd => h'.distinct (h.distinct hd)⟩
  exact (Array.mem_append.mp hv).elim (hz v) (hz' v)

theorem getElem? (h : Grows c c') {i : Nat} {v : Variable} (hv : c.globals[i]? = some v) :
    c'.globals[i]? = some v := by
  obtain ⟨more, hm, -⟩ := h.globals
  rw [hm, Array.getElem?_append_left (Array.getElem?_eq_some_iff.mp hv).1, hv]

theorem knows (h : Grows c c') {g : Global} (hg : Knows c g) : Knows c' g := by
  obtain ⟨v, hv, hn⟩ := Option.map_eq_some_iff.mp hg
  unfold Knows
  rw [h.getElem? hv, Option.map_some, hn]

theorem within (h : Grows c c') : (scopeOf c).Within (scopeOf c') := by
  refine ⟨h.names, ?_, fun g => h.knows, congrArg (·.spawn) h.settings⟩
  funext f
  show c'.functions[f]? = c.functions[f]?
  rw [h.functions]

end Grows

theorem knows_of_findGlobal {c : Context} {name : String} {g : Global}
    (h : c.findGlobal? name = some g) : Knows c g ∧ g.name = name := by
  obtain ⟨i, hi, rfl⟩ := Option.map_eq_some_iff.mp h
  obtain ⟨hlt, hname, -⟩ := Array.findIdx?_eq_some_iff_getElem.mp hi
  refine ⟨?_, rfl⟩
  unfold Knows
  rw [Array.getElem?_eq_getElem hlt, Option.map_some, Option.some_inj]
  exact eq_of_beq hname

/-- A global whose name is new differs from the others. -/
theorem DistinctGlobals.push {c : Context} (h : DistinctGlobals c) {name : String}
    (hn : c.findGlobal? name = none) (value : Machine.Slot) :
    DistinctGlobals { c with globals := c.globals.push ⟨name, value⟩ } := by
  have hnew : ∀ (i : Nat) u, c.globals[i]? = some u → u.name ≠ name := by
    intro i u hu hname
    have hall := Array.findIdx?_eq_none_iff.mp (Option.map_eq_none_iff.mp hn) u
      (Array.mem_of_getElem? hu)
    simp [hname] at hall
  intro i j u v hu hv he
  rw [Array.getElem?_push] at hu hv
  split at hu
  · split at hv
    · rename_i hi hj
      rw [hi, hj]
    · obtain rfl := Option.some.inj hu
      exact absurd he.symm (hnew j v hv)
  · split at hv
    · obtain rfl := Option.some.inj hv
      exact absurd he (hnew i u hu)
    · exact h i j u v hu hv he

theorem defineGlobal_grows {c c' : Context} {name : String} {g : Global}
    (h : c.defineGlobal name = (g, c')) : Grows c c' ∧ Knows c' g ∧ g.name = name := by
  unfold Context.defineGlobal at h
  split at h
  · rename_i g' hg
    obtain ⟨rfl, rfl⟩ := Prod.mk.inj h
    exact ⟨.refl c, knows_of_findGlobal hg⟩
  · rename_i hn
    obtain ⟨rfl, rfl⟩ := Prod.mk.inj h
    refine ⟨⟨rfl, rfl, rfl, rfl, ⟨#[⟨name, .int 0⟩], ?_, ?_⟩, fun hd => hd.push hn _⟩, ?_, rfl⟩
    · rw [Array.push_eq_append]
    · intro v hv
      rw [Array.mem_singleton.mp hv]
    · unfold Knows
      simp

/-! ### Parts -/

section

variable {params : List String} {c c' : Context} {code : List Inst}

theorem yields_require {accepts : Kind → Bool} {range : Range} {operator : String}
    {part : Emit Kind} {k : Kind} (h : (require accepts range operator part).Yields c code c' k) :
    part.Yields c code c' k := by
  obtain ⟨code₁, c₁, k', code₂, hp, hk, rfl⟩ := Emit.yields_bind.mp h
  split at hk
  · obtain ⟨rfl, rfl, rfl⟩ := Emit.yields_pure.mp hk
    rw [List.append_nil]
    exact hp
  · exact absurd hk Emit.yields_fail

theorem yields_resolve {range : Range} {name : String} {count : Nat} {id : FuncId} {k : Kind}
    (h : (resolve params range name count).Yields c code c' (id, k)) :
    code = [] ∧ c' = c ∧ ∃ f, c.names.find? name = some id ∧ c.function? id = some f ∧
      f.arity = count ∧ f.kind = k := by
  obtain ⟨code₁, c₁, a, code₂, hc, hm, rfl⟩ := Emit.yields_bind.mp h
  obtain ⟨rfl, rfl, rfl⟩ := Emit.yields_context.mp hc
  split at hm
  · rename_i id' f hf
    split at hm
    · rename_i hn
      obtain ⟨rfl, rfl, he⟩ := Emit.yields_pure.mp hm
      obtain ⟨rfl, rfl⟩ := Prod.mk.inj he
      obtain ⟨id'', hid, hf⟩ := Option.bind_eq_some_iff.mp hf
      obtain ⟨f', hf', he⟩ := Option.map_eq_some_iff.mp hf
      obtain ⟨rfl, rfl⟩ := Prod.mk.inj he
      exact ⟨rfl, rfl, f', hid, hf', hn, rfl⟩
    · exact absurd hm Emit.yields_fail
  · split at hm
    · exact absurd hm Emit.yields_fail
    · exact absurd hm Emit.yields_fail

/-! ### What is shown of each part -/

/-- A form compiles to a term that it resolves to. -/
def Compiles (params : List String) (f : Form) : Prop :=
  ∀ r c code c' k, (generate params f r).Yields c code c' k →
    Grows c c' ∧ ∃ t, code = t.emit r ∧ Resolves (scopeOf c') params f t k

/-- Arguments compile to terms that they resolve to. -/
def ArgumentsCompile (params : List String) (fs : List Form) : Prop :=
  ∀ r c code c' a, (generateArguments params fs r).Yields c code c' a →
    Grows c c' ∧ ∃ ts, code = emitArguments ts r ∧ ResolvesAll (scopeOf c') params fs ts

/-- The registers of operands. -/
def operandRegs : List Term → Reg → List Operand
  | [], _ => []
  | t :: ts, r => ⟨r, t.isTask⟩ :: operandRegs ts (r + t.width)

/-- Operands compile to terms that they resolve to. -/
def OperandsCompile (params : List String) (fs : List Form) : Prop :=
  ∀ operator spawn r c code c' os, (spawn = true → c.settings.spawn = true) →
    (generateOperands params operator spawn fs r).Yields c code c' os →
    Grows c c' ∧ ∃ ts, code = emitOperands ts r ∧ os = operandRegs ts r ∧
      ResolvesOperands (scopeOf c') params fs ts

/-- The operands of a comparison compile to two terms that they resolve to. -/
def ComparandsCompile (params : List String) (fs : List Form) : Prop :=
  ∀ range name r c code c' a, (generateComparands params range name fs r).Yields c code c' a →
    Grows c c' ∧ ∃ lhs rhs t u k k', fs = [lhs, rhs] ∧ code = t.emit r ++ u.emit (r + 1) ∧
      Resolves (scopeOf c') params lhs t k ∧ Resolves (scopeOf c') params rhs u k'

theorem joinCode_eq (ts : List Term) (r : Nat) :
    ((operandRegs ts r).filter (·.spawned)).map (fun o => Inst.join o.reg) = joinCode ts r := by
  induction ts generalizing r with
  | nil => rfl
  | cons t ts ih =>
    rw [operandRegs, joinCode, ← ih]
    cases t.isTask <;> simp

theorem foldCode_eq (op : ArithOp) (dst : Nat) (ts : List Term) (r : Nat) :
    (operandRegs ts r).map (fun o => Inst.arith op dst o.reg) = foldCode op dst ts r := by
  induction ts generalizing r with
  | nil => rfl
  | cons t ts ih => rw [operandRegs, foldCode, ← ih, List.map_cons]

theorem combine_operandRegs (op : ArithOp) (t u : Term) (ts : List Term) (r : Nat) :
    Compile.combine op r (operandRegs (t :: u :: ts) r) =
      joinCode (t :: u :: ts) r ++ foldCode op r (u :: ts) (r + t.width) := by
  rw [← joinCode_eq, ← foldCode_eq]
  rfl

theorem symbol_compiles (range : Range) (name : String) :
    Compiles params (.symbol range name) := by
  intro r c code c' k h
  unfold generate generateSymbol at h
  split at h
  · rename_i ht
    obtain ⟨rfl, rfl, rfl⟩ := Emit.yields_code_pure.mp h
    exact ⟨.refl _, _, rfl, .truth ht⟩
  · rename_i ht
    rw [Bool.not_eq_true] at ht
    split at h
    · rename_i i hi
      obtain ⟨rfl, rfl, rfl⟩ := Emit.yields_code_pure.mp h
      exact ⟨.refl _, _, rfl, .param ht hi⟩
    · rename_i hi
      rw [Emit.yields_context_bind] at h
      split at h
      · rename_i g hg
        obtain ⟨rfl, rfl, rfl⟩ := Emit.yields_code_pure.mp h
        obtain ⟨hknows, rfl⟩ := knows_of_findGlobal hg
        exact ⟨.refl _, _, rfl, .global ht hi hknows⟩
      · exact absurd h Emit.yields_fail

theorem call_compiles {range range' : Range} {name : String} {args : List Form}
    (hb : Builtin.ofName? name = none) (ha : ArgumentsCompile params args) :
    Compiles params (.list range (.symbol range' name :: args)) := by
  intro r c code c' k h
  unfold generate at h
  simp only [hb] at h
  obtain ⟨code₁, c₁, ⟨id, kind⟩, code₂, hres, hgo, rfl⟩ := Emit.yields_bind.mp h
  obtain ⟨rfl, rfl, f, hid, hf, hn, rfl⟩ := yields_resolve hres
  obtain ⟨code₁, c₂, u, code₂, hargs, hgo', rfl⟩ := Emit.yields_bind.mp hgo
  obtain ⟨rfl, rfl, rfl⟩ := Emit.yields_code_pure.mp hgo'
  obtain ⟨hg, ts, rfl, hts⟩ := ha _ _ _ _ _ hargs
  refine ⟨hg, .call id ts, rfl, .call hb ?_ ?_ hn hts⟩
  · rw [← hid]
    exact congrArg (·.find? name) hg.names
  · rw [← hf]
    exact congrFun hg.within.functions id

theorem compare_compiles {range range' : Range} {name : String} {args : List Form}
    {test : Comparison} (hb : Builtin.ofName? name = some (.compare test))
    (ha : ComparandsCompile params args) :
    Compiles params (.list range (.symbol range' name :: args)) := by
  intro r c code c' k h
  unfold generate at h
  simp only [hb] at h
  obtain ⟨code₁, c₁, u, code₂, hargs, hgo, rfl⟩ := Emit.yields_bind.mp h
  obtain ⟨hg, lhs, rhs, a, b, k₁, k₂, rfl, rfl, hl, hr⟩ := ha _ _ _ _ _ _ _ hargs
  obtain ⟨code₃, c₂, ⟨u₁, u₂⟩, code₄, hbr, hk, rfl⟩ := Emit.yields_bind.mp hgo
  obtain ⟨rfl, rfl, rfl⟩ := Emit.yields_pure.mp hk
  obtain ⟨code₅, c₃, code₆, h₁, h₂, rfl⟩ := Emit.yields_branching.mp hbr
  obtain ⟨rfl, rfl⟩ := Emit.yields_code.mp h₁
  obtain ⟨rfl, rfl⟩ := Emit.yields_code.mp h₂
  refine ⟨hg, _, ?_, .compare hb hl hr⟩
  simp [Term.emit]

/-- The code of a condition is that of two terms, side by side. -/
theorem condition_compiles {f : Form} (hf : Compiles params f)
    (hc : ∀ range head args, f = .list range (head :: args) → ComparandsCompile params args)
    {r : Reg} {c c' : Context} {code : List Inst} {skip : Comparison}
    (h : (condition f r (fun name => generateCompared params name f r)
      (generate params f r)).Yields c code c' skip) :
    Grows c c' ∧ ∃ a b, code = a.emit r ++ b.emit (r + 1) ∧
      ResolvesTest (scopeOf c') params f skip a b := by
  unfold condition at h
  split at h
  · rename_i name test hcmp
    obtain ⟨code₁, c₁, u, code₂, hops, hk, rfl⟩ := Emit.yields_bind.mp h
    obtain ⟨rfl, rfl, rfl⟩ := Emit.yields_pure.mp hk
    unfold comparisonCall? at hcmp
    split at hcmp
    · rename_i range range' name' args
      obtain ⟨test', ht, he⟩ := Option.map_eq_some_iff.mp hcmp
      obtain ⟨rfl, rfl⟩ := Prod.mk.inj he
      have hb : Builtin.ofName? name' = some (.compare test') := by
        unfold Builtin.comparison? at ht
        split at ht
        · rename_i hb
          rw [hb, Option.some.inj ht]
        · exact absurd ht (by simp)
      unfold generateCompared at hops
      obtain ⟨hg, lhs, rhs, a, b, k₁, k₂, rfl, rfl, hl, hr⟩ := hc _ _ _ rfl _ _ _ _ _ _ _ hops
      exact ⟨hg, a, b, by rw [List.append_nil], .compared hb hl hr⟩
    · exact absurd hcmp (by simp)
  · obtain ⟨code₁, c₁, k, code₂, hval, hgo, rfl⟩ := Emit.yields_bind.mp h
    obtain ⟨rfl, rfl, rfl⟩ := Emit.yields_code_pure.mp hgo
    obtain ⟨hg, t, rfl, ht⟩ := hf _ _ _ _ _ (yields_require hval)
    exact ⟨hg, t, .int 0, rfl, .value ht⟩

theorem short_compiles {range range' : Range} {name : String} {test first : Form}
    (hb : Builtin.ofName? name = some .conditional) (ht : Compiles params test)
    (hc : ∀ range head args, test = .list range (head :: args) → ComparandsCompile params args)
    (h1 : Compiles params first) :
    Compiles params (.list range [.symbol range' name, test, first]) := by
  intro r c code c' k h
  simp only [generate, hb] at h
  obtain ⟨code₁, c₁, skip, code₂, hcond, hgo, rfl⟩ := Emit.yields_bind.mp h
  obtain ⟨hg, a, b, rfl, hab⟩ := condition_compiles ht hc hcond
  obtain ⟨code₃, c₂, ⟨k₁, u⟩, code₄, hbr, hk, rfl⟩ := Emit.yields_bind.mp hgo
  obtain ⟨rfl, rfl, rfl⟩ := Emit.yields_pure.mp hk
  obtain ⟨code₅, c₃, code₆, hf, hs, rfl⟩ := Emit.yields_branching.mp hbr
  obtain ⟨hg', t, rfl, hres⟩ := h1 _ _ _ _ _ hf
  obtain ⟨rfl, rfl⟩ := Emit.yields_code.mp hs
  refine ⟨hg.trans hg', _, ?_, .short hb (hab.within hg'.within) hres⟩
  simp [Term.emit]

theorem full_compiles {range range' : Range} {name : String} {test first second : Form}
    (hb : Builtin.ofName? name = some .conditional) (ht : Compiles params test)
    (hc : ∀ range head args, test = .list range (head :: args) → ComparandsCompile params args)
    (h1 : Compiles params first) (h2 : Compiles params second) :
    Compiles params (.list range [.symbol range' name, test, first, second]) := by
  intro r c code c' k h
  simp only [generate, hb] at h
  obtain ⟨code₁, c₁, skip, code₂, hcond, hgo, rfl⟩ := Emit.yields_bind.mp h
  obtain ⟨hg, a, b, rfl, hab⟩ := condition_compiles ht hc hcond
  obtain ⟨code₃, c₂, ⟨k₁, k₂⟩, code₄, hbr, hk, rfl⟩ := Emit.yields_bind.mp hgo
  obtain ⟨rfl, rfl, rfl⟩ := Emit.yields_pure.mp hk
  obtain ⟨code₅, c₃, code₆, hf, hs, rfl⟩ := Emit.yields_branching.mp hbr
  obtain ⟨hg', t, rfl, hres⟩ := h1 _ _ _ _ _ hf
  obtain ⟨hg'', u, rfl, hres'⟩ := h2 _ _ _ _ _ hs
  refine ⟨(hg.trans hg').trans hg'', _, ?_,
    .full hb (hab.within (hg'.trans hg'').within) (hres.within hg''.within) hres'⟩
  simp [Term.emit]

theorem yields_assignable {target : Form} {name : String} {c c' : Context} {code : List Inst}
    (h : (assignable target).Yields c code c' name) :
    code = [] ∧ c' = c ∧ ∃ range, target = .symbol range name := by
  unfold assignable at h
  simp only at h
  split at h
  · rename_i name' hs
    split at h
    · exact absurd h Emit.yields_fail
    · obtain ⟨rfl, rfl, rfl⟩ := Emit.yields_pure.mp h
      cases target with
      | symbol range n =>
        obtain rfl := Option.some.inj hs
        exact ⟨rfl, rfl, range, rfl⟩
      | _ => exact absurd hs (by simp [Form.symbol?])
  · exact absurd h Emit.yields_fail

theorem assign_compiles {range range' : Range} {name : String} {target value : Form}
    (hb : Builtin.ofName? name = some .assign) (hv : Compiles params value) :
    Compiles params (.list range [.symbol range' name, target, value]) := by
  intro r c code c' k h
  simp only [generate, hb] at h
  obtain ⟨code₁, c₁, var, code₂, hname, hgo, rfl⟩ := Emit.yields_bind.mp h
  obtain ⟨rfl, rfl, range'', rfl⟩ := yields_assignable hname
  obtain ⟨code₁, c₂, k', code₂, hval, hgo', rfl⟩ := Emit.yields_bind.mp hgo
  obtain ⟨hg, t, rfl, ht⟩ := hv _ _ _ _ _ hval
  obtain ⟨code₃, c₃, g, code₄, hglobal, hgo'', rfl⟩ := Emit.yields_bind.mp hgo'
  obtain ⟨rfl, hdef⟩ := Emit.yields_global.mp hglobal
  obtain ⟨rfl, rfl, rfl⟩ := Emit.yields_code_pure.mp hgo''
  obtain ⟨hg', hknows, rfl⟩ := defineGlobal_grows hdef
  exact ⟨hg.trans hg', .assign g t, rfl, .assign hb hknows (ht.within hg'.within)⟩

theorem print_compiles {range range' : Range} {name : String} {value : Form}
    (hb : Builtin.ofName? name = some .print) (hv : Compiles params value) :
    Compiles params (.list range [.symbol range' name, value]) := by
  intro r c code c' k h
  simp only [generate, hb] at h
  obtain ⟨code₁, c₁, k', code₂, hval, hgo, rfl⟩ := Emit.yields_bind.mp h
  obtain ⟨rfl, rfl, rfl⟩ := Emit.yields_code_pure.mp hgo
  obtain ⟨hg, t, rfl, ht⟩ := hv _ _ _ _ _ hval
  refine ⟨hg, .print (k' = .bool) t, ?_, .print hb ht⟩
  by_cases hk : k' = .bool
  · simp [Term.emit, hk]
  · simp [Term.emit, hk]

/-! ### Operands -/

/-- A form may stand as an operand for a term, in this scope and in larger ones. -/
def Serves (s : Scope) (params : List String) (f : Form) (t : Term) : Prop :=
  ∀ s', s.Within s' → ∀ fs ts, ResolvesOperands s' params fs ts →
    ResolvesOperands s' params (f :: fs) (t :: ts)

theorem Resolves.serves {s : Scope} {f : Form} {t : Term} {k : Kind}
    (h : Resolves s params f t k) : Serves s params f t :=
  fun _ hs _ _ hts => .value (h.within hs) hts

theorem arguments_compile {fs : List Form} (h : ∀ f ∈ fs, Compiles params f) :
    ArgumentsCompile params fs := by
  induction fs with
  | nil =>
    intro r c code c' u hy
    unfold generateArguments at hy
    obtain ⟨rfl, rfl, -⟩ := Emit.yields_pure.mp hy
    exact ⟨.refl _, [], rfl, .nil⟩
  | cons f fs ih =>
    intro r c code c' u hy
    unfold generateArguments at hy
    obtain ⟨code₁, c₁, k, code₂, hf, hs, rfl⟩ := Emit.yields_bind.mp hy
    obtain ⟨hg, t, rfl, ht⟩ := h f List.mem_cons_self _ _ _ _ _ hf
    obtain ⟨hg', ts, rfl, hts⟩ := ih (fun g hm => h g (List.mem_cons_of_mem f hm)) _ _ _ _ _ hs
    exact ⟨hg.trans hg', t :: ts, rfl, .cons (ht.within hg'.within) hts⟩

theorem comparands_compile {fs : List Form} (h : ∀ f ∈ fs, Compiles params f) :
    ComparandsCompile params fs := by
  intro range name r c code c' u hy
  unfold generateComparands at hy
  split at hy
  · rename_i lhs rhs
    obtain ⟨code₁, c₁, k, code₂, hl, hgo, rfl⟩ := Emit.yields_bind.mp hy
    obtain ⟨code₃, c₂, k', code₄, hr, hk, rfl⟩ := Emit.yields_bind.mp hgo
    obtain ⟨rfl, rfl, -⟩ := Emit.yields_pure.mp hk
    obtain ⟨hg, a, rfl, ha⟩ := h lhs (by simp) _ _ _ _ _ (yields_require hl)
    obtain ⟨hg', b, rfl, hb⟩ := h rhs (by simp) _ _ _ _ _ (yields_require hr)
    exact ⟨hg.trans hg', lhs, rhs, a, b, k, k', rfl, by rw [List.append_nil],
      ha.within hg'.within, hb⟩
  · exact absurd hy Emit.yields_fail

/-- The arguments of a form compile. -/
def PartsCompile (params : List String) (f : Form) : Prop :=
  ∀ range head args, f = .list range (head :: args) → ∀ g ∈ args, Compiles params g

/-- A form that calls a function of the user is a list that starts with a name which is
not built in. -/
theorem userCall?_eq_some {f : Form} {name : String} {count : Nat}
    (h : userCall? f = some (name, count)) : ∃ range range' args,
      f = .list range (.symbol range' name :: args) ∧ Builtin.ofName? name = none ∧
        count = args.length := by
  unfold userCall? at h
  split at h
  · split at h
    · exact absurd h (by simp)
    · rename_i hb
      obtain ⟨rfl, rfl⟩ := Prod.mk.inj (Option.some.inj h)
      exact ⟨_, _, _, rfl, Option.not_isSome_iff_eq_none.mp hb, rfl⟩
  · exact absurd h (by simp)

theorem operand_compiles {f : Form} (hf : Compiles params f) (hp : PartsCompile params f)
    {operator : String} {r : Reg} {c c' : Context} {code : List Inst} {o : Operand}
    (hsp : c.settings.spawn = true)
    (h : (operand params operator f r (generateArgumentsOf params f) (generate params f r)).Yields
      c code c' o) :
    Grows c c' ∧ ∃ t, code = t.emit r ∧ o = ⟨r, t.isTask⟩ ∧ Serves (scopeOf c') params f t := by
  have hvalue : ∀ {code₁ code₂ c₁ k}, (require Kind.isArithmetic f.range operator
      (generate params f r)).Yields c code₁ c₁ k →
      (pure ⟨r, false⟩ : Emit Operand).Yields c₁ code₂ c' o →
      Grows c c' ∧ ∃ t, code₁ ++ code₂ = t.emit r ∧ o = ⟨r, t.isTask⟩ ∧
        Serves (scopeOf c') params f t := by
    intro code₁ code₂ c₁ k hval hk
    obtain ⟨rfl, rfl, rfl⟩ := Emit.yields_pure.mp hk
    obtain ⟨hg, t, rfl, ht⟩ := hf _ _ _ _ _ (yields_require hval)
    exact ⟨hg, t, List.append_nil _, by rw [ht.not_task], ht.serves⟩
  unfold operand at h
  split at h
  · rename_i name count hcall
    obtain ⟨code₁, c₁, ⟨id, kind⟩, code₂, hres, hgo, rfl⟩ := Emit.yields_bind.mp h
    obtain ⟨rfl, rfl, fn, hid, hfn, hn, rfl⟩ := yields_resolve hres
    rw [List.nil_append]
    dsimp only at hgo
    -- a call becomes a task if its kind is one that arithmetic takes
    split at hgo
    · obtain ⟨code₁, c₂, u, code₂, hargs, hgo', rfl⟩ := Emit.yields_bind.mp hgo
      obtain ⟨rfl, rfl, rfl⟩ := Emit.yields_code_pure.mp hgo'
      obtain ⟨range, range', args, rfl, hb, rfl⟩ := userCall?_eq_some hcall
      unfold generateArgumentsOf at hargs
      obtain ⟨hg, ts, rfl, hts⟩ := arguments_compile (hp _ _ _ rfl) _ _ _ _ _ hargs
      refine ⟨hg, .task id ts, rfl, rfl, fun s' hs fs us hus => ?_⟩
      refine .task ?_ hb ?_ ?_ hn (hts.within hs) hus
      · rw [hs.spawns, hg.within.spawns]
        exact hsp
      · rw [hs.names, hg.within.names]
        exact hid
      · rw [hs.functions, hg.within.functions]
        exact hfn
    · obtain ⟨code₁, c₂, k, code₂, hval, hk, rfl⟩ := Emit.yields_bind.mp hgo
      exact hvalue hval hk
  · obtain ⟨code₁, c₂, k, code₂, hval, hk, rfl⟩ := Emit.yields_bind.mp h
    exact hvalue hval hk

theorem operands_compile {fs : List Form}
    (h : ∀ f ∈ fs, Compiles params f ∧ PartsCompile params f) : OperandsCompile params fs := by
  induction fs with
  | nil =>
    intro operator spawn r c code c' os _ hy
    unfold generateOperands at hy
    obtain ⟨rfl, rfl, rfl⟩ := Emit.yields_pure.mp hy
    exact ⟨.refl _, [], rfl, rfl, .nil⟩
  | cons f fs ih =>
    intro operator spawn r c code c' os hsp hy
    obtain ⟨hc, hp⟩ := h f List.mem_cons_self
    -- whatever the first operand is, the others follow in the registers behind it
    have hrest : ∀ {t : Term} {c₁ : Context} {code₂ : List Inst}, Grows c c₁ →
        Serves (scopeOf c₁) params f t →
        (generateOperands params operator spawn fs (r + t.width) >>= fun rest =>
          pure (⟨r, t.isTask⟩ :: rest)).Yields c₁ code₂ c' os →
        Grows c c' ∧ ∃ ts, t.emit r ++ code₂ = emitOperands ts r ∧ os = operandRegs ts r ∧
          ResolvesOperands (scopeOf c') params (f :: fs) ts := by
      intro t c₁ code₂ hg ht hgo
      obtain ⟨code₃, c₂, os', code₄, hs, hk, rfl⟩ := Emit.yields_bind.mp hgo
      obtain ⟨rfl, rfl, rfl⟩ := Emit.yields_pure.mp hk
      obtain ⟨hg', ts, rfl, rfl, hts⟩ :=
        ih (fun g hm => h g (List.mem_cons_of_mem f hm)) _ _ _ _ _ _ _
          (fun hspawn => (congrArg (·.spawn) hg.settings).trans (hsp hspawn)) hs
      exact ⟨hg.trans hg', t :: ts, by rw [List.append_nil]; rfl, rfl, ht _ hg'.within _ _ hts⟩
    unfold generateOperands at hy
    dsimp only at hy
    split at hy
    · rename_i hif
      obtain ⟨code₁, c₁, o, code₂, hf, hgo, rfl⟩ := Emit.yields_bind.mp hy
      obtain ⟨hg, t, rfl, rfl, ht⟩ :=
        operand_compiles hc hp (hsp (Bool.and_eq_true_iff.mp hif).1) hf
      exact hrest hg ht hgo
    · obtain ⟨code₁, c₁, k, code₂, hf, hgo, rfl⟩ := Emit.yields_bind.mp hy
      obtain ⟨hg, t, rfl, ht⟩ := hc _ _ _ _ _ (yields_require hf)
      obtain ⟨code₃, c₂, o, code₄, hk, hgo', rfl⟩ := Emit.yields_bind.mp hgo
      obtain ⟨rfl, rfl, rfl⟩ := Emit.yields_pure.mp hk
      refine hrest hg ht.serves ?_
      rw [ht.not_task, show t.width = 1 from if_neg (by rw [ht.not_task]; decide)]
      exact hgo'

/-- A single operand is generated like any form. -/
theorem generateOperands_single {f : Form} (hf : Compiles params f) {operator : String}
    {spawn : Bool} {r : Reg} {os : List Operand}
    (h : (generateOperands params operator spawn [f] r).Yields c code c' os) :
    Grows c c' ∧ os = [⟨r, false⟩] ∧ ∃ t k, code = t.emit r ∧
      Resolves (scopeOf c') params f t k := by
  unfold generateOperands at h
  dsimp only at h
  rw [List.isEmpty_nil, Bool.not_true, Bool.and_false, if_neg (by decide)] at h
  obtain ⟨code₁, c₁, k, code₂, hval, hgo, rfl⟩ := Emit.yields_bind.mp h
  obtain ⟨hg, t, rfl, ht⟩ := hf _ _ _ _ _ (yields_require hval)
  obtain ⟨code₃, c₂, o, code₄, hk, hgo', rfl⟩ := Emit.yields_bind.mp hgo
  obtain ⟨rfl, rfl, rfl⟩ := Emit.yields_pure.mp hk
  unfold generateOperands at hgo'
  obtain ⟨code₅, c₃, os', code₆, hnil, hk', rfl⟩ := Emit.yields_bind.mp hgo'
  obtain ⟨rfl, rfl, rfl⟩ := Emit.yields_pure.mp hnil
  obtain ⟨rfl, rfl, rfl⟩ := Emit.yields_pure.mp hk'
  exact ⟨hg, rfl, t, k, by simp, ht⟩

theorem arith_compiles {range range' : Range} {name : String} {args : List Form} {op : ArithOp}
    (hb : Builtin.ofName? name = some (.arith op))
    (ha : ∀ f ∈ args, Compiles params f ∧ PartsCompile params f) :
    Compiles params (.list range (.symbol range' name :: args)) := by
  intro r c code c' k h
  unfold generate at h
  simp only [hb] at h
  split at h
  · exact absurd h Emit.yields_fail
  · rw [Emit.yields_context_bind] at h
    obtain ⟨code₁, c₁, os, code₂, hops, hgo, rfl⟩ := Emit.yields_bind.mp h
    obtain ⟨rfl, rfl, rfl⟩ := Emit.yields_code_pure.mp hgo
    have hspawn : (c.settings.spawn && spawnsOperands op) = true → c.settings.spawn = true :=
      fun h => (Bool.and_eq_true_iff.mp h).1
    -- without operands there is nothing to combine, and a single one is negated or left as it is
    match args, ha, hops with
    | [], ha, hops =>
      obtain ⟨hg, ts, rfl, rfl, hts⟩ := operands_compile ha _ _ _ _ _ _ _ hspawn hops
      cases hts
      exact ⟨hg, .int (neutral op), rfl, .neutral hb⟩
    | [f], ha, hops =>
      obtain ⟨hg, rfl, t, k, rfl, ht⟩ := generateOperands_single (ha f (by simp)).1 hops
      by_cases hop : op = .sub
      · subst hop
        exact ⟨hg, .negate t, rfl, .negate hb ht⟩
      · refine ⟨hg, t, ?_, .same hb hop ht⟩
        rw [combine, if_neg hop, List.append_nil]
    | f :: f' :: fs, ha, hops =>
      obtain ⟨hg, ts, rfl, rfl, hts⟩ := operands_compile ha _ _ _ _ _ _ _ hspawn hops
      match ts, hts with
      | t :: u :: ts, hts =>
        refine ⟨hg, .arith op t (u :: ts), ?_, .arith hb (by simp) hts⟩
        rw [combine_operandRegs, Term.emit_arith]

/-- What is refused compiles to nothing that would have to be right. -/
theorem compiles_of_fail {f : Form} (h : ∀ r, ∃ e, generate params f r = .fail e) :
    Compiles params f := by
  intro r c code c' k hy
  obtain ⟨e, he⟩ := h r
  rw [he] at hy
  exact absurd hy Emit.yields_fail

/-- A list compiles if its arguments do. -/
theorem list_compiles {range : Range} {head : Form} {args : List Form}
    (ha : ∀ f ∈ args, Compiles params f ∧ PartsCompile params f) :
    Compiles params (.list range (head :: args)) := by
  have hc : ∀ f ∈ args, Compiles params f := fun f hm => (ha f hm).1
  have hparts : ∀ f ∈ args, ∀ range head items, f = .list range (head :: items) →
      ComparandsCompile params items :=
    fun f hm _ _ _ he => comparands_compile ((ha f hm).2 _ _ _ he)
  -- what the name in front stands for decides on the code
  cases head with
  | symbol range' name =>
    rcases hb : Builtin.ofName? name with _ | b
    · exact call_compiles hb (arguments_compile hc)
    · cases b with
      | arith op => exact arith_compiles hb ha
      | compare test => exact compare_compiles hb (comparands_compile hc)
      | conditional =>
        rcases args with _ | ⟨test, _ | ⟨first, _ | ⟨second, _ | ⟨extra, rest⟩⟩⟩⟩
        case cons.cons.nil =>
          exact short_compiles hb (hc test (by simp)) (hparts test (by simp)) (hc first (by simp))
        case cons.cons.cons.nil =>
          exact full_compiles hb (hc test (by simp)) (hparts test (by simp)) (hc first (by simp))
            (hc second (by simp))
        all_goals
          refine compiles_of_fail fun r => ?_
          unfold generate
          simp only [hb]
          exact ⟨_, rfl⟩
      | assign =>
        rcases args with _ | ⟨target, _ | ⟨value, _ | ⟨extra, rest⟩⟩⟩
        case cons.cons.nil => exact assign_compiles hb (hc value (by simp))
        all_goals
          refine compiles_of_fail fun r => ?_
          unfold generate
          simp only [hb]
          exact ⟨_, rfl⟩
      | print =>
        rcases args with _ | ⟨value, _ | ⟨extra, rest⟩⟩
        case cons.nil => exact print_compiles hb (hc value (by simp))
        all_goals
          refine compiles_of_fail fun r => ?_
          unfold generate
          simp only [hb]
          exact ⟨_, rfl⟩
      | define =>
        refine compiles_of_fail fun r => ?_
        unfold generate
        simp only [hb]
        exact ⟨_, rfl⟩
  | int _ _ | float _ _ | list _ _ => exact compiles_of_fail fun r => ⟨_, generate_head rfl r⟩

mutual

theorem form_compiles : ∀ f, Compiles params f ∧ PartsCompile params f
  | .int range n => by
    refine ⟨fun r c code c' k h => ?_, fun _ _ _ he => absurd he (by simp)⟩
    unfold generate at h
    obtain ⟨rfl, rfl, rfl⟩ := Emit.yields_code_pure.mp h
    exact ⟨.refl _, _, rfl, .int⟩
  | .float range x => by
    refine ⟨fun r c code c' k h => ?_, fun _ _ _ he => absurd he (by simp)⟩
    unfold generate at h
    obtain ⟨rfl, rfl, rfl⟩ := Emit.yields_code_pure.mp h
    exact ⟨.refl _, _, rfl, .float⟩
  | .symbol range name =>
    ⟨symbol_compiles range name, fun _ _ _ he => absurd he (by simp)⟩
  | .list range [] => by
    refine ⟨fun r c code c' k h => ?_, fun _ _ _ he => absurd he (by simp)⟩
    unfold generate at h
    obtain ⟨rfl, rfl, rfl⟩ := Emit.yields_code_pure.mp h
    exact ⟨.refl _, _, rfl, .nil⟩
  | .list range (head :: args) => by
    have hargs := forms_compile args
    refine ⟨?_, ?_⟩
    · exact list_compiles hargs
    · rintro _ _ _ he g hm
      obtain ⟨-, rfl, rfl⟩ : _ ∧ head = _ ∧ args = _ := by simpa using he
      exact (hargs g hm).1

theorem forms_compile : ∀ fs : List Form, ∀ f ∈ fs, Compiles params f ∧ PartsCompile params f
  | [], _, hm => absurd hm (by simp)
  | f :: fs, g, hm => (List.mem_cons.mp hm).elim (fun he => he ▸ form_compiles f)
    (forms_compile fs g)

end

/-- Generating code for a form only adds globals, and emits the code of a term that the
form resolves to. -/
theorem generate_resolves {f : Form} {r : Reg} {k : Kind}
    (h : (generate params f r).Yields c code c' k) :
    Grows c c' ∧ ∃ t, code = t.emit r ∧ Resolves (scopeOf c') params f t k :=
  (form_compiles f).1 _ _ _ _ _ h

/-! ### Bodies -/

theorem generateSequence_resolves {fs : List Form} {r : Reg} {k₀ k : Kind} (hne : fs ≠ [])
    (h : (generateSequence params r k₀ fs).Yields c code c' k) :
    Grows c c' ∧ ∃ ts, code = emitSequence ts r ∧ ResolvesBody (scopeOf c') params fs ts k := by
  induction fs generalizing c code k₀ with
  | nil => exact absurd rfl hne
  | cons f fs ih =>
    unfold generateSequence at h
    obtain ⟨code₁, c₁, k₁, code₂, hf, hs, rfl⟩ := Emit.yields_bind.mp h
    obtain ⟨hg, t, rfl, ht⟩ := generate_resolves hf
    cases fs with
    | nil =>
      obtain ⟨rfl, rfl, rfl⟩ := Emit.yields_pure.mp hs
      exact ⟨hg, [t], rfl, .last ht⟩
    | cons f' fs =>
      obtain ⟨hg', ts, rfl, hts⟩ := ih (by simp) hs
      exact ⟨hg.trans hg', t :: ts, rfl, .more (ht.within hg'.within) hts⟩

/-- The code of a body is that of terms which the forms of the body resolve to. -/
theorem generateBody_resolves {fs : List Form} {r : Reg} {k : Kind} (hne : fs ≠ [])
    (h : (generateBody params fs r).Yields c code c' k) :
    Grows c c' ∧ ∃ ts, code.toArray = bodyCode ts r ∧ ResolvesBody (scopeOf c') params fs ts k := by
  unfold generateBody at h
  obtain ⟨code₁, c₁, k₁, code₂, hs, hgo, rfl⟩ := Emit.yields_bind.mp h
  obtain ⟨rfl, rfl, rfl⟩ := Emit.yields_code_pure.mp hgo
  obtain ⟨hg, ts, rfl, hts⟩ := generateSequence_resolves hne hs
  exact ⟨hg, ts, rfl, hts⟩

end

end ForkLisp.Terms
