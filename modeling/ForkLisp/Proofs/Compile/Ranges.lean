/-
Compiling without ranges.

The ranges of a form are there for errors alone. So a form without its ranges compiles if the form
does, to the same code and with the same context behind it (`compile_bare`).
-/
import ForkLisp.Proofs.Compile.Matching
import ForkLisp.Proofs.Compile.Origin
import ForkLisp.Proofs.Reader.Nesting

namespace ForkLisp.Compile

open ForkLisp.Code ForkLisp.Reader ForkLisp.Source ForkLisp.Terms

variable {α β : Type}

/-! ### Emissions -/

/-- What an emission yields if it does not fail. -/
def Emission.yield? (e : Emission α) : Option (List Inst × Context × α) :=
  match e.outcome with
  | .ok a => some (e.code, e.context, a)
  | .error _ => none

/-- Two parts of the generator yield the same, or both fail. -/
def Emit.Coincides (x y : Emit α) : Prop := ∀ c, (x c).yield? = (y c).yield?

namespace Emit.Coincides

variable {x y : Emit α}

theorem refl (x : Emit α) : x.Coincides x := fun _ => rfl

theorem fail (e e' : CompileError) : Emit.Coincides (Emit.fail e : Emit α) (.fail e') :=
  fun _ => rfl

theorem bind {f g : α → Emit β} (h : x.Coincides y) (hf : ∀ a, (f a).Coincides (g a)) :
    Emit.Coincides (x >>= f) (y >>= g) := by
  have hbind : ∀ (z : Emit α) (k : α → Emit β) (c : Context), ((z >>= k) c).yield? =
      (z c).yield?.bind fun p => (k p.2.2 p.2.1).yield?.map fun q => (p.1 ++ q.1, q.2) := by
    intro z k c
    show (andThen z k c).yield? = _
    unfold andThen
    generalize z c = first
    obtain ⟨code, c₁, a⟩ := first
    cases a with
    | error e => rfl
    | ok a =>
      show Emission.yield? _ = (k a c₁).yield?.map _
      dsimp only
      generalize k a c₁ = second
      obtain ⟨code', c₂, b⟩ := second
      cases b with
      | error e | ok b => rfl
  intro c
  rw [hbind, hbind, h c]
  exact congrArg _ (funext fun p => by rw [hf p.2.2 p.2.1])

theorem branching {x' y' : Emit β} (skip : Comparison) (r : Reg) (h : x.Coincides y)
    (h' : x'.Coincides y') : Emit.Coincides (.branching skip r x x') (.branching skip r y y') := by
  have hbranch : ∀ (z : Emit α) (z' : Emit β) (c : Context), (Emit.branching skip r z z' c).yield? =
      (z c).yield?.bind fun p => (z' p.2.1).yield?.map fun q =>
        (.branch skip (p.1.length + 2) r (r + 1) :: p.1 ++ .jump (q.1.length + 1) :: q.1, q.2.1,
          (p.2.2, q.2.2)) := by
    intro z z' c
    unfold Emit.branching
    generalize z c = first
    obtain ⟨code, c₁, a⟩ := first
    cases a with
    | error e => rfl
    | ok a =>
      show Emission.yield? _ = (z' c₁).yield?.map _
      dsimp only
      generalize z' c₁ = second
      obtain ⟨code', c₂, b⟩ := second
      cases b with
      | error e | ok b => rfl
  intro c
  rw [hbranch, hbranch, h c]
  exact congrArg _ (funext fun p => by rw [h' p.2.1])

end Emit.Coincides

/-! ### Forms without their ranges -/

theorem userCall?_bare (f : Form) : userCall? f.bare = userCall? f := by
  cases f with
  | int | float | symbol => rfl
  | list r items =>
    match items with
    | [] | .int _ _ :: _ | .float _ _ :: _ | .list _ _ :: _ => rfl
    | .symbol _ name :: args =>
      show (if _ then none else some (name, (bareAll args).length)) = _
      rw [length_bareAll]
      rfl

theorem comparisonCall?_bare (f : Form) : comparisonCall? f.bare = comparisonCall? f := by
  cases f with
  | int | float | symbol => rfl
  | list r items =>
    match items with
    | [] | .int _ _ :: _ | .float _ _ :: _ | .list _ _ :: _ | .symbol _ _ :: _ => rfl

/-! ### Parts of the generator -/

section

variable {params : List String} {range range' : Range} {name operator : String}

theorem require_coincides {accepts : Kind → Bool} {part part' : Emit Kind}
    (h : part.Coincides part') :
    (require accepts range operator part).Coincides (require accepts range' operator part') := by
  refine h.bind fun kind => ?_
  split
  · exact .refl _
  · exact .fail _ _

theorem resolve_coincides (count : Nat) :
    (resolve params range name count).Coincides (resolve params range' name count) := by
  refine (Emit.Coincides.refl _).bind fun c => ?_
  split
  · split
    · exact .refl _
    · exact .fail _ _
  · split
    · exact .fail _ _
    · exact .fail _ _

theorem symbol_coincides (r : Reg) :
    (generateSymbol params range name r).Coincides (generateSymbol params range' name r) := by
  unfold generateSymbol
  split
  · exact .refl _
  · split
    · exact .refl _
    · refine (Emit.Coincides.refl _).bind fun c => ?_
      split
      · exact .refl _
      · exact .fail _ _

theorem assignable_coincides (target : Form) :
    (assignable target).Coincides (assignable target.bare) := by
  unfold assignable
  rw [symbol?_bare]
  split
  · split
    · exact .fail _ _
    · exact .refl _
  · exact .fail _ _

/-- The code for a form is that for the form without its ranges. -/
def FormCoincides (params : List String) (f : Form) : Prop :=
  ∀ r, (generate params f r).Coincides (generate params f.bare r)

/-- So is the code for the parts of a list. -/
def PartsCoincide (params : List String) (f : Form) : Prop :=
  ∀ range head items, f = .list range (head :: items) → ∀ g ∈ items, FormCoincides params g

variable {fs args : List Form}

theorem arguments_coincide (h : ∀ f ∈ fs, FormCoincides params f) (r : Reg) :
    (generateArguments params fs r).Coincides (generateArguments params (bareAll fs) r) := by
  induction fs generalizing r with
  | nil => exact .refl _
  | cons f fs ih =>
    rw [bareAll]
    unfold generateArguments
    refine (h f List.mem_cons_self r).bind fun _ => ?_
    exact ih (fun g hg => h g (List.mem_cons_of_mem _ hg)) (r + 1)

theorem comparands_coincide (h : ∀ f ∈ fs, FormCoincides params f) (r : Reg) :
    (generateComparands params range name fs r).Coincides
      (generateComparands params range' name (bareAll fs) r) := by
  match fs, h with
  | [lhs, rhs], h =>
    simp only [bareAll, generateComparands]
    refine (require_coincides (h lhs (by simp) r)).bind fun _ => ?_
    exact (require_coincides (h rhs (by simp) (r + 1))).bind fun _ => .refl _
  | [], _ | [_], _ | _ :: _ :: _ :: _, _ =>
    simp only [bareAll, generateComparands]
    exact .fail _ _

theorem compared_coincide {f : Form} (h : PartsCoincide params f) (name : String) (r : Reg) :
    (generateCompared params name f r).Coincides (generateCompared params name f.bare r) := by
  cases f with
  | int | float | symbol => exact .refl _
  | list range items =>
    cases items with
    | nil => exact .refl _
    | cons head args =>
      simp only [Form.bare, bareAll, generateCompared]
      exact comparands_coincide (h _ _ _ rfl) r

theorem condition_coincides {f : Form} {r : Reg} {operands operands' : String → Emit Unit}
    {value value' : Emit Kind} (ho : ∀ name, (operands name).Coincides (operands' name))
    (hv : value.Coincides value') :
    (condition f r operands value).Coincides (condition f.bare r operands' value') := by
  unfold condition
  rw [comparisonCall?_bare]
  split
  · exact (ho _).bind fun _ => .refl _
  · exact (require_coincides hv).bind fun _ => .refl _

theorem operand_coincides {f : Form} (h : FormCoincides params f) (hp : PartsCoincide params f)
    (r : Reg) (spawn : Bool) :
    (eitherOperand params operator f r spawn).Coincides
      (eitherOperand params operator f.bare r spawn) := by
  have hplain : (plainOperand params operator f r).Coincides
    (plainOperand params operator f.bare r) :=
    (require_coincides (h r)).bind fun _ => .refl _
  have harguments : ∀ r, (generateArgumentsOf params f r).Coincides
    (generateArgumentsOf params f.bare r) := by
    intro r
    cases f with
    | int | float | symbol => exact .refl _
    | list range items =>
      cases items with
      | nil => exact .refl _
      | cons head args =>
        simp only [Form.bare, bareAll, generateArgumentsOf]
        exact arguments_coincide (hp _ _ _ rfl) r
  unfold eitherOperand
  split
  · unfold operand
    rw [userCall?_bare]
    split
    · -- a call: it becomes a task if its kind is one that arithmetic takes
      refine (resolve_coincides _).bind fun p => ?_
      obtain ⟨id, kind⟩ := p
      dsimp only
      split
      · exact (harguments _).bind fun _ => .refl _
      · exact hplain
    · exact hplain
  · exact hplain

theorem operands_coincide (h : ∀ f ∈ fs, FormCoincides params f ∧ PartsCoincide params f)
    (spawn : Bool) (r : Reg) :
    (generateOperands params operator spawn fs r).Coincides
      (generateOperands params operator spawn (bareAll fs) r) := by
  induction fs generalizing r with
  | nil => exact .refl _
  | cons f fs ih =>
    obtain ⟨hf, hp⟩ := h f List.mem_cons_self
    rw [bareAll, generateOperands_cons, generateOperands_cons, isEmpty_bareAll]
    refine (operand_coincides hf hp r _).bind fun o => ?_
    exact (ih (fun g hg => h g (List.mem_cons_of_mem _ hg)) _).bind fun _ => .refl _

/-! ### Lists -/

theorem arith_coincides {op : ArithOp} (hb : Builtin.ofName? name = some (.arith op))
    (h : ∀ f ∈ args, FormCoincides params f ∧ PartsCoincide params f) :
    FormCoincides params (.list range (.symbol range' name :: args)) := by
  intro r
  rw [Form.bare, bareAll, Form.bare]
  unfold generate
  simp only [hb, length_bareAll]
  split
  · exact .fail _ _
  · refine (Emit.Coincides.refl _).bind fun c => ?_
    exact (operands_coincide h _ r).bind fun _ => .refl _

theorem conditional_coincides (hb : Builtin.ofName? name = some .conditional)
    (h : ∀ f ∈ args, FormCoincides params f ∧ PartsCoincide params f) :
    FormCoincides params (.list range (.symbol range' name :: args)) := by
  intro r
  match args, h with
  | [test, first], h =>
    simp only [Form.bare, bareAll, generate, hb]
    obtain ⟨ht, hp⟩ := h test (by simp)
    refine (condition_coincides (fun name => compared_coincide hp name r) (ht r)).bind
      fun skip => ?_
    exact (Emit.Coincides.branching _ _ ((h first (by simp)).1 r) (.refl _)).bind fun _ => .refl _
  | [test, first, second], h =>
    simp only [Form.bare, bareAll, generate, hb]
    obtain ⟨ht, hp⟩ := h test (by simp)
    refine (condition_coincides (fun name => compared_coincide hp name r) (ht r)).bind
      fun skip => ?_
    exact (Emit.Coincides.branching _ _ ((h first (by simp)).1 r) ((h second (by simp)).1 r)).bind
      fun _ => .refl _
  | [], _ | [_], _ | _ :: _ :: _ :: _ :: _, _ =>
    simp only [Form.bare, bareAll, generate, hb]
    exact .fail _ _

theorem assign_coincides (hb : Builtin.ofName? name = some .assign)
    (h : ∀ f ∈ args, FormCoincides params f) :
    FormCoincides params (.list range (.symbol range' name :: args)) := by
  intro r
  rw [Form.bare, bareAll, Form.bare]
  unfold generate
  simp only [hb]
  rcases args with _ | ⟨target, _ | ⟨value, _ | ⟨_, _⟩⟩⟩
  · exact .fail _ _
  · exact .fail _ _
  · refine (assignable_coincides target).bind fun v => ?_
    exact (h value (by simp) r).bind fun k => .refl _
  · exact .fail _ _

theorem print_coincides (hb : Builtin.ofName? name = some .print)
    (h : ∀ f ∈ args, FormCoincides params f) :
    FormCoincides params (.list range (.symbol range' name :: args)) := by
  intro r
  rw [Form.bare, bareAll, Form.bare]
  unfold generate
  simp only [hb]
  rcases args with _ | ⟨value, _ | ⟨_, _⟩⟩
  · exact .fail _ _
  · exact (h value (by simp) r).bind fun k => .refl _
  · exact .fail _ _

/-- The code for a list does not depend on ranges if that for its parts does not. -/
theorem list_coincides {head : Form}
    (h : ∀ f ∈ args, FormCoincides params f ∧ PartsCoincide params f) :
    FormCoincides params (.list range (head :: args)) := by
  have hforms : ∀ f ∈ args, FormCoincides params f := fun f hf => (h f hf).1
  -- what the name in front stands for decides on the code
  cases head with
  | symbol range' name =>
    cases hb : Builtin.ofName? name with
    | none =>
      intro r
      rw [Form.bare, bareAll, Form.bare]
      unfold generate
      simp only [hb, length_bareAll]
      refine (resolve_coincides _).bind fun p => ?_
      exact (arguments_coincide hforms _).bind fun _ => .refl _
    | some b =>
      cases b with
      | arith op => exact arith_coincides hb h
      | compare test =>
        intro r
        rw [Form.bare, bareAll, Form.bare]
        unfold generate
        simp only [hb]
        exact (comparands_coincide hforms r).bind fun _ => .refl _
      | conditional => exact conditional_coincides hb h
      | assign => exact assign_coincides hb hforms
      | print => exact print_coincides hb hforms
      | define =>
        intro r
        rw [Form.bare, bareAll, Form.bare]
        unfold generate
        simp only [hb]
        exact .fail _ _
  | int _ _ | float _ _ | list _ _ =>
    intro r
    rw [Form.bare, bareAll, generate_head rfl, generate_head rfl]
    exact .fail _ _

mutual

theorem form_coincides : ∀ f, FormCoincides params f ∧ PartsCoincide params f
  | .int _ _ | .float _ _ | .list _ [] => by
    refine ⟨fun r => ?_, fun _ _ _ he => absurd he (by simp)⟩
    simp only [Form.bare, bareAll, generate]
    exact .refl _
  | .symbol range name => by
    refine ⟨fun r => ?_, fun _ _ _ he => absurd he (by simp)⟩
    simp only [Form.bare, generate]
    exact symbol_coincides r
  | .list range (head :: args) => by
    have hargs := forms_coincide args
    refine ⟨list_coincides hargs, ?_⟩
    rintro _ _ _ he g hm
    obtain ⟨-, rfl, rfl⟩ : _ ∧ head = _ ∧ args = _ := by simpa using he
    exact (hargs g hm).1

theorem forms_coincide : ∀ fs : List Form, ∀ f ∈ fs, FormCoincides params f ∧ PartsCoincide params f
  | [], _, hm => absurd hm List.not_mem_nil
  | f :: fs, g, hm => (List.mem_cons.mp hm).elim (fun he => he ▸ form_coincides f)
    (forms_coincide fs g)

end

/-! ### Bodies and definitions -/

theorem sequence_coincides (fs : List Form) (kind : Kind) (r : Reg) :
    (generateSequence params r kind fs).Coincides
      (generateSequence params r kind (bareAll fs)) := by
  induction fs generalizing kind with
  | nil => exact .refl _
  | cons f fs ih =>
    rw [bareAll]
    unfold generateSequence
    exact ((form_coincides f).1 r).bind fun kind => ih kind

theorem body_coincides (fs : List Form) (r : Reg) :
    (generateBody params fs r).Coincides (generateBody params (bareAll fs) r) := by
  unfold generateBody
  exact (sequence_coincides fs .bool r).bind fun kind => .refl _

end

/-- Without its error, a computation goes on where it has a result. -/
theorem toOption_bind {ε : Type} (x : Except ε α) (f : α → Except ε β) :
    (x >>= f).toOption = x.toOption.bind fun a => (f a).toOption := by
  cases x with
  | error | ok => rfl

namespace Definition

/-- A definition whose body has no ranges. -/
def bare (d : Definition) : Definition := { d with body := bareAll d.body }

theorem functionName_bare (f : Form) :
    (functionName f.bare).toOption = (functionName f).toOption := by
  unfold functionName
  rw [symbol?_bare]
  split
  · split
    · rfl
    · rfl
  · rfl

theorem parameterName_bare (f : Form) :
    (parameterName f.bare).toOption = (parameterName f).toOption := by
  unfold parameterName
  rw [symbol?_bare]
  split
  · split
    · rfl
    · rfl
  · rfl

theorem mapM_parameterName_bare (fs : List Form) :
    ((bareAll fs).mapM parameterName).toOption = (fs.mapM parameterName).toOption := by
  induction fs with
  | nil => rfl
  | cons f fs ih =>
    rw [bareAll, List.mapM_cons, List.mapM_cons, toOption_bind, toOption_bind, parameterName_bare]
    refine congrArg _ (funext fun name => ?_)
    rw [toOption_bind, toOption_bind, ih]

theorem parameterNames_bare (f : Form) :
    (parameterNames f.bare).toOption = (parameterNames f).toOption := by
  cases f with
  | int | float | symbol => rfl
  | list r fs =>
    show ((bareAll fs).mapM parameterName >>= _).toOption = (fs.mapM parameterName >>= _).toOption
    rw [toOption_bind, toOption_bind, mapM_parameterName_bare]
    refine congrArg _ (funext fun names => ?_)
    split
    · rfl
    · rfl

theorem ofArguments_bare (range range' : Range) (args : List Form) :
    (ofArguments range' (bareAll args)).toOption = (ofArguments range args).toOption.map bare := by
  match args with
  | [] | [_] => rfl
  | nameForm :: paramsForm :: body =>
    show (functionName nameForm.bare >>= _).toOption =
      (functionName nameForm >>= _).toOption.map bare
    rw [toOption_bind, toOption_bind, functionName_bare, Option.map_bind]
    refine congrArg _ (funext fun name => ?_)
    show (parameterNames paramsForm.bare >>= _).toOption =
      (parameterNames paramsForm >>= _).toOption.map bare
    rw [toOption_bind, toOption_bind, parameterNames_bare, Option.map_bind]
    refine congrArg _ (funext fun params => ?_)
    dsimp only [Function.comp]
    rw [isEmpty_bareAll]
    split
    · rfl
    · rfl

end Definition

/-- What compiling a form yields if it does not fail. -/
def Compilation.yield? (r : Compilation) : Option (Context × List String × Compiled) :=
  match r.outcome with
  | .ok compiled => some (r.context, r.log, compiled)
  | .error _ => none

section

variable {c : Context} {f : Form}

/-- Emissions that yield the same are the same, or both failed. -/
theorem eq_of_yield? {e e' : Emission α} (h : e.yield? = e'.yield?) :
    e = e' ∨ ∃ x y, e.outcome = .error x ∧ e'.outcome = .error y := by
  obtain ⟨code, c, a⟩ := e
  obtain ⟨code', c', a'⟩ := e'
  cases a with
  | error x =>
    cases a' with
    | error y => exact .inr ⟨x, y, rfl, rfl⟩
    | ok b => cases h
  | ok a =>
    cases a' with
    | error y => cases h
    | ok b =>
      cases h
      exact .inl rfl

theorem compileEntry_bare (c : Context) (f : Form) :
    (compileEntry c f.bare).yield? = (compileEntry c f).yield? := by
  rcases eq_of_yield? (body_coincides [f] 0 c) with heq | ⟨x, y, hx, hy⟩
  · unfold compileEntry
    rw [heq]
    rfl
  · have hfail : ∀ {g e}, (generateBody [] [g] 0 c).outcome = .error e →
      (compileEntry c g).yield? = none := by
      intro g e he
      unfold compileEntry Compilation.yield?
      dsimp only
      rw [he]
    rw [hfail hx, hfail hy]

theorem compileDefinition_bare (c : Context) (d : Definition) :
    (compileDefinition c d.bare).yield? = (compileDefinition c d).yield? := by
  have hbody : (generateBody d.params d.body d.params.length).Coincides _ :=
    body_coincides d.body d.params.length
  rcases eq_of_yield? (hbody (c.define d.name d.params).1) with heq | ⟨x, y, hx, hy⟩
  · unfold compileDefinition Definition.bare
    dsimp only
    rw [heq]
  · have hfail : ∀ {body e}, (generateBody d.params body d.params.length
        (c.define d.name d.params).1).outcome = .error e →
          (compileDefinition c { d with body := body }).yield? = none := by
      intro body e he
      unfold compileDefinition Compilation.yield?
      dsimp only
      rw [he]
    exact (hfail hy).trans (hfail hx).symm

theorem definingArguments?_bare (f : Form) :
    definingArguments? f.bare = (definingArguments? f).map bareAll := by
  cases f with
  | int | float | symbol => rfl
  | list r items =>
    match items with
    | [] | .int _ _ :: _ | .float _ _ :: _ | .list _ _ :: _ => rfl
    | .symbol _ name :: args =>
      show (if _ then some (bareAll args) else none) = (if _ then some args else none).map bareAll
      split
      · rfl
      · rfl

/-- Compiling a form, with all that is forgotten if it fails. -/
def compileWhole (c : Context) (f : Form) : Compilation :=
  match definingArguments? f with
  | some args =>
    match Definition.ofArguments f.range args with
    | .error error => ⟨c, [], .error error⟩
    | .ok d => compileDefinition c d
  | none => compileEntry c f

theorem compile_yield? (c : Context) (f : Form) :
    (compile c f).yield? = (compileWhole c f).yield? := by
  -- what compiling forgets after an error is not yielded
  unfold compile
  extract_lets r
  have hr : compileWhole c f = r := rfl
  rw [hr]
  split
  · rename_i e he
    unfold Compilation.yield?
    dsimp only
    rw [he]
  · rfl

/-- A form without its ranges compiles to the same. -/
theorem compile_bare (c : Context) (f : Form) :
    (compile c f.bare).yield? = (compile c f).yield? := by
  rw [compile_yield?, compile_yield?]
  unfold compileWhole
  rw [definingArguments?_bare]
  cases hargs : definingArguments? f with
  | none => exact compileEntry_bare c f
  | some args =>
    have hdefinition := Definition.ofArguments_bare f.range f.bare.range args
    dsimp only [Option.map_some]
    cases hd : Definition.ofArguments f.range args with
    | error e =>
      cases hd' : Definition.ofArguments f.bare.range (bareAll args) with
      | error e' => rfl
      | ok d' =>
        rw [hd, hd'] at hdefinition
        cases hdefinition
    | ok d =>
      cases hd' : Definition.ofArguments f.bare.range (bareAll args) with
      | error e' =>
        rw [hd, hd'] at hdefinition
        cases hdefinition
      | ok d' =>
        rw [hd, hd'] at hdefinition
        obtain rfl := Option.some.inj hdefinition
        exact compileDefinition_bare c d

end

end ForkLisp.Compile
