/-
What is accepted, and what is refused.

A form is judged from left to right, in a context that grows with what its parts assign to.
`Accepts` says which kind a form has; `Refuses` says which part of a form is the first that cannot
stand where it stands, and why. Neither says anything about code. No form is both accepted and
refused, and there is one kind, or one error and one part that it is about (`Accepts.unique`,
`Refuses.unique`).
-/
import ForkLisp.Compile.Generate
import ForkLisp.Proofs.Reader.Extents

namespace ForkLisp.Compile

open ForkLisp.Code ForkLisp.Reader ForkLisp.Source

/-! ### Judgements -/

/-- The function that a name stands for. -/
def Context.called? (c : Context) (name : String) : Option Function :=
  (c.findFunction? name).bind c.function?

/-- The operand count that a built-in name asks for, if `count` operands are too few or too many. -/
def Builtin.expected? : Builtin → Nat → Option Nat
  | arith op, count => expectedOperands? op count
  | compare _, count | assign, count => if count = 2 then none else some 2
  | conditional, count => if count = 2 ∨ count = 3 then none else some 3
  | print, count => if count = 1 then none else some 1
  | define, _ => none

/-- A form is a name that may be bound. -/
def Binds (reserved : String → Bool) (f : Form) (name : String) : Prop :=
  f.symbol? = some name ∧ reserved name = false

/-- What is asked of the kind of a value, and the operator that asks it. -/
structure Demand where
  operator : String
  takes : Kind → Bool

namespace Demand

/-- Every value will do. -/
def any : Demand := ⟨"", fun _ => true⟩

/-- Arithmetic takes the value. -/
def arithmetic (operator : String) : Demand := ⟨operator, Kind.isArithmetic⟩

/-- A comparison or a condition takes the value. -/
def integral (operator : String) : Demand := ⟨operator, Kind.isIntegral⟩

end Demand

mutual

/-- A form has a kind in a context, and the context has grown behind it. -/
inductive Accepts (params : List String) : Context → Form → Kind → Context → Prop where
  | int {c : Context} {r : Range} {n : Int64} : Accepts params c (.int r n) .int c
  | float {c : Context} {r : Range} {x : Numeric.Binary64} :
      Accepts params c (.float r x) .float c
  | nil {c : Context} {r : Range} : Accepts params c (.list r []) .bool c
  | truth {c : Context} {r : Range} {name : String} (h : isTruthName name = true) :
      Accepts params c (.symbol r name) .bool c
  | parameter {c : Context} {r : Range} {name : String} (h : isTruthName name = false)
      (hp : name ∈ params) : Accepts params c (.symbol r name) .any c
  | global {c : Context} {r : Range} {name : String} (h : isTruthName name = false)
      (hp : name ∉ params) (hg : c.findGlobal? name ≠ none) :
      Accepts params c (.symbol r name) .any c
  | list {c c' : Context} {r r' : Range} {name : String} {b : Option Builtin} {args : List Form}
      {k : Kind} (hb : Builtin.ofName? name = b) (h : AcceptsList params c b name args k c') :
      Accepts params c (.list r (.symbol r' name :: args)) k c'

/-- A list has a kind, whose head is a name that is built in as `b` or not at all. -/
inductive AcceptsList (params : List String) :
    Context → Option Builtin → String → List Form → Kind → Context → Prop where
  | call {c c' : Context} {name : String} {args : List Form} {fn : Function}
      (hf : c.called? name = some fn) (hn : fn.arity = args.length)
      (h : AcceptsAll params .any c args c') : AcceptsList params c none name args fn.kind c'
  | arith {c c' : Context} {name : String} {args : List Form} {op : ArithOp}
      (hn : expectedOperands? op args.length = none)
      (h : AcceptsAll params (.arithmetic name) c args c') :
      AcceptsList params c (some (.arith op)) name args .int c'
  | compare {c c' : Context} {name : String} {lhs rhs : Form} {test : Comparison}
      (h : AcceptsAll params (.integral name) c [lhs, rhs] c') :
      AcceptsList params c (some (.compare test)) name [lhs, rhs] .bool c'
  | short {c c₁ c' : Context} {name : String} {test first : Form} {k : Kind}
      (ht : AcceptsAll params (.integral name) c [test] c₁) (h : Accepts params c₁ first k c') :
      AcceptsList params c (some .conditional) name [test, first] (k.merge .bool) c'
  | full {c c₁ c₂ c' : Context} {name : String} {test first second : Form} {k k' : Kind}
      (ht : AcceptsAll params (.integral name) c [test] c₁) (h : Accepts params c₁ first k c₂)
      (h' : Accepts params c₂ second k' c') :
      AcceptsList params c (some .conditional) name [test, first, second] (k.merge k') c'
  | assign {c c' : Context} {name v : String} {target value : Form} {k : Kind}
      (ht : Binds isTruthName target v) (h : Accepts params c value k c') :
      AcceptsList params c (some .assign) name [target, value] k (c'.defineGlobal v).2
  | print {c c' : Context} {name : String} {value : Form} {k : Kind}
      (h : Accepts params c value k c') : AcceptsList params c (some .print) name [value] k c'

/-- Forms are accepted one after the other, and all are of kinds that are taken. -/
inductive AcceptsAll (params : List String) : Demand → Context → List Form → Context → Prop where
  | nil {demand : Demand} {c : Context} : AcceptsAll params demand c [] c
  | cons {demand : Demand} {c c₁ c' : Context} {f : Form} {fs : List Form} {k : Kind}
      (h : Accepts params c f k c₁) (hk : demand.takes k = true)
      (hs : AcceptsAll params demand c₁ fs c') : AcceptsAll params demand c (f :: fs) c'

end

mutual

/-- The first part of a form that cannot stand where it stands, and what is wrong with it. -/
inductive Refuses (params : List String) : Context → Form → CompileError → Form → Prop where
  /-- A name that is no truth value, no parameter and no global. -/
  | unbound {c : Context} {r : Range} {name : String} (h : isTruthName name = false)
      (hp : name ∉ params) (hg : c.findGlobal? name = none) :
      Refuses params c (.symbol r name) (.notDefined r name) (.symbol r name)
  /-- What stands in front of a list and is no name. -/
  | head {c : Context} {r : Range} {head : Form} {args : List Form} (h : head.symbol? = none) :
      Refuses params c (.list r (head :: args)) (.notCallable head.range head.text) head
  | list {c : Context} {r r' : Range} {name : String} {b : Option Builtin} {args : List Form}
      {e : CompileError} {g : Form} (hb : Builtin.ofName? name = b)
      (h : RefusesList params c b r r' name args e g) :
      Refuses params c (.list r (.symbol r' name :: args)) e g

/-- What is wrong with a list whose head is a name that is built in as `b` or not at all: with the
list itself, or with the first of its parts that is refused. -/
inductive RefusesList (params : List String) : Context → Option Builtin → Range → Range → String →
    List Form → CompileError → Form → Prop where
  /-- A call of a name that stands for nothing. -/
  | undefined {c : Context} {r r' : Range} {name : String} {args : List Form}
      (hf : c.called? name = none) (hp : name ∉ params) (hg : c.findGlobal? name = none) :
      RefusesList params c none r r' name args (.notDefined r name)
        (.list r (.symbol r' name :: args))
  /-- A call of a name that stands for a value only. -/
  | uncallable {c : Context} {r r' : Range} {name : String} {args : List Form}
      (hf : c.called? name = none) (h : name ∈ params ∨ c.findGlobal? name ≠ none) :
      RefusesList params c none r r' name args (.notCallable r name)
        (.list r (.symbol r' name :: args))
  /-- A call with too few or too many arguments. -/
  | arity {c : Context} {r r' : Range} {name : String} {args : List Form} {fn : Function}
      (hf : c.called? name = some fn) (hn : fn.arity ≠ args.length) :
      RefusesList params c none r r' name args (.argumentCount r name fn.arity args.length)
        (.list r (.symbol r' name :: args))
  /-- A built-in name with too few or too many operands. -/
  | count {c : Context} {r r' : Range} {name : String} {args : List Form} {b : Builtin} {n : Nat}
      (hn : b.expected? args.length = some n) :
      RefusesList params c (some b) r r' name args (.argumentCount r name n args.length)
        (.list r (.symbol r' name :: args))
  /-- A definition inside of another form. -/
  | nested {c : Context} {r r' : Range} {name : String} {args : List Form} :
      RefusesList params c (some .define) r r' name args
        (.invalidDefinition r "defun is only allowed at top level")
        (.list r (.symbol r' name :: args))
  /-- What an assignment cannot be to. -/
  | target {c : Context} {r r' : Range} {name : String} {target value : Form}
      (h : ∀ v, ¬ Binds isTruthName target v) :
      RefusesList params c (some .assign) r r' name [target, value]
        (.invalidDefinition target.range s!"cannot assign to `{target.text}`") target
  | argument {c : Context} {r r' : Range} {name : String} {args : List Form} {fn : Function}
      {e : CompileError} {g : Form} (hf : c.called? name = some fn) (hn : fn.arity = args.length)
      (h : RefusesAll params .any c args e g) : RefusesList params c none r r' name args e g
  | operand {c : Context} {r r' : Range} {name : String} {args : List Form} {op : ArithOp}
      {e : CompileError} {g : Form} (hn : expectedOperands? op args.length = none)
      (h : RefusesAll params (.arithmetic name) c args e g) :
      RefusesList params c (some (.arith op)) r r' name args e g
  | comparand {c : Context} {r r' : Range} {name : String} {lhs rhs : Form} {test : Comparison}
      {e : CompileError} {g : Form} (h : RefusesAll params (.integral name) c [lhs, rhs] e g) :
      RefusesList params c (some (.compare test)) r r' name [lhs, rhs] e g
  | test {c : Context} {r r' : Range} {name : String} {test : Form} {branches : List Form}
      {e : CompileError} {g : Form}
      (hn : Builtin.conditional.expected? (branches.length + 1) = none)
      (h : RefusesAll params (.integral name) c [test] e g) :
      RefusesList params c (some .conditional) r r' name (test :: branches) e g
  | branch {c c₁ : Context} {r r' : Range} {name : String} {test : Form} {branches : List Form}
      {e : CompileError} {g : Form}
      (hn : Builtin.conditional.expected? (branches.length + 1) = none)
      (ht : AcceptsAll params (.integral name) c [test] c₁)
      (h : RefusesAll params .any c₁ branches e g) :
      RefusesList params c (some .conditional) r r' name (test :: branches) e g
  | assigned {c : Context} {r r' : Range} {name v : String} {target value : Form}
      {e : CompileError} {g : Form} (ht : Binds isTruthName target v)
      (h : Refuses params c value e g) :
      RefusesList params c (some .assign) r r' name [target, value] e g
  | printed {c : Context} {r r' : Range} {name : String} {value : Form} {e : CompileError}
      {g : Form} (h : Refuses params c value e g) :
      RefusesList params c (some .print) r r' name [value] e g

/-- The first of some forms that is not accepted, or that is not of a kind that is taken. -/
inductive RefusesAll (params : List String) :
    Demand → Context → List Form → CompileError → Form → Prop where
  | part {demand : Demand} {c : Context} {f : Form} {fs : List Form} {e : CompileError} {g : Form}
      (h : Refuses params c f e g) : RefusesAll params demand c (f :: fs) e g
  /-- A form of a kind that is not taken. -/
  | kind {demand : Demand} {c c₁ : Context} {f : Form} {fs : List Form} {k : Kind}
      (h : Accepts params c f k c₁) (hk : demand.takes k = false) :
      RefusesAll params demand c (f :: fs) (.notInteger f.range demand.operator) f
  | later {demand : Demand} {c c₁ : Context} {f : Form} {fs : List Form} {k : Kind}
      {e : CompileError} {g : Form} (h : Accepts params c f k c₁) (hk : demand.takes k = true)
      (hs : RefusesAll params demand c₁ fs e g) : RefusesAll params demand c (f :: fs) e g

end

/-! ### What is refused is a part -/

section

variable {params : List String}

mutual

/-- An error has the range of the part that is refused. -/
theorem Refuses.range : ∀ {c f e g}, Refuses params c f e g → e.range = g.range
  | _, _, _, _, .unbound .. | _, _, _, _, .head .. => rfl
  | _, _, _, _, .list _ h => h.range

theorem RefusesList.range : ∀ {c b r r' name args e g},
    RefusesList params c b r r' name args e g → e.range = g.range
  | _, _, _, _, _, _, _, _, .undefined .. | _, _, _, _, _, _, _, _, .uncallable ..
  | _, _, _, _, _, _, _, _, .arity .. | _, _, _, _, _, _, _, _, .count ..
  | _, _, _, _, _, _, _, _, .nested .. | _, _, _, _, _, _, _, _, .target .. => rfl
  | _, _, _, _, _, _, _, _, .argument _ _ h | _, _, _, _, _, _, _, _, .operand _ h
  | _, _, _, _, _, _, _, _, .comparand h | _, _, _, _, _, _, _, _, .test _ h
  | _, _, _, _, _, _, _, _, .branch _ _ h => h.range
  | _, _, _, _, _, _, _, _, .assigned _ h | _, _, _, _, _, _, _, _, .printed h => h.range

theorem RefusesAll.range : ∀ {demand c fs e g}, RefusesAll params demand c fs e g →
    e.range = g.range
  | _, _, _, _, _, .part h => h.range
  | _, _, _, _, _, .kind .. => rfl
  | _, _, _, _, _, .later _ _ hs => hs.range

end

mutual

theorem Refuses.subform : ∀ {c f e g}, Refuses params c f e g → Subform g f
  | _, _, _, _, .unbound .. => .refl _
  | _, _, _, _, .head _ => .item List.mem_cons_self (.refl _)
  | _, _, _, _, .list _ h => h.subform

theorem RefusesList.subform : ∀ {c b r r' name args e g},
    RefusesList params c b r r' name args e g → Subform g (.list r (.symbol r' name :: args))
  | _, _, _, _, _, _, _, _, .undefined .. | _, _, _, _, _, _, _, _, .uncallable ..
  | _, _, _, _, _, _, _, _, .arity .. | _, _, _, _, _, _, _, _, .count ..
  | _, _, _, _, _, _, _, _, .nested .. => .refl _
  | _, _, _, _, _, _, _, _, .target .. => .item (by simp) (.refl _)
  | _, _, _, _, _, _, _, _, .argument _ _ h | _, _, _, _, _, _, _, _, .operand _ h
  | _, _, _, _, _, _, _, _, .comparand h =>
    have ⟨_, hm, hs⟩ := h.subform
    .item (List.mem_cons_of_mem _ hm) hs
  | _, _, _, _, _, _, _, _, .test _ h =>
    have ⟨_, hm, hs⟩ := h.subform
    .item (by simp [List.mem_singleton.mp hm]) hs
  | _, _, _, _, _, _, _, _, .branch _ _ h =>
    have ⟨_, hm, hs⟩ := h.subform
    .item (List.mem_cons_of_mem _ (List.mem_cons_of_mem _ hm)) hs
  | _, _, _, _, _, _, _, _, .assigned _ h => .item (by simp) h.subform
  | _, _, _, _, _, _, _, _, .printed h => .item (by simp) h.subform

theorem RefusesAll.subform : ∀ {demand c fs e g}, RefusesAll params demand c fs e g →
    ∃ f ∈ fs, Subform g f
  | _, _, _, _, _, .part h => ⟨_, List.mem_cons_self, h.subform⟩
  | _, _, _, _, _, .kind .. => ⟨_, List.mem_cons_self, .refl _⟩
  | _, _, _, _, _, .later _ _ hs =>
    have ⟨f, hm, hsub⟩ := hs.subform
    ⟨f, List.mem_cons_of_mem _ hm, hsub⟩

end

/-! ### Judgements are unique -/

theorem Binds.unique {reserved : String → Bool} {f : Form} {v w : String} (h : Binds reserved f v)
    (h' : Binds reserved f w) : v = w :=
  Option.some.inj (h.1.symm.trans h'.1)

mutual

/-- What is accepted has one kind, and is not refused. -/
theorem Accepts.unique : ∀ {c f k c₁}, Accepts params c f k c₁ →
    (∀ k' c', Accepts params c f k' c' → k' = k ∧ c' = c₁) ∧ ∀ e g, ¬ Refuses params c f e g
  | _, _, _, _, .int | _, _, _, _, .float | _, _, _, _, .nil =>
    ⟨fun _ _ h' => by cases h'; exact ⟨rfl, rfl⟩, fun _ _ h' => by cases h'⟩
  | _, _, _, _, .truth h | _, _, _, _, .parameter h hp | _, _, _, _, .global h hp hg => by
    refine ⟨fun _ _ h' => ?_, fun _ _ h' => ?_⟩
    · cases h' <;> simp_all
    · cases h'
      simp_all
  | _, _, _, _, .list hb h => by
    have hunique := h.unique
    refine ⟨fun _ _ h' => ?_, fun _ _ h' => ?_⟩
    · cases h' with
      | list hb' h' => exact hunique.1 _ _ (hb ▸ hb' ▸ h')
    · cases h' with
      | head hs => cases hs
      | list hb' h' => exact hunique.2 _ _ _ _ (hb ▸ hb' ▸ h')

theorem AcceptsList.unique : ∀ {c b name args k c₁}, AcceptsList params c b name args k c₁ →
    (∀ k' c', AcceptsList params c b name args k' c' → k' = k ∧ c' = c₁) ∧
      ∀ r r' e g, ¬ RefusesList params c b r r' name args e g
  | _, _, _, _, _, _, .call hf hn h => by
    have hunique := h.unique
    refine ⟨fun _ _ h' => ?_, fun _ _ _ _ h' => ?_⟩
    · cases h' with
      | call hf' _ h' =>
        obtain rfl := Option.some.inj (hf.symm.trans hf')
        exact ⟨rfl, hunique.1 _ h'⟩
    · cases h' with
      | undefined hf' | uncallable hf' => cases hf.symm.trans hf'
      | arity hf' hn' =>
        obtain rfl := Option.some.inj (hf.symm.trans hf')
        exact hn' hn
      | argument _ _ h' => exact hunique.2 _ _ h'
  | _, _, _, _, _, _, .arith hn h => by
    have hunique := h.unique
    refine ⟨fun _ _ h' => ?_, fun _ _ _ _ h' => ?_⟩
    · cases h' with
      | arith _ h' => exact ⟨rfl, hunique.1 _ h'⟩
    · cases h' with
      | count hn' => cases hn.symm.trans hn'
      | operand _ h' => exact hunique.2 _ _ h'
  | _, _, _, _, _, _, .compare h => by
    have hunique := h.unique
    refine ⟨fun _ _ h' => ?_, fun _ _ _ _ h' => ?_⟩
    · cases h' with
      | compare h' => exact ⟨rfl, hunique.1 _ h'⟩
    · cases h' with
      | count hn' => cases hn'
      | comparand h' => exact hunique.2 _ _ h'
  | _, _, _, _, _, _, .short ht h => by
    have hunique := h.unique
    have huniqueₜ := ht.unique
    refine ⟨fun _ _ h' => ?_, fun _ _ _ _ h' => ?_⟩
    · cases h' with
      | short ht' h' =>
        obtain rfl := huniqueₜ.1 _ ht'
        obtain ⟨rfl, rfl⟩ := hunique.1 _ _ h'
        exact ⟨rfl, rfl⟩
    · cases h' with
      | count hn' => cases hn'
      | test _ h' => exact huniqueₜ.2 _ _ h'
      | branch _ ht' h' =>
        obtain rfl := huniqueₜ.1 _ ht'
        cases h' with
        | part h' => exact hunique.2 _ _ h'
        | kind _ hk => cases hk
        | later _ _ hs => cases hs
  | _, _, _, _, _, _, .full ht h₁ h₂ => by
    have huniqueₜ := ht.unique
    have hunique₁ := h₁.unique
    have hunique₂ := h₂.unique
    refine ⟨fun _ _ h' => ?_, fun _ _ _ _ h' => ?_⟩
    · cases h' with
      | full ht' h₁' h₂' =>
        obtain rfl := huniqueₜ.1 _ ht'
        obtain ⟨rfl, rfl⟩ := hunique₁.1 _ _ h₁'
        obtain ⟨rfl, rfl⟩ := hunique₂.1 _ _ h₂'
        exact ⟨rfl, rfl⟩
    · cases h' with
      | count hn' => cases hn'
      | test _ h' => exact huniqueₜ.2 _ _ h'
      | branch _ ht' h' =>
        obtain rfl := huniqueₜ.1 _ ht'
        cases h' with
        | part h' => exact hunique₁.2 _ _ h'
        | kind _ hk => cases hk
        | later h₁' _ hs =>
          obtain ⟨rfl, rfl⟩ := hunique₁.1 _ _ h₁'
          cases hs with
          | part h' => exact hunique₂.2 _ _ h'
          | kind _ hk => cases hk
          | later _ _ hs => cases hs
  | _, _, _, _, _, _, .assign ht h => by
    have hunique := h.unique
    refine ⟨fun _ _ h' => ?_, fun _ _ _ _ h' => ?_⟩
    · cases h' with
      | assign ht' h' =>
        obtain rfl := ht.unique ht'
        obtain ⟨rfl, rfl⟩ := hunique.1 _ _ h'
        exact ⟨rfl, rfl⟩
    · cases h' with
      | count hn' => cases hn'
      | target h' => exact h' _ ht
      | assigned _ h' => exact hunique.2 _ _ h'
  | _, _, _, _, _, _, .print h => by
    have hunique := h.unique
    refine ⟨fun _ _ h' => ?_, fun _ _ _ _ h' => ?_⟩
    · cases h' with
      | print h' => exact hunique.1 _ _ h'
    · cases h' with
      | count hn' => cases hn'
      | printed h' => exact hunique.2 _ _ h'

theorem AcceptsAll.unique : ∀ {demand c fs c₁}, AcceptsAll params demand c fs c₁ →
    (∀ c', AcceptsAll params demand c fs c' → c' = c₁) ∧ ∀ e g, ¬ RefusesAll params demand c fs e g
  | _, _, _, _, .nil => ⟨fun _ h' => by cases h'; rfl, fun _ _ h' => by cases h'⟩
  | _, _, _, _, .cons h hk hs => by
    have hunique := h.unique
    have huniqueₛ := hs.unique
    refine ⟨fun _ h' => ?_, fun _ _ h' => ?_⟩
    · cases h' with
      | cons h' _ hs' =>
        obtain ⟨rfl, rfl⟩ := hunique.1 _ _ h'
        exact huniqueₛ.1 _ hs'
    · cases h' with
      | part h' => exact hunique.2 _ _ h'
      | kind h' hk' =>
        obtain ⟨rfl, -⟩ := hunique.1 _ _ h'
        cases hk.symm.trans hk'
      | later h' _ hs' =>
        obtain ⟨rfl, rfl⟩ := hunique.1 _ _ h'
        exact huniqueₛ.2 _ _ hs'

end

mutual

/-- What is refused is refused for one reason, which is about one part. -/
theorem Refuses.unique : ∀ {c f e g}, Refuses params c f e g →
    ∀ e' g', Refuses params c f e' g' → e' = e ∧ g' = g
  | _, _, _, _, .unbound .., _, _, h' => by
    cases h'
    exact ⟨rfl, rfl⟩
  | _, _, _, _, .head h, _, _, h' => by
    cases h' with
    | head => exact ⟨rfl, rfl⟩
    | list => cases h
  | _, _, _, _, .list hb h, _, _, h' => by
    have hunique := h.unique
    cases h' with
    | head hs => cases hs
    | list hb' h' => exact hunique _ _ (hb ▸ hb' ▸ h')

theorem RefusesList.unique : ∀ {c b r r' name args e g},
    RefusesList params c b r r' name args e g →
    ∀ e' g', RefusesList params c b r r' name args e' g' → e' = e ∧ g' = g
  | _, _, _, _, _, _, _, _, .undefined hf hp hg, _, _, h' => by
    cases h' with
    | undefined => exact ⟨rfl, rfl⟩
    | uncallable _ h' => exact (h'.elim hp fun hne => hne hg).elim
    | arity hf' | argument hf' => cases hf.symm.trans hf'
  | _, _, _, _, _, _, _, _, .uncallable hf h, _, _, h' => by
    cases h' with
    | undefined _ hp hg => exact (h.elim hp fun hne => hne hg).elim
    | uncallable => exact ⟨rfl, rfl⟩
    | arity hf' | argument hf' => cases hf.symm.trans hf'
  | _, _, _, _, _, _, _, _, .arity hf hn, _, _, h' => by
    cases h' with
    | undefined hf' | uncallable hf' => cases hf.symm.trans hf'
    | arity hf' =>
      obtain rfl := Option.some.inj (hf.symm.trans hf')
      exact ⟨rfl, rfl⟩
    | argument hf' hn' =>
      obtain rfl := Option.some.inj (hf.symm.trans hf')
      exact absurd hn' hn
  | _, _, _, _, _, _, _, _, .argument hf hn h, _, _, h' => by
    have hunique := h.unique
    cases h' with
    | undefined hf' | uncallable hf' => cases hf.symm.trans hf'
    | arity hf' hn' =>
      obtain rfl := Option.some.inj (hf.symm.trans hf')
      exact absurd hn hn'
    | argument _ _ h' => exact hunique _ _ h'
  | _, _, _, _, _, _, _, _, .count hn, _, _, h' => by
    cases h' with
    | count hn' =>
      obtain rfl := Option.some.inj (hn.symm.trans hn')
      exact ⟨rfl, rfl⟩
    | operand hn' | test hn' | branch hn' => cases hn'.symm.trans hn
    | nested | target | comparand | assigned | printed => cases hn
  | _, _, _, _, _, _, _, _, .nested, _, _, h' => by
    cases h' with
    | count hn' => cases hn'
    | nested => exact ⟨rfl, rfl⟩
  | _, _, _, _, _, _, _, _, .target h, _, _, h' => by
    cases h' with
    | count hn' => cases hn'
    | target => exact ⟨rfl, rfl⟩
    | assigned ht => exact absurd ht (h _)
  | _, _, _, _, _, _, _, _, .assigned ht h, _, _, h' => by
    have hunique := h.unique
    cases h' with
    | count hn' => cases hn'
    | target h' => exact absurd ht (h' _)
    | assigned _ h' => exact hunique _ _ h'
  | _, _, _, _, _, _, _, _, .operand hn h, _, _, h' => by
    have hunique := h.unique
    cases h' with
    | count hn' => cases hn.symm.trans hn'
    | operand _ h' => exact hunique _ _ h'
  | _, _, _, _, _, _, _, _, .comparand h, _, _, h' => by
    have hunique := h.unique
    cases h' with
    | count hn' => cases hn'
    | comparand h' => exact hunique _ _ h'
  | _, _, _, _, _, _, _, _, .test hn h, _, _, h' => by
    have hunique := h.unique
    cases h' with
    | count hn' => cases hn.symm.trans hn'
    | test _ h' => exact hunique _ _ h'
    | branch _ ht' => exact absurd h (ht'.unique.2 _ _)
  | _, _, _, _, _, _, _, _, .branch hn ht h, _, _, h' => by
    have hunique := h.unique
    have huniqueₜ := ht.unique
    cases h' with
    | count hn' => cases hn.symm.trans hn'
    | test _ h' => exact absurd h' (huniqueₜ.2 _ _)
    | branch _ ht' h' =>
      obtain rfl := huniqueₜ.1 _ ht'
      exact hunique _ _ h'
  | _, _, _, _, _, _, _, _, .printed h, _, _, h' => by
    have hunique := h.unique
    cases h' with
    | count hn' => cases hn'
    | printed h' => exact hunique _ _ h'

theorem RefusesAll.unique : ∀ {demand c fs e g}, RefusesAll params demand c fs e g →
    ∀ e' g', RefusesAll params demand c fs e' g' → e' = e ∧ g' = g
  | _, _, _, _, _, .part h, _, _, h' => by
    have hunique := h.unique
    cases h' with
    | part h' => exact hunique _ _ h'
    | kind h' | later h' => exact absurd h (h'.unique.2 _ _)
  | _, _, _, _, _, .kind h hk, _, _, h' => by
    have hunique := h.unique
    cases h' with
    | part h' => exact absurd h' (hunique.2 _ _)
    | kind => exact ⟨rfl, rfl⟩
    | later h' hk' =>
      obtain ⟨rfl, -⟩ := hunique.1 _ _ h'
      cases hk.symm.trans hk'
  | _, _, _, _, _, .later h hk hs, _, _, h' => by
    have hunique := h.unique
    have huniqueₛ := hs.unique
    cases h' with
    | part h' => exact absurd h' (hunique.2 _ _)
    | kind h' hk' =>
      obtain ⟨rfl, -⟩ := hunique.1 _ _ h'
      cases hk'.symm.trans hk
    | later h' _ hs' =>
      obtain ⟨rfl, rfl⟩ := hunique.1 _ _ h'
      exact huniqueₛ _ _ hs'

end

end

end ForkLisp.Compile
