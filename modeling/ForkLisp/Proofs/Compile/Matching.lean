/-
Code generation in contexts that look alike.

Generating code for a form reads the names of functions, their signatures and the names of globals,
and it only adds globals (`Grows`). So in contexts that resemble each other it fails alike, or
succeeds with results of the same kind, and leaves contexts that resemble each other again
(`generateBody_matches`). Neither registers nor tasks make a difference.
-/
import ForkLisp.Proofs.Terms.Generated

namespace ForkLisp.Compile

open ForkLisp.Code ForkLisp.Reader ForkLisp.Source ForkLisp.Terms

variable {α β γ δ : Type}

/-- What callers know of a function. -/
def Function.signature (f : Function) : List String × Kind := (f.params, f.kind)

/-- Two contexts bind the same names to functions with the same signatures, and they have globals of
the same names. -/
structure Context.Resembles (c c' : Context) : Prop where
  names : c'.names = c.names
  functions : c'.functions.map Function.signature = c.functions.map Function.signature
  globals : c'.globals.map (·.name) = c.globals.map (·.name)

/-- Two outcomes are the same error, or results that are related. -/
def Alike (R : α → β → Prop) : Except CompileError α → Except CompileError β → Prop
  | .ok a, .ok b => R a b
  | .error e, .error e' => e = e'
  | _, _ => False

theorem Alike.mono {R R' : α → β → Prop} {x : Except CompileError α} {y : Except CompileError β}
    (h : Alike R x y) (hr : ∀ a b, R a b → R' a b) : Alike R' x y := by
  cases x <;> cases y
  · exact h
  · exact h
  · exact h
  · exact hr _ _ h

theorem Alike.symm {R : α → β → Prop} {x : Except CompileError α} {y : Except CompileError β}
    (h : Alike R x y) : Alike (fun b a => R a b) y x := by
  cases x <;> cases y
  · exact Eq.symm h
  · exact h
  · exact h
  · exact h

theorem Alike.trans {R : α → β → Prop} {S : β → γ → Prop} {x : Except CompileError α}
    {y : Except CompileError β} {z : Except CompileError γ} (h : Alike R x y) (h' : Alike S y z) :
    Alike (fun a c => ∃ b, R a b ∧ S b c) x z := by
  cases x <;> cases y <;> cases z
  · exact Eq.trans h h'
  · exact h'
  · exact False.elim h
  · exact False.elim h
  · exact False.elim h
  · exact False.elim h
  · exact h'
  · exact ⟨_, h, h'⟩

theorem Alike.map {R : α → β → Prop} {S : γ → δ → Prop} {x : Except CompileError α}
    {y : Except CompileError β} {f : α → γ} {g : β → δ} (h : Alike R x y)
    (hf : ∀ a b, R a b → S (f a) (g b)) : Alike S (x.map f) (y.map g) := by
  cases x <;> cases y
  · exact h
  · exact h
  · exact h
  · exact hf _ _ h

/-- Two emissions fail alike or have related results, and the contexts that they leave have only
grown and resemble each other. -/
structure Emission.Matches (R : α → β → Prop) (c c' : Context) (e : Emission α) (e' : Emission β) :
    Prop where
  left : Grows c e.context
  right : Grows c' e'.context
  resembles : e.context.Resembles e'.context
  outcome : Alike R e.outcome e'.outcome

/-- Emissions match in all contexts that resemble each other. -/
def Emit.Matches (R : α → β → Prop) (x : Emit α) (y : Emit β) : Prop :=
  ∀ c c', c.Resembles c' → Emission.Matches R c c' (x c) (y c')

namespace Context.Resembles

variable {c c' : Context}

theorem refl (c : Context) : c.Resembles c := ⟨rfl, rfl, rfl⟩

theorem symm (h : c.Resembles c') : c'.Resembles c :=
  ⟨h.names.symm, h.functions.symm, h.globals.symm⟩

theorem trans {c'' : Context} (h : c.Resembles c') (h' : c'.Resembles c'') : c.Resembles c'' :=
  ⟨h'.names.trans h.names, h'.functions.trans h.functions, h'.globals.trans h.globals⟩

theorem function? (h : c.Resembles c') (id : FuncId) :
    (c'.function? id).map Function.signature = (c.function? id).map Function.signature := by
  have heq := congrArg (fun fs => fs[id]?) h.functions
  rw [Array.getElem?_map, Array.getElem?_map] at heq
  exact heq

theorem findIdx? (h : c.Resembles c') (name : String) :
    c'.globals.findIdx? (·.name == name) = c.globals.findIdx? (·.name == name) := by
  have hmap : ∀ vs : Array Variable,
      vs.findIdx? (·.name == name) = (vs.map (·.name)).findIdx? (· == name) := by
    intro vs
    rw [Array.findIdx?_map]
    rfl
  rw [hmap, hmap, h.globals]

theorem findGlobal? (h : c.Resembles c') (name : String) :
    c'.findGlobal? name = c.findGlobal? name := by
  unfold Context.findGlobal?
  rw [h.findIdx? name]

theorem defineGlobal (h : c.Resembles c') (name : String) :
    (c.defineGlobal name).2.Resembles (c'.defineGlobal name).2 := by
  unfold Context.defineGlobal
  rw [h.findGlobal? name]
  cases c.findGlobal? name with
  | some g => exact h
  | none =>
    refine ⟨h.names, h.functions, ?_⟩
    show (c'.globals.push _).map _ = (c.globals.push _).map _
    rw [Array.map_push, Array.map_push, h.globals]

end Context.Resembles

/-! ### Emissions -/

namespace Emit.Matches

variable {R : α → β → Prop} {S : γ → δ → Prop}

theorem pure {a : α} {b : β} (h : R a b) : Matches R (Pure.pure a) (Pure.pure b) :=
  fun c c' hc => ⟨.refl c, .refl c', hc, h⟩

theorem fail (e : CompileError) : Matches R (.fail e) (.fail e) :=
  fun c c' hc => ⟨.refl c, .refl c', hc, rfl⟩

theorem code (is js : List Inst) : Matches (fun _ _ => True) (Emit.code is) (Emit.code js) :=
  fun c c' hc => ⟨.refl c, .refl c', hc, trivial⟩

theorem global (name : String) :
    Matches (fun _ _ => True) (Emit.global name) (Emit.global name) :=
  fun _ _ hc => ⟨(defineGlobal_grows rfl).1, (defineGlobal_grows rfl).1,
    hc.defineGlobal name, trivial⟩

theorem mono {R' : α → β → Prop} {x : Emit α} {y : Emit β} (h : Matches R x y)
    (hr : ∀ a b, R a b → R' a b) : Matches R' x y := by
  intro c c' hc
  obtain ⟨hl, hr', hs, ho⟩ := h c c' hc
  exact ⟨hl, hr', hs, ho.mono hr⟩

theorem bind {x : Emit α} {y : Emit β} {f : α → Emit γ} {g : β → Emit δ} (h : Matches R x y)
    (hf : ∀ a b, R a b → Matches S (f a) (g b)) : Matches S (x >>= f) (y >>= g) := by
  intro c c' hc
  have hm := h c c' hc
  show Emission.Matches S c c' (andThen x f c) (andThen y g c')
  unfold andThen
  generalize x c = e, y c' = e' at hm
  obtain ⟨code, c₁, a⟩ := e
  obtain ⟨code', c₁', b⟩ := e'
  obtain ⟨hl, hr, hs, ho⟩ := hm
  cases a with
  | error e =>
    cases b with
    | error e' => exact ⟨hl, hr, hs, ho⟩
    | ok b => exact False.elim ho
  | ok a =>
    cases b with
    | error e' => exact False.elim ho
    | ok b =>
      obtain ⟨hl', hr', hs', ho'⟩ := hf a b ho c₁ c₁' hs
      exact ⟨hl.trans hl', hr.trans hr', hs', ho'⟩

theorem symm {x : Emit α} {y : Emit β} (h : Matches R x y) : Matches (fun b a => R a b) y x := by
  intro c c' hc
  obtain ⟨hl, hr, hs, ho⟩ := h c' c hc.symm
  exact ⟨hr, hl, hs.symm, ho.symm⟩

theorem trans {R' : β → γ → Prop} {x : Emit α} {y : Emit β} {z : Emit γ} (h : Matches R x y)
    (h' : Matches R' y z) : Matches (fun a c => ∃ b, R a b ∧ R' b c) x z := by
  intro c c' hc
  obtain ⟨hl, -, hs, ho⟩ := h c c (.refl c)
  obtain ⟨-, hr, hs', ho'⟩ := h' c c' hc
  exact ⟨hl, hr, hs.trans hs', ho.trans ho'⟩

theorem context_bind {f : Context → Emit α} {g : Context → Emit β}
    (h : ∀ c c', c.Resembles c' → Matches R (f c) (g c')) :
    Matches R (Emit.context >>= f) (Emit.context >>= g) := by
  intro c c' hc
  exact h c c' hc c c' hc

theorem branching {skip skip' : Comparison} {r r' : Reg} {x : Emit α} {y : Emit β} {x' : Emit γ}
    {y' : Emit δ} (h : Matches R x y) (h' : Matches S x' y') :
    Matches (fun p q => R p.1 q.1 ∧ S p.2 q.2) (.branching skip r x x')
      (.branching skip' r' y y') := by
  intro c c' hc
  have hm := h c c' hc
  unfold Emit.branching
  generalize x c = e, y c' = e' at hm
  obtain ⟨code, c₁, a⟩ := e
  obtain ⟨code', c₁', b⟩ := e'
  obtain ⟨hl, hr, hs, ho⟩ := hm
  cases a with
  | error e =>
    cases b with
    | error e' => exact ⟨hl, hr, hs, ho⟩
    | ok b => exact False.elim ho
  | ok a =>
    cases b with
    | error e' => exact False.elim ho
    | ok b =>
      obtain ⟨hl', hr', hs', ho'⟩ := h' c₁ c₁' hs
      refine ⟨hl.trans hl', hr.trans hr', hs', ?_⟩
      exact ho'.map fun u v huv => ⟨ho, huv⟩

end Emit.Matches

namespace Emit

variable {x : Emit α} {f : α → Emit β} {c : Context}

theorem bind_of_ok {a : α} (h : x c = ⟨[], c, .ok a⟩) : (x >>= f) c = f a c := by
  show andThen x f c = f a c
  unfold andThen
  rw [h]
  rfl

theorem bind_of_error {e : CompileError} (h : x c = ⟨[], c, .error e⟩) :
    (x >>= f) c = ⟨[], c, .error e⟩ := by
  show andThen x f c = _
  unfold andThen
  rw [h]

theorem bind_assoc (x : Emit α) (f : α → Emit β) (g : β → Emit γ) :
    (x >>= f) >>= g = x >>= fun a => f a >>= g := by
  funext c
  show andThen (andThen x f) g c = andThen x (fun a => andThen (f a) g) c
  unfold andThen
  generalize x c = e
  obtain ⟨code, c₁, a⟩ := e
  cases a with
  | error e => rfl
  | ok a =>
    dsimp only
    generalize f a c₁ = e'
    obtain ⟨code', c₂, b⟩ := e'
    cases b with
    | error e => rfl
    | ok b =>
      dsimp only
      rw [List.append_assoc]

end Emit

/-! ### Parts of the generator -/

section

variable {params : List String}

/-- Nothing is asked of results. -/
abbrev Emit.Parallel (x : Emit α) (y : Emit β) : Prop := Emit.Matches (fun _ _ => True) x y

theorem require_matches {accepts : Kind → Bool} {range : Range} {operator : String}
    {part part' : Emit Kind} (h : Emit.Matches Eq part part') :
    Emit.Matches Eq (require accepts range operator part)
      (require accepts range operator part') := by
  refine h.bind fun k k' hk => ?_
  subst hk
  split
  · exact .pure rfl
  · exact .fail _

/-- Resolving a name neither emits code nor changes the context. -/
theorem resolve_eq (range : Range) (name : String) (count : Nat) (c : Context) :
    resolve params range name count c = ⟨[], c, (resolve params range name count c).outcome⟩ := by
  show (Emit.context >>= _) c = ⟨[], c, ((Emit.context >>= _) c).outcome⟩
  rw [Emit.bind_of_ok (a := c) rfl]
  generalize (c.findFunction? name).bind _ = found
  cases found with
  | none =>
    dsimp only
    split <;> rfl
  | some p =>
    dsimp only
    split <;> rfl

theorem resolve_matches (range : Range) (name : String) (count : Nat) :
    Emit.Matches Eq (resolve params range name count) (resolve params range name count) := by
  refine .context_bind fun c c' hc => ?_
  have hfind : c'.findFunction? name = c.findFunction? name := by
    unfold Context.findFunction?
    rw [hc.names]
  rw [hfind, hc.findGlobal? name]
  cases c.findFunction? name with
  | none =>
    show Emit.Matches Eq (if _ then _ else _) (if _ then _ else _)
    split
    · exact .fail _
    · exact .fail _
  | some id =>
    have hsig := hc.function? id
    simp only [Option.bind_some]
    cases hf : c.function? id with
    | none =>
      rw [hf, Option.map_none, Option.map_eq_none_iff] at hsig
      rw [hsig]
      show Emit.Matches Eq (if _ then _ else _) (if _ then _ else _)
      split
      · exact .fail _
      · exact .fail _
    | some f =>
      rw [hf] at hsig
      obtain ⟨f', hf', hs⟩ := Option.map_eq_some_iff.mp hsig
      obtain ⟨hp, hk⟩ := Prod.mk.inj hs
      have ha : f'.arity = f.arity := congrArg List.length hp
      rw [hf']
      simp only [Option.map_some, ha, hk]
      split
      · exact .pure rfl
      · exact .fail _

theorem symbol_matches (range : Range) (name : String) (r r' : Reg) :
    Emit.Matches Eq (generateSymbol params range name r) (generateSymbol params range name r') := by
  unfold generateSymbol
  split
  · exact (Emit.Matches.code _ _).bind fun _ _ _ => .pure rfl
  · split
    · exact (Emit.Matches.code _ _).bind fun _ _ _ => .pure rfl
    · refine .context_bind fun c c' hc => ?_
      rw [hc.findGlobal? name]
      split
      · exact (Emit.Matches.code _ _).bind fun _ _ _ => .pure rfl
      · exact .fail _

theorem condition_matches {f : Form} {r r' : Reg} {operands operands' : String → Emit Unit}
    {value value' : Emit Kind} (ho : ∀ name, (operands name).Parallel (operands' name))
    (hv : Emit.Matches Eq value value') :
    Emit.Matches Eq (condition f r operands value) (condition f r' operands' value') := by
  unfold condition
  split
  · exact (ho _).bind fun _ _ _ => .pure rfl
  · exact (require_matches hv).bind fun _ _ _ => (Emit.Matches.code _ _).bind fun _ _ _ => .pure rfl

theorem assignable_matches (target : Form) :
    Emit.Matches Eq (assignable target) (assignable target) := by
  unfold assignable
  split
  · split
    · exact .fail _
    · exact .pure rfl
  · exact .fail _

/-! ### Forms -/

/-- Code for a form, in whichever registers, matches. -/
def FormMatches (params : List String) (f : Form) : Prop :=
  ∀ r r', Emit.Matches Eq (generate params f r) (generate params f r')

/-- So does code for the parts of a list. -/
def PartsMatch (params : List String) (f : Form) : Prop :=
  ∀ range head items, f = .list range (head :: items) → ∀ g ∈ items, FormMatches params g

theorem arguments_match {fs : List Form} (h : ∀ f ∈ fs, FormMatches params f) (r r' : Reg) :
    (generateArguments params fs r).Parallel (generateArguments params fs r') := by
  induction fs generalizing r r' with
  | nil =>
    unfold generateArguments
    exact .pure trivial
  | cons f fs ih =>
    unfold generateArguments
    refine (h f (by simp) r r').bind fun _ _ _ => ?_
    exact ih (fun g hg => h g (by simp [hg])) (r + 1) (r' + 1)

theorem comparands_match {fs : List Form} (h : ∀ f ∈ fs, FormMatches params f) (range : Range)
    (name : String) (r r' : Reg) :
    (generateComparands params range name fs r).Parallel
      (generateComparands params range name fs r') := by
  match fs, h with
  | [lhs, rhs], h =>
    unfold generateComparands
    refine (require_matches (h lhs (by simp) r r')).bind fun _ _ _ => ?_
    exact (require_matches (h rhs (by simp) (r + 1) (r' + 1))).bind fun _ _ _ => .pure trivial
  | [], _ | [_], _ | _ :: _ :: _ :: _, _ =>
    simp only [generateComparands]
    exact .fail _

/-- The code for an operand that is no task. -/
def plainOperand (params : List String) (operator : String) (f : Form) (r : Reg) :
    Emit Operand := do
  let _ ← require Kind.isArithmetic f.range operator (generate params f r)
  pure ⟨r, false⟩

theorem plainOperand_matches {f : Form} (h : FormMatches params f) (operator : String)
    (r r' : Reg) :
    (plainOperand params operator f r).Parallel (plainOperand params operator f r') :=
  (require_matches (h r r')).bind fun _ _ _ => .pure trivial

/-- The code for an operand that is an ordinary call, whose name has been resolved. -/
def calledOperand (params : List String) (operator : String) (range : Range) (args : List Form)
    (r : Reg) (p : FuncId × Kind) : Emit Operand := do
  let _ ← require Kind.isArithmetic range operator do
    generateArguments params args (r + 2)
    .code [.call p.1 (r + 2)]
    pure p.2
  pure ⟨r, false⟩

theorem plainOperand_call {range range' : Range} {name : String} {args : List Form}
    (hb : Builtin.ofName? name = none) (operator : String) (r : Reg) :
    plainOperand params operator (.list range (.symbol range' name :: args)) r =
      resolve params range name args.length >>= calledOperand params operator range args r := by
  unfold plainOperand calledOperand require
  unfold generate
  simp only [hb, Emit.bind_assoc]
  rfl

/-- A call that becomes a task matches one that does not. -/
theorem operand_matches {f : Form} (h : FormMatches params f) (hp : PartsMatch params f)
    (operator : String) (r : Reg) :
    (operand params operator f r (generateArgumentsOf params f) (generate params f r)).Parallel
      (plainOperand params operator f r) := by
  unfold operand
  split
  · rename_i name count hcall
    obtain ⟨range, range', args, rfl, hb, rfl⟩ := userCall?_eq_some hcall
    have hargs := arguments_match (hp _ _ _ rfl)
    intro c c' hc
    have hplain := plainOperand_matches h operator r r c c' hc
    have hl := @resolve_eq params range name args.length c
    have hr := @resolve_eq params range name args.length c'
    have hout := (@resolve_matches params range name args.length c c' hc).outcome
    show Emission.Matches _ c c' ((resolve params range name args.length >>= _) c) _
    -- both sides resolve the name, or neither does
    cases hx : (resolve params range name args.length c).outcome with
    | error e =>
      cases hy : (resolve params range name args.length c').outcome with
      | ok p =>
        rw [hx, hy] at hout
        exact False.elim hout
      | error e' =>
        rw [hx, hy] at hout
        rw [hx] at hl
        rw [hy] at hr
        rw [plainOperand_call hb, Emit.bind_of_error hl, Emit.bind_of_error hr]
        exact ⟨.refl c, .refl c', hc, hout⟩
    | ok p =>
      cases hy : (resolve params range name args.length c').outcome with
      | error e' =>
        rw [hx, hy] at hout
        exact False.elim hout
      | ok p' =>
        rw [hx, hy] at hout
        obtain rfl : p = p' := hout
        rw [hx] at hl
        rw [hy] at hr
        obtain ⟨id, kind⟩ := p
        rw [Emit.bind_of_ok hl]
        dsimp only
        split
        · -- the two differ in the registers of the arguments alone
          rename_i hk
          rw [plainOperand_call hb, Emit.bind_of_ok hr]
          unfold calledOperand require
          simp only [Emit.bind_assoc]
          refine Emit.Matches.bind (hargs (r + 3) (r + 2)) (fun _ _ _ => ?_) c c' hc
          refine (Emit.Matches.code _ _).bind fun _ _ _ => ?_
          intro c₁ c₁' hc₁
          rw [Emit.bind_of_ok (a := kind) rfl, if_pos hk]
          exact ⟨.refl c₁, .refl c₁', hc₁, trivial⟩
        · exact hplain
  · exact plainOperand_matches h operator r r

/-- The code for an operand, which may become a task or not. -/
def eitherOperand (params : List String) (operator : String) (f : Form) (r : Reg) (spawn : Bool) :
    Emit Operand :=
  if spawn then operand params operator f r (generateArgumentsOf params f) (generate params f r)
  else plainOperand params operator f r

theorem eitherOperand_matches {f : Form} (h : FormMatches params f) (hp : PartsMatch params f)
    (operator : String) (r r' : Reg) (spawn spawn' : Bool) :
    (eitherOperand params operator f r spawn).Parallel
      (eitherOperand params operator f r' spawn') := by
  have hplain : ∀ (b : Bool) (r : Reg), (eitherOperand params operator f r b).Parallel
      (plainOperand params operator f r) := by
    intro b r
    cases b with
    | true => exact operand_matches h hp operator r
    | false => exact plainOperand_matches h operator r r
  exact ((hplain spawn r).trans ((plainOperand_matches h operator r r').trans
    (hplain spawn' r').symm)).mono fun _ _ _ => trivial

theorem generateOperands_cons (operator : String) (spawn : Bool) (f : Form) (fs : List Form)
    (r : Reg) : generateOperands params operator spawn (f :: fs) r = (do
      let first ← eitherOperand params operator f r (spawn && !fs.isEmpty)
      let rest ←
        generateOperands params operator spawn fs (r + if first.spawned then 2 else 1)
      pure (first :: rest)) := by
  rw [generateOperands]
  unfold eitherOperand
  generalize (spawn && !fs.isEmpty) = b
  cases b with
  | true => rfl
  | false =>
    simp only [Bool.false_eq_true, if_false, plainOperand, Emit.bind_assoc]

theorem operands_match {fs : List Form} (h : ∀ f ∈ fs, FormMatches params f ∧ PartsMatch params f)
    (operator : String) (spawn spawn' : Bool) (r r' : Reg) :
    (generateOperands params operator spawn fs r).Parallel
      (generateOperands params operator spawn' fs r') := by
  induction fs generalizing r r' with
  | nil =>
    unfold generateOperands
    exact .pure trivial
  | cons f fs ih =>
    obtain ⟨hf, hp⟩ := h f (by simp)
    rw [generateOperands_cons, generateOperands_cons]
    refine (eitherOperand_matches hf hp operator r r' _ _).bind fun o o' _ => ?_
    refine (ih (fun g hg => h g (by simp [hg])) _ _).bind fun _ _ _ => ?_
    exact .pure trivial

theorem compared_match {f : Form} (h : PartsMatch params f) (name : String) (r r' : Reg) :
    (generateCompared params name f r).Parallel (generateCompared params name f r') := by
  cases f with
  | list range items =>
    cases items with
    | nil =>
      simp only [generateCompared]
      exact .pure trivial
    | cons head args =>
      unfold generateCompared
      exact comparands_match (h _ _ _ rfl) range name r r'
  | int _ _ | float _ _ | symbol _ _ =>
    simp only [generateCompared]
    exact .pure trivial

theorem arith_matches {range range' : Range} {name : String} {args : List Form} {op : ArithOp}
    (hb : Builtin.ofName? name = some (.arith op))
    (h : ∀ f ∈ args, FormMatches params f ∧ PartsMatch params f) :
    FormMatches params (.list range (.symbol range' name :: args)) := by
  intro r r'
  unfold generate
  simp only [hb]
  split
  · exact .fail _
  · refine .context_bind fun c c' hc => ?_
    refine (operands_match h name _ _ r r').bind fun _ _ _ => ?_
    exact (Emit.Matches.code _ _).bind fun _ _ _ => .pure rfl

theorem conditional_matches {range range' : Range} {name : String} {args : List Form}
    (hb : Builtin.ofName? name = some .conditional)
    (h : ∀ f ∈ args, FormMatches params f ∧ PartsMatch params f) :
    FormMatches params (.list range (.symbol range' name :: args)) := by
  intro r r'
  match args, h with
  | [test, first], h =>
    unfold generate
    simp only [hb]
    obtain ⟨ht, hp⟩ := h test (by simp)
    refine (condition_matches (fun name => compared_match hp name r r') (ht r r')).bind
      fun skip skip' hskip => ?_
    refine (Emit.Matches.branching ((h first (by simp)).1 r r') (Emit.Matches.code _ _)).bind
      fun p q hpq => ?_
    exact .pure (congrArg (Kind.merge · .bool) hpq.1)
  | [test, first, second], h =>
    unfold generate
    simp only [hb]
    obtain ⟨ht, hp⟩ := h test (by simp)
    refine (condition_matches (fun name => compared_match hp name r r') (ht r r')).bind
      fun skip skip' hskip => ?_
    refine (Emit.Matches.branching ((h first (by simp)).1 r r') ((h second (by simp)).1 r r')).bind
      fun p q hpq => ?_
    exact .pure (congr (congrArg Kind.merge hpq.1) hpq.2)
  | [], _ | [_], _ | _ :: _ :: _ :: _ :: _, _ =>
    simp only [generate, hb]
    exact .fail _

theorem assign_matches {range range' : Range} {name : String} {args : List Form}
    (hb : Builtin.ofName? name = some .assign) (h : ∀ f ∈ args, FormMatches params f) :
    FormMatches params (.list range (.symbol range' name :: args)) := by
  intro r r'
  match args, h with
  | [target, value], h =>
    unfold generate
    simp only [hb]
    refine (assignable_matches target).bind fun v v' hv => ?_
    subst hv
    refine (h value (by simp) r r').bind fun k k' hk => ?_
    refine (Emit.Matches.global v).bind fun _ _ _ => ?_
    exact (Emit.Matches.code _ _).bind fun _ _ _ => .pure hk
  | [], _ | [_], _ | _ :: _ :: _ :: _, _ =>
    unfold generate
    simp only [hb]
    exact .fail _

theorem print_matches {range range' : Range} {name : String} {args : List Form}
    (hb : Builtin.ofName? name = some .print) (h : ∀ f ∈ args, FormMatches params f) :
    FormMatches params (.list range (.symbol range' name :: args)) := by
  intro r r'
  match args, h with
  | [value], h =>
    unfold generate
    simp only [hb]
    refine (h value (by simp) r r').bind fun k k' hk => ?_
    exact (Emit.Matches.code _ _).bind fun _ _ _ => .pure hk
  | [], _ | _ :: _ :: _, _ =>
    unfold generate
    simp only [hb]
    exact .fail _

/-- A list matches if its parts do. -/
theorem list_matches {range : Range} {head : Form} {args : List Form}
    (h : ∀ f ∈ args, FormMatches params f ∧ PartsMatch params f) :
    FormMatches params (.list range (head :: args)) := by
  have hforms : ∀ f ∈ args, FormMatches params f := fun f hf => (h f hf).1
  cases head with
  | symbol range' name =>
    rcases hb : Builtin.ofName? name with _ | b
    · intro r r'
      unfold generate
      simp only [hb]
      refine (resolve_matches range name args.length).bind fun p p' hp => ?_
      subst hp
      refine (arguments_match hforms _ _).bind fun _ _ _ => ?_
      exact (Emit.Matches.code _ _).bind fun _ _ _ => .pure rfl
    · cases b with
      | arith op => exact arith_matches hb h
      | compare test =>
        intro r r'
        unfold generate
        simp only [hb]
        refine (comparands_match hforms range name r r').bind fun _ _ _ => ?_
        refine (Emit.Matches.branching (Emit.Matches.code _ _) (Emit.Matches.code _ _)).bind
          fun _ _ _ => ?_
        exact .pure rfl
      | conditional => exact conditional_matches hb h
      | assign => exact assign_matches hb hforms
      | print => exact print_matches hb hforms
      | define =>
        intro r r'
        unfold generate
        simp only [hb]
        exact .fail _
  | int _ _ | float _ _ | list _ _ =>
    intro r r'
    rw [generate_head rfl, generate_head rfl]
    exact .fail _

mutual

theorem form_matches : ∀ f, FormMatches params f ∧ PartsMatch params f
  | .int _ _ | .float _ _ | .list _ [] => by
    refine ⟨fun r r' => ?_, fun _ _ _ he => absurd he (by simp)⟩
    unfold generate
    exact (Emit.Matches.code _ _).bind fun _ _ _ => .pure rfl
  | .symbol range name => by
    refine ⟨fun r r' => ?_, fun _ _ _ he => absurd he (by simp)⟩
    unfold generate
    exact symbol_matches range name r r'
  | .list range (head :: args) => by
    have hargs := forms_match args
    refine ⟨list_matches hargs, ?_⟩
    rintro _ _ _ he g hm
    obtain ⟨-, rfl, rfl⟩ : _ ∧ head = _ ∧ args = _ := by simpa using he
    exact (hargs g hm).1

theorem forms_match : ∀ fs : List Form, ∀ f ∈ fs, FormMatches params f ∧ PartsMatch params f
  | [], _, hm => absurd hm (by simp)
  | f :: fs, g, hm => (List.mem_cons.mp hm).elim (fun he => he ▸ form_matches f)
    (forms_match fs g)

end

/-! ### Bodies -/

theorem sequence_matches (fs : List Form) (k : Kind) (r r' : Reg) :
    Emit.Matches Eq (generateSequence params r k fs) (generateSequence params r' k fs) := by
  induction fs generalizing k with
  | nil => exact .pure rfl
  | cons f fs ih =>
    unfold generateSequence
    refine ((form_matches f).1 r r').bind fun k k' hk => ?_
    subst hk
    exact ih k

/-- In contexts that resemble each other, code for a body fails alike or returns values of the same
kind. -/
theorem generateBody_matches (fs : List Form) (r r' : Reg) :
    Emit.Matches Eq (generateBody params fs r) (generateBody params fs r') := by
  unfold generateBody
  refine (sequence_matches fs .bool r r').bind fun k k' hk => ?_
  exact (Emit.Matches.code _ _).bind fun _ _ _ => .pure hk

end

end ForkLisp.Compile
