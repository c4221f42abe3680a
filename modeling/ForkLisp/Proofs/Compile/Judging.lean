/-
The generator judges forms.

Whatever registers it uses, and whether or not operands become tasks, the generator succeeds just
for what is accepted, and otherwise its error is about the part that is refused
(`generateBody_judges`). `Emit.EndsIn` says how an emission that starts in a context can end; each
part of the generator is taken through it once.
-/
import ForkLisp.Proofs.Compile.Judgement
import ForkLisp.Proofs.Compile.Matching

namespace ForkLisp.Compile

open ForkLisp.Code ForkLisp.Reader ForkLisp.Source ForkLisp.Terms

/-! ### How emissions end -/

/-- An emission that starts in a context comes to a result and a context of which `q` holds, or
to an error of which `failed` holds. -/
def Emit.EndsIn {α : Type} (x : Emit α) (c : Context) (q : α → Context → Prop)
    (failed : CompileError → Prop) : Prop :=
  match (x c).outcome with
  | .ok a => q a (x c).context
  | .error e => failed e

namespace Emit.EndsIn

variable {α β : Type} {x : Emit α} {c : Context} {q : α → Context → Prop}
  {failed : CompileError → Prop}

theorem pure {a : α} (h : q a c) : Emit.EndsIn (Pure.pure a) c q failed := h

theorem fail {e : CompileError} (h : failed e) :
    Emit.EndsIn (Emit.fail e : Emit α) c q failed := h

theorem code {is : List Inst} {q : Unit → Context → Prop} (h : q () c) :
    (Emit.code is).EndsIn c q failed := h

theorem global {name : String} {q : Global → Context → Prop}
    (h : q (c.defineGlobal name).1 (c.defineGlobal name).2) :
    (Emit.global name).EndsIn c q failed := h

theorem mono {q' : α → Context → Prop} {failed' : CompileError → Prop}
    (h : x.EndsIn c q failed) (hd : ∀ a c', q a c' → q' a c')
    (hf : ∀ e, failed e → failed' e) : x.EndsIn c q' failed' := by
  unfold EndsIn at h ⊢
  split at h
  · exact hd _ _ h
  · exact hf _ h

theorem bind {y : α → Emit β} {next : β → Context → Prop} (h : x.EndsIn c q failed)
    (hy : ∀ a c', q a c' → (y a).EndsIn c' next failed) : (x >>= y).EndsIn c next failed := by
  show (andThen x y).EndsIn c next failed
  unfold EndsIn andThen at *
  generalize x c = first at h ⊢
  obtain ⟨code, c₁, out⟩ := first
  cases out with
  | error e => exact h
  | ok a => exact hy a c₁ h

theorem context_bind {y : Context → Emit β} {next : β → Context → Prop}
    (h : (y c).EndsIn c next failed) : (Emit.context >>= y).EndsIn c next failed :=
  bind (q := fun a c' => a = c ∧ c' = c) ⟨rfl, rfl⟩ fun _ _ ha => ha.1 ▸ ha.2 ▸ h

theorem branching {y : Emit β} {next : α × β → Context → Prop} {skip : Comparison} {r : Reg}
    (h : x.EndsIn c q failed)
    (hy : ∀ a c', q a c' → y.EndsIn c' (fun b => next (a, b)) failed) :
    (Emit.branching skip r x y).EndsIn c next failed := by
  unfold EndsIn Emit.branching at *
  generalize x c = first at h ⊢
  obtain ⟨code, c₁, out⟩ := first
  cases out with
  | error e => exact h
  | ok a =>
    have hnext := hy a c₁ h
    dsimp only at hnext ⊢
    generalize y c₁ = second at hnext ⊢
    obtain ⟨code', c₂, out'⟩ := second
    cases out' with
    | error e => exact hnext
    | ok b => exact hnext

end Emit.EndsIn

/-! ### Parts of the generator -/

/-- A part of the generator judges a form. -/
def Emit.Judges (params : List String) (c : Context) (f : Form) (x : Emit Kind) : Prop :=
  x.EndsIn c (Accepts params c f) fun e => ∃ g, Refuses params c f e g

/-- A part of the generator judges forms one after the other. -/
def Emit.JudgesAll {α : Type} (params : List String) (demand : Demand) (c : Context)
    (fs : List Form) (x : Emit α) : Prop :=
  x.EndsIn c (fun _ => AcceptsAll params demand c fs) fun e => ∃ g,
    RefusesAll params demand c fs e g

namespace Emit

variable {α β : Type} {params : List String} {d : Demand} {c : Context} {f : Form}
  {fs : List Form} {x : Emit α} {y : α → Emit β}

/-- Something is done when some forms have been judged. -/
theorem JudgesAll.into {q : β → Context → Prop} {failed : CompileError → Prop}
    (h : x.JudgesAll params d c fs)
    (hd : ∀ a c', AcceptsAll params d c fs c' → (y a).EndsIn c' q failed)
    (hf : ∀ e g, RefusesAll params d c fs e g → failed e) :
    (x >>= y).EndsIn c q failed :=
  (h.mono (fun _ _ ha => ha) fun e he => he.elim (hf e)).bind hd

theorem JudgesAll.nil (a : α) : (pure a : Emit α).JudgesAll params d c [] :=
  .pure AcceptsAll.nil

theorem JudgesAll.cons (h : x.JudgesAll params d c [f])
    (hs : ∀ a c₁, (y a).JudgesAll params d c₁ fs) :
    (x >>= y).JudgesAll params d c (f :: fs) := by
  refine h.into (fun a c₁ hf => (hs a c₁).mono (fun _ c' hfs => ?_) fun e he => ?_) fun e g hr => ?_
  · cases hf with
    | cons hf hk hnil =>
      cases hnil
      exact .cons hf hk hfs
  · cases hf with
    | cons hf hk hnil =>
      cases hnil
      exact he.imp fun g hg => .later hf hk hg
  · cases hr with
    | part h => exact ⟨g, .part h⟩
    | kind h hk => exact ⟨_, .kind h hk⟩
    | later _ _ hnil => cases hnil

theorem JudgesAll.andPure (h : x.JudgesAll params d c fs) (b : α → β) :
    (x >>= fun a => pure (b a)).JudgesAll params d c fs :=
  h.into (fun _ _ ha => .pure ha) fun _ g hr => ⟨g, hr⟩

/-- A kind is asked for. -/
theorem Judges.require {x : Emit Kind} (h : x.Judges params c f) :
    (require d.takes f.range d.operator x).JudgesAll params d c [f] := by
  refine (h.mono (fun _ _ ha => ha) fun e he => he.imp fun g hg => .part hg).bind
    fun k c' ha => ?_
  split
  · rename_i hk
    exact .pure (.cons ha hk .nil)
  · rename_i hk
    exact .fail ⟨f, .kind ha (Bool.not_eq_true _ ▸ hk)⟩

/-- Nothing is asked for. -/
theorem Judges.any {x : Emit Kind} (h : x.Judges params c f) :
    x.JudgesAll params .any c [f] :=
  h.mono (fun _ _ ha => .cons ha rfl .nil) fun _ he => he.imp fun _ hg => .part hg

end Emit

section

variable {params : List String} {c : Context} {r r' : Range} {name : String} {args : List Form}

/-- A name stands for a function, or it is refused. -/
theorem resolve_judges (r' : Range) (hb : Builtin.ofName? name = none) :
    (resolve params r name args.length).EndsIn c
      (fun p c' => c' = c ∧ ∃ fn, c.called? name = some fn ∧ fn.arity = args.length ∧ p.2 = fn.kind)
      fun e => ∃ g, Refuses params c (.list r (.symbol r' name :: args)) e g := by
  refine .context_bind ?_
  have hcalled : c.called? name =
      ((c.findFunction? name).bind fun id => (c.function? id).map (id, ·)).map (·.2) := by
    unfold Context.called?
    cases c.findFunction? name with
    | none => rfl
    | some id => cases h : c.function? id <;> simp [h]
  split
  · rename_i id fn hfound
    rw [hfound] at hcalled
    split
    · rename_i hn
      exact .pure ⟨rfl, fn, hcalled, hn, rfl⟩
    · rename_i hn
      exact .fail ⟨_, .list hb (.arity hcalled hn)⟩
  · rename_i hfound
    rw [hfound] at hcalled
    split
    · rename_i hbound
      exact .fail ⟨_, .list hb (.uncallable hcalled (hbound.imp id Option.isSome_iff_ne_none.mp))⟩
    · rename_i hfree
      rw [not_or, Option.not_isSome_iff_eq_none] at hfree
      exact .fail ⟨_, .list hb (.undefined hcalled hfree.1 hfree.2)⟩

theorem symbol_judges (reg : Reg) :
    (generateSymbol params r name reg).Judges params c (.symbol r name) := by
  have hcode : ∀ {is : List Inst} {k : Kind} {c : Context},
      Accepts params c (.symbol r name) k c →
      (Emit.code is >>= fun _ => pure k : Emit Kind).Judges params c (.symbol r name) := fun h =>
    Emit.EndsIn.bind (Emit.EndsIn.code (q := fun _ c' => c' = _) rfl) fun _ _ hc =>
      .pure (hc ▸ h)
  unfold generateSymbol
  split
  · rename_i ht
    exact hcode (.truth ht)
  · rename_i ht
    rw [Bool.not_eq_true] at ht
    split
    · rename_i i hi
      exact hcode (.parameter ht (List.isSome_idxOf?.mp (by rw [hi]; rfl)))
    · rename_i hi
      have hp : name ∉ params := List.idxOf?_eq_none_iff.mp hi
      refine .context_bind ?_
      split
      · rename_i g hg
        exact hcode (.global ht hp (by rw [hg]; simp))
      · rename_i hg
        exact .fail ⟨_, .unbound ht hp hg⟩

theorem assignable_judges {target : Form} {failed : CompileError → Prop}
    (h : (∀ v, ¬ Binds isTruthName target v) →
      failed (.invalidDefinition target.range s!"cannot assign to `{target.text}`")) :
    (assignable target).EndsIn c (fun v c' => c' = c ∧ Binds isTruthName target v) failed := by
  unfold assignable
  split
  · rename_i v hv
    split
    · rename_i ht
      refine .fail (h fun v' hb => ?_)
      obtain rfl := Option.some.inj (hv.symm.trans hb.1)
      exact absurd (ht.symm.trans hb.2) (by simp)
    · rename_i ht
      exact .pure ⟨rfl, hv, Bool.not_eq_true _ ▸ ht⟩
  · rename_i hv
    exact .fail (h fun v hb => absurd (hv.symm.trans hb.1) (by simp))

/-- The generator judges a form, wherever its value goes. -/
def FormJudged (params : List String) (f : Form) : Prop :=
  ∀ c reg, (generate params f reg).Judges params c f

/-- The generator judges everything in a form. -/
def AllJudged (params : List String) (f : Form) : Prop := ∀ g, Subform g f → FormJudged params g

theorem AllJudged.form {f : Form} (h : AllJudged params f) : FormJudged params f := h f (.refl f)

theorem AllJudged.items {f g : Form} {fs : List Form} (h : AllJudged params (.list r (f :: fs)))
    (hg : g ∈ fs) : AllJudged params g := fun g' hg' =>
  h g' (.item (List.mem_cons_of_mem _ hg) hg')

theorem arguments_judged (h : ∀ f ∈ args, FormJudged params f) (c : Context) (reg : Reg) :
    (generateArguments params args reg).JudgesAll params .any c args := by
  induction args generalizing c reg with
  | nil =>
    unfold generateArguments
    exact .nil ()
  | cons f fs ih =>
    unfold generateArguments
    refine (h f List.mem_cons_self c reg).any.cons fun _ c₁ => ?_
    exact ih (fun g hg => h g (List.mem_cons_of_mem _ hg)) c₁ (reg + 1)

theorem comparands_judged {test : Comparison} (r' : Range)
    (hb : Builtin.ofName? name = some (.compare test)) (h : ∀ f ∈ args, FormJudged params f)
    (c : Context) (reg : Reg) :
    (generateComparands params r name args reg).EndsIn c
      (fun _ => Accepts params c (.list r (.symbol r' name :: args)) .bool)
      fun e => ∃ g, Refuses params c (.list r (.symbol r' name :: args)) e g := by
  match args, h with
  | [lhs, rhs], h =>
    unfold generateComparands
    have hall : (do
        let _ ← require Kind.isIntegral lhs.range name (generate params lhs reg)
        let _ ← require Kind.isIntegral rhs.range name (generate params rhs (reg + 1))
        pure () : Emit Unit).JudgesAll params (.integral name) c [lhs, rhs] :=
      .cons (Emit.Judges.require (h lhs (by simp) c reg)) fun _ c₁ =>
        .cons (Emit.Judges.require (h rhs (by simp) c₁ (reg + 1))) fun _ _ => .nil ()
    exact hall.mono (fun _ _ ha => .list hb (.compare ha)) fun _ he => he.imp fun _ hr =>
      .list hb (.comparand hr)
  | [], _ | [_], _ | _ :: _ :: _ :: _, _ =>
    simp only [generateComparands]
    exact .fail ⟨_, .list hb (.count (by simp [Builtin.expected?]))⟩

/-- A name that stands for conditionals is the name of a conditional. -/
theorem conditional_name (h : Builtin.ofName? name = some .conditional) : name = "if" := by
  obtain ⟨front, back, hnames, -⟩ := List.lookup_eq_some_iff.mp h
  have hmem : (name, Builtin.conditional) ∈ Builtin.names := by
    rw [hnames]
    exact List.mem_append_right _ List.mem_cons_self
  simpa [Builtin.names] using hmem

theorem condition_judged {test : Form} (hb : Builtin.ofName? name = some .conditional)
    (h : AllJudged params test) (c : Context) (reg : Reg) :
    (condition test reg (fun name => generateCompared params name test reg)
      (generate params test reg)).JudgesAll params (.integral name) c [test] := by
  obtain rfl := conditional_name hb
  unfold condition
  split
  · rename_i compared comparison hcall
    -- a comparison is judged by its operands, and its value is always taken
    unfold comparisonCall? at hcall
    split at hcall
    · rename_i range range' head items
      obtain ⟨comparison', hcompared, heq⟩ := Option.map_eq_some_iff.mp hcall
      obtain ⟨rfl, rfl⟩ := Prod.mk.inj heq
      have hname : Builtin.ofName? head = some (.compare comparison') := by
        unfold Builtin.comparison? at hcompared
        split at hcompared
        · rename_i hn
          rw [hn, Option.some.inj hcompared]
        · cases hcompared
      unfold generateCompared
      have hitems : ∀ g ∈ items, FormJudged params g := fun g hg => (h.items hg).form
      refine Emit.EndsIn.bind ((comparands_judged range' hname hitems c reg).mono
        (fun _ _ ha => ha) fun e he => he.imp fun g hg => .part hg) fun _ _ ha => ?_
      exact .pure (.cons ha rfl .nil)
    · cases hcall
  · refine (Emit.Judges.require (d := .integral "if") (h.form c reg)).into
      (fun _ _ ha => ?_) fun _ g hr => ⟨g, hr⟩
    exact Emit.EndsIn.bind (.code ha) fun _ _ ha => .pure ha

theorem operand_judged {f : Form} (h : AllJudged params f) (c : Context) (reg : Reg)
    (spawn : Bool) :
    (eitherOperand params name f reg spawn).JudgesAll params (.arithmetic name) c [f] := by
  have hplain : (plainOperand params name f reg).JudgesAll params (.arithmetic name) c [f] :=
    (Emit.Judges.require (d := .arithmetic name) (h.form c reg)).andPure _
  unfold eitherOperand
  split
  · unfold operand
    split
    · rename_i callee count hcall
      obtain ⟨range, range', operands, rfl, hb, rfl⟩ := userCall?_eq_some hcall
      refine Emit.EndsIn.bind ((resolve_judges range' hb).mono (fun _ _ hp => hp)
        fun e he => he.imp fun g hg => .part hg) ?_
      rintro ⟨id, kind⟩ c' ⟨rfl, fn, hf, hn, hk⟩
      dsimp only at hk ⊢
      subst hk
      split
      · rename_i hkind
        unfold generateArgumentsOf
        have hargs := arguments_judged (fun g hg => (h.items hg).form) c' (reg + 3)
        refine hargs.into (fun _ c₁ ha => ?_) fun e g hr =>
          ⟨g, .part (.list hb (.argument hf hn hr))⟩
        exact Emit.EndsIn.bind (.code ha) fun _ _ ha =>
          .pure (.cons (.list hb (.call hf hn ha)) hkind .nil)
      · exact hplain
    · exact hplain
  · exact hplain

theorem operands_judged (h : ∀ f ∈ args, AllJudged params f) (c : Context) (spawn : Bool)
    (reg : Reg) :
    (generateOperands params name spawn args reg).JudgesAll params (.arithmetic name) c args := by
  induction args generalizing c reg with
  | nil =>
    unfold generateOperands
    exact .nil _
  | cons f fs ih =>
    rw [generateOperands_cons]
    refine (operand_judged (h f List.mem_cons_self) c reg _).cons fun o c₁ => ?_
    exact (ih (fun g hg => h g (List.mem_cons_of_mem _ hg)) c₁ _).andPure _

/-! ### Lists -/

theorem call_judged (hb : Builtin.ofName? name = none) (h : ∀ f ∈ args, AllJudged params f) :
    FormJudged params (.list r (.symbol r' name :: args)) := by
  intro c reg
  unfold generate
  simp only [hb]
  refine (resolve_judges r' hb).bind ?_
  rintro ⟨id, kind⟩ c' ⟨rfl, fn, hf, hn, hk⟩
  dsimp only at hk ⊢
  subst hk
  refine (arguments_judged (fun f hf => (h f hf).form) c' _).into (fun _ c₁ ha => ?_)
    fun e g hr => ⟨g, .list hb (.argument hf hn hr)⟩
  exact Emit.EndsIn.bind (.code ha) fun _ _ ha => .pure (.list hb (.call hf hn ha))

theorem arith_judged {op : ArithOp} (hb : Builtin.ofName? name = some (.arith op))
    (h : ∀ f ∈ args, AllJudged params f) :
    FormJudged params (.list r (.symbol r' name :: args)) := by
  intro c reg
  unfold generate
  simp only [hb]
  split
  · rename_i expected hn
    exact .fail ⟨_, .list hb (.count hn)⟩
  · rename_i hn
    refine .context_bind ?_
    refine (operands_judged h c _ reg).into (fun _ c₁ ha => ?_)
      fun e g hr => ⟨g, .list hb (.operand hn hr)⟩
    exact Emit.EndsIn.bind (.code ha) fun _ _ ha => .pure (.list hb (.arith hn ha))

theorem compare_judged {test : Comparison} (hb : Builtin.ofName? name = some (.compare test))
    (h : ∀ f ∈ args, FormJudged params f) :
    FormJudged params (.list r (.symbol r' name :: args)) := by
  intro c reg
  unfold generate
  simp only [hb]
  refine (comparands_judged r' hb h c reg).bind fun _ c₁ ha => ?_
  refine Emit.EndsIn.bind (q := fun _ c' => c' = c₁) ?_ fun _ _ hc => .pure (hc ▸ ha)
  exact Emit.EndsIn.branching (.code (q := fun _ c' => c' = c₁) rfl) fun _ _ hc => .code hc

/-- The first branch of a conditional is judged when its test was. -/
theorem firstBranch_judged {c₁ : Context} {test first : Form} {rest : List Form}
    (hb : Builtin.ofName? name = some .conditional)
    (hn : Builtin.conditional.expected? ((first :: rest).length + 1) = none)
    (ht : AcceptsAll params (.integral name) c [test] c₁) (h : FormJudged params first)
    (reg : Reg) :
    (generate params first reg).EndsIn c₁ (Accepts params c₁ first) fun e =>
      ∃ g, Refuses params c (.list r (.symbol r' name :: test :: first :: rest)) e g :=
  (h c₁ reg).mono (fun _ _ ha => ha)
    fun _ he => he.imp fun _ hr => .list hb (.branch hn ht (.part hr))

theorem conditional_judged (hb : Builtin.ofName? name = some .conditional)
    (h : ∀ f ∈ args, AllJudged params f) :
    FormJudged params (.list r (.symbol r' name :: args)) := by
  intro c reg
  match args, h with
  | [test, first], h =>
    have hcount : Builtin.conditional.expected? ([first].length + 1) = none := rfl
    unfold generate
    simp only [hb]
    refine (condition_judged hb (h test (by simp)) c reg).into (fun skip c₁ ht => ?_)
      fun e g hr => ⟨g, .list hb (.test hcount hr)⟩
    refine Emit.EndsIn.bind (q := fun p => Accepts params c₁ first p.1)
      ((firstBranch_judged hb hcount ht (h first (by simp)).form reg).branching
        fun _ _ ha => .code ha) ?_
    rintro p c₂ ha
    exact .pure (.list hb (.short ht ha))
  | [test, first, second], h =>
    have hcount : Builtin.conditional.expected? ([first, second].length + 1) = none := rfl
    unfold generate
    simp only [hb]
    refine (condition_judged hb (h test (by simp)) c reg).into (fun skip c₁ ht => ?_)
      fun e g hr => ⟨g, .list hb (.test hcount hr)⟩
    refine Emit.EndsIn.bind
      (q := fun p =>
        Accepts params c (.list r [.symbol r' name, test, first, second]) (p.1.merge p.2))
      ((firstBranch_judged hb hcount ht (h first (by simp)).form reg).branching
        fun k c₂ ha => ?_) fun _ _ ha => .pure ha
    exact ((h second (by simp)).form c₂ reg).mono (fun k' _ ha' => .list hb (.full ht ha ha'))
      fun e he => he.imp fun g hr => .list hb (.branch hcount ht (.later ha rfl (.part hr)))
  | [], _ | [_], _ | _ :: _ :: _ :: _ :: _, _ =>
    simp only [generate, hb]
    exact .fail ⟨_, .list hb (.count (by simp [Builtin.expected?]))⟩

theorem assign_judged (hb : Builtin.ofName? name = some .assign)
    (h : ∀ f ∈ args, FormJudged params f) :
    FormJudged params (.list r (.symbol r' name :: args)) := by
  intro c reg
  match args, h with
  | [target, value], h =>
    unfold generate
    simp only [hb]
    refine (assignable_judges fun ht => ⟨target, .list hb (.target ht)⟩).bind ?_
    rintro v c' ⟨rfl, ht⟩
    refine Emit.EndsIn.bind ((h value (by simp) c' reg).mono (fun _ _ ha => ha)
      fun e he => he.imp fun g hr => .list hb (.assigned ht hr)) fun k c₁ ha => ?_
    refine Emit.EndsIn.bind (.global (q := fun _ c₂ => c₂ = (c₁.defineGlobal v).2) rfl)
      fun g c₂ hc => ?_
    refine Emit.EndsIn.bind (.code (q := fun _ c' => c' = c₂) rfl) fun _ _ hc' => .pure ?_
    rw [hc', hc]
    exact .list hb (.assign ht ha)
  | [], _ | [_], _ | _ :: _ :: _ :: _, _ =>
    unfold generate
    simp only [hb]
    exact .fail ⟨_, .list hb (.count (by simp [Builtin.expected?]))⟩

theorem print_judged (hb : Builtin.ofName? name = some .print)
    (h : ∀ f ∈ args, FormJudged params f) :
    FormJudged params (.list r (.symbol r' name :: args)) := by
  intro c reg
  match args, h with
  | [value], h =>
    unfold generate
    simp only [hb]
    refine Emit.EndsIn.bind ((h value (by simp) c reg).mono (fun _ _ ha => ha)
      fun e he => he.imp fun g hr => .list hb (.printed hr)) fun k c₁ ha => ?_
    refine Emit.EndsIn.bind (.code (q := fun _ c' => c' = c₁) rfl) fun _ _ hc => .pure ?_
    exact hc ▸ .list hb (.print ha)
  | [], _ | _ :: _ :: _, _ =>
    unfold generate
    simp only [hb]
    exact .fail ⟨_, .list hb (.count (by simp [Builtin.expected?]))⟩

/-- A list is judged if everything behind its head is. -/
theorem list_judged {head : Form} (h : ∀ f ∈ args, AllJudged params f) :
    FormJudged params (.list r (head :: args)) := by
  have hforms : ∀ f ∈ args, FormJudged params f := fun f hf => (h f hf).form
  cases head with
  | symbol r' name =>
    cases hb : Builtin.ofName? name with
    | none => exact call_judged hb h
    | some b =>
      cases b with
      | arith op => exact arith_judged hb h
      | compare test => exact compare_judged hb hforms
      | conditional => exact conditional_judged hb h
      | assign => exact assign_judged hb hforms
      | print => exact print_judged hb hforms
      | define =>
        intro c reg
        unfold generate
        simp only [hb]
        exact .fail ⟨_, .list hb .nested⟩
  | int _ _ | float _ _ | list _ _ =>
    intro c reg
    rw [generate_head rfl]
    exact .fail ⟨_, .head rfl⟩

mutual

theorem form_judged : ∀ f, AllJudged params f
  | .int _ _ | .float _ _ => by
    intro g hg c reg
    cases hg
    unfold generate
    exact Emit.EndsIn.bind (.code (q := fun _ c' => c' = c) rfl) fun _ _ hc =>
      .pure (hc ▸ by constructor)
  | .list _ [] => by
    intro g hg c reg
    cases hg with
    | refl =>
      unfold generate
      exact Emit.EndsIn.bind (.code (q := fun _ c' => c' = c) rfl) fun _ _ hc =>
        .pure (hc ▸ .nil)
    | item hmem => cases hmem
  | .symbol _ _ => by
    intro g hg c reg
    cases hg
    unfold generate
    exact symbol_judges reg
  | .list _ (head :: args) => by
    have hargs := forms_judged args
    intro g hg
    cases hg with
    | refl => exact list_judged hargs
    | item hmem hg =>
      rcases List.mem_cons.mp hmem with heq | hmem
      · exact form_judged head g (heq ▸ hg)
      · exact hargs _ hmem g hg

theorem forms_judged : ∀ fs : List Form, ∀ f ∈ fs, AllJudged params f
  | [], _, hm => absurd hm List.not_mem_nil
  | f :: fs, g, hm =>
    (List.mem_cons.mp hm).elim (fun he => he ▸ form_judged f) (forms_judged fs g)

end

/-! ### Bodies -/

theorem sequence_judged (fs : List Form) (c : Context) (k : Kind) (reg : Reg) :
    (generateSequence params reg k fs).JudgesAll params .any c fs := by
  induction fs generalizing c k with
  | nil => exact .nil k
  | cons f fs ih =>
    unfold generateSequence
    exact (form_judged f f (.refl f) c reg).any.cons fun k' c₁ => ih c₁ k'

/-- Code for a body is generated if all forms are accepted one after the other, and otherwise the
error is about the first part that is refused. -/
theorem generateBody_judges (fs : List Form) (c : Context) (reg : Reg) :
    (generateBody params fs reg).JudgesAll params .any c fs := by
  unfold generateBody
  refine (sequence_judged fs c .bool reg).into (fun k c₁ ha => ?_) fun _ g hr => ⟨g, hr⟩
  exact Emit.EndsIn.bind (.code ha) fun _ _ ha => .pure ha

end

end ForkLisp.Compile
