/-
Code in its registers.

The code that is generated for a form is to leave the value of the form in a register, and to work
in that register and those above it. It does so wherever it stands: in any frame that begins with
arguments for the parameters, in any code, and on any path through it, calls and tasks that could
not be started included (`generated_keeps_registers`). What code refers to where it was generated is
the same ever after, which holds of every form in the body of a function (`parts_carry`).
-/
import ForkLisp.Proofs.Machine.Stretch
import ForkLisp.Proofs.Session.Identity
import ForkLisp.Proofs.Session.Optimizing
import ForkLisp.Proofs.Session.Running
import ForkLisp.Proofs.Terms.Registers

namespace ForkLisp.Compile

open ForkLisp.Code ForkLisp.Machine ForkLisp.Reader ForkLisp.Reference ForkLisp.Behaviour
  ForkLisp.Terms

/-- What code of one context refers to is the same in another one. A function may have been
completed meanwhile. -/
structure Context.Carries (c c' : Context) : Prop where
  settings : c'.settings = c.settings
  known : ∀ g, Knows c g → Knows c' g
  functions : ∀ id f, c.function? id = some f → ∃ f', c'.function? id = some f' ∧
    f'.params = f.params ∧ (f.kind = .bool → f'.kind = .bool)

namespace Context.Carries

variable {c c' c'' : Context}

theorem trans (h : c.Carries c') (h' : c'.Carries c'') : c.Carries c'' where
  settings := h'.settings.trans h.settings
  known g hg := h'.known g (h.known g hg)
  functions id f hf := by
    obtain ⟨f', hf', hp, hk⟩ := h.functions id f hf
    obtain ⟨f'', hf'', hp', hk'⟩ := h'.functions id f' hf'
    exact ⟨f'', hf'', hp'.trans hp, fun hb => hk' (hk hb)⟩

theorem of_functions (hf : c'.functions = c.functions) (hk : ∀ g, Knows c g → Knows c' g)
    (hs : c'.settings = c.settings) : c.Carries c' :=
  ⟨hs, hk, fun n f hn => ⟨f, by rw [← hn, Context.function?, Context.function?, hf], rfl, id⟩⟩

theorem of_grows (h : Grows c c') : c.Carries c' :=
  of_functions h.functions (fun _ => h.knows) h.settings

/-- A function that is completed was taken to return a number. -/
theorem complete {id : FuncId} {k : Kind} {raw code : ForkLisp.Code}
    (hint : ∀ f, c.function? id = some f → f.kind = .int) :
    c.Carries (c.complete id k raw code) where
  settings := rfl
  known _ hg := hg
  functions n f hn := by
    have hget : (c.complete id k raw code).function? n = if id = n then
        (c.function? n).map fun f =>
          { f with kind := k, raw, code, lowered := some (lower code f.arity) }
        else c.function? n := by
      show (c.functions.modify id _)[n]? = _
      rw [Array.getElem?_modify]
      rfl
    rw [hget, hn]
    by_cases hid : id = n
    · subst hid
      refine ⟨_, if_pos rfl, rfl, fun hb => ?_⟩
      rw [hint f hn] at hb
      cases hb
    · exact ⟨f, if_neg hid, rfl, fun hb => hb⟩

theorem define (c : Context) (name : String) (params : List String) :
    c.Carries (c.define name params).1 where
  settings := rfl
  known _ hg := hg
  functions id f hf := by
    have hlt : id < c.functions.size := (Array.getElem?_eq_some_iff.mp hf).1
    refine ⟨f, ?_, rfl, fun hb => hb⟩
    show (c.functions.push _)[id]? = some f
    rw [Array.getElem?_push, if_neg (Nat.ne_of_lt hlt)]
    exact hf

/-- Compiling a form leaves what was there. -/
theorem compile (c : Context) (f : Form) : c.Carries (compile c f).context := by
  have hr := compile_arises c f
  generalize Compile.compile c f = compiled at hr
  cases hr with
  | failed h =>
    refine .of_functions h.functions (fun g hg => ?_) h.settings
    unfold Knows
    rw [h.globals]
    exact hg
  | @defined d own k ts log hd hg hb =>
    refine ((define c d.name d.params).trans (.of_grows hg)).trans (.complete fun f hf => ?_)
    obtain rfl := Option.some.inj ((define_self hg).symm.trans hf)
    rfl
  | entry hd hg hb => exact .of_grows hg

/-- What a scope is meant for in the context in which code was generated, it is meant for later. -/
theorem suits {W H : Type} {S : Spec W} {m : Meaning Datum H W} {defs : FuncId → Option Closure}
    (h : c.Carries c') (hi : Interprets c' defs S m) : Suits S (scopeOf c) where
  known g hg := hi.known g (h.known g hg)
  spawns hs := hi.spawns (h.settings.symm ▸ hs)
  kinds id f hf hk := by
    obtain ⟨f', hf', -, hk'⟩ := h.functions id f hf
    exact (hi.kind id f' hf').mpr (hk' hk)

theorem functionTable (c : Context) : c.Carries c.functionTable.2 := by
  unfold Context.functionTable
  split <;> exact of_functions rfl (fun _ hg => hg) rfl

theorem withGlobalValues (c : Context) (values : Array Slot) :
    c.Carries (c.withGlobalValues values) := by
  refine of_functions rfl (fun g hg => ?_) rfl
  unfold Knows
  rwa [Session.withGlobalValues_getElem?, Option.map_map]

theorem arity (h : c.Carries c') (id : FuncId) (n : Nat) (hn : (scopeOf c).arity id = some n) :
    (scopeOf c').arity id = some n := by
  obtain ⟨f, hf, rfl⟩ := Option.map_eq_some_iff.mp hn
  obtain ⟨f', hf', hp, -⟩ := h.functions id f hf
  show (c'.function? id).map Function.arity = _
  rw [hf', Option.map_some, Function.arity, Function.arity, hp]

end Context.Carries

end ForkLisp.Compile

namespace ForkLisp.Session

open ForkLisp.Code ForkLisp.Compile ForkLisp.Machine ForkLisp.Reader ForkLisp.Reference
  ForkLisp.Behaviour ForkLisp.Schedule ForkLisp.Terms

/-! ### What code refers to -/

section

variable {ds ds' : List Defined} {c final own : Context} {f g : Form} {d : Definition}
  {params : List String} {fs : List Form} {r : Reg} {code : List Inst} {k k₀ : Kind}

/-- Whatever happens in a session leaves what there was. -/
theorem Leads.carries (h : Leads ds c ds' final) : c.Carries final := by
  induction h with
  | refl => exact .of_grows (.refl c)
  | compile _ f ih => exact ih.trans (.compile _ f)
  | tabulate _ ih => exact ih.trans (.functionTable _)
  | assign _ values ih => exact ih.trans (.withGlobalValues _ values)

/-- The context after a definition whose body could be generated. -/
theorem compile_of_body (hd : definition? f = some d)
    (hbody : (generateBody d.params d.body d.params.length).Yields
      (c.define d.name d.params).1 code own k) :
    (compile c f).context = own.complete c.functions.size k code.toArray
      (finalCode own (some c.functions.size) code.toArray).1 := by
  unfold definition? at hd
  obtain ⟨args, hargs, hd⟩ := Option.bind_eq_some_iff.mp hd
  unfold compile
  rw [hargs]
  dsimp only
  cases ho : Definition.ofArguments f.range args with
  | error e =>
    rw [ho] at hd
    cases hd
  | ok d' =>
    rw [ho] at hd
    obtain rfl : d' = d := Option.some.inj hd
    unfold compileDefinition
    dsimp only
    rw [show generateBody d'.params d'.body d'.params.length (c.define d'.name d'.params).1 =
      ⟨code, own, .ok k⟩ from hbody]
    rfl

/-- What the body of a function refers to where it was generated is the same ever after. -/
theorem carries_of_body (hd : definition? f = some d)
    (hbody : (generateBody d.params d.body d.params.length).Yields
      (c.define d.name d.params).1 code own k)
    (h : Leads ds (compile c f).context ds' final) : own.Carries final := by
  have hgrows := (generateBody_resolves (body_ne_nil hd) hbody).1
  refine Context.Carries.trans ?_ h.carries
  rw [compile_of_body hd hbody]
  refine .complete fun f' hf' => ?_
  obtain rfl := Option.some.inj ((define_self hgrows).symm.trans hf')
  rfl

/-- The code of forms in order has in it the code of each of them. -/
theorem yields_of_sequence (hg : g ∈ fs)
    (h : (generateSequence params r k₀ fs).Yields c code own k) :
    ∃ c₁ code₁ own₁ k₁, (generate params g r).Yields c₁ code₁ own₁ k₁ ∧ code₁ <:+: code ∧
      Grows own₁ own := by
  induction fs generalizing c code k₀ with
  | nil => cases hg
  | cons f fs ih =>
    unfold generateSequence at h
    obtain ⟨code₁, c₁, k₁, code₂, hf, hs, rfl⟩ := Emit.yields_bind.mp h
    rcases List.mem_cons.mp hg with rfl | hg
    · refine ⟨c, code₁, c₁, k₁, hf, ⟨[], code₂, rfl⟩, ?_⟩
      cases fs with
      | nil =>
        obtain ⟨-, rfl, -⟩ := Emit.yields_pure.mp hs
        exact .refl own
      | cons => exact (generateSequence_resolves (by simp) hs).1
    · obtain ⟨c₂, code₃, own₁, k₂, hyields, hinfix, hgrows⟩ := ih hg hs
      exact ⟨c₂, code₃, own₁, k₂, hyields, hinfix.trans ⟨code₁, [], by simp⟩, hgrows⟩

/-- Each form in the body of a function has its code in that of the function, and what this refers
to where it was generated is the same ever after. -/
theorem parts_carry (hd : definition? f = some d)
    (hbody : (generateBody d.params d.body d.params.length).Yields
      (c.define d.name d.params).1 code own k)
    (h : Leads ds (compile c f).context ds' final) (hg : g ∈ d.body) :
    ∃ c₁ code₁ own₁ k₁, (generate d.params g d.params.length).Yields c₁ code₁ own₁ k₁ ∧
      code₁ <:+: code ∧ own₁.Carries final := by
  have hcarries := carries_of_body hd hbody h
  unfold generateBody at hbody
  obtain ⟨code₁, c₁, k₁, code₂, hs, hgo, rfl⟩ := Emit.yields_bind.mp hbody
  obtain ⟨-, rfl, -⟩ := Emit.yields_code_pure.mp hgo
  obtain ⟨c₂, code₃, own₁, k₂, hyields, hinfix, hgrows⟩ := yields_of_sequence hg hs
  exact ⟨c₂, code₃, own₁, k₂, hyields, hinfix.trans ⟨[], code₂, rfl⟩,
    (Context.Carries.of_grows hgrows).trans hcarries⟩

end

/-! ### Registers -/

/-- A task is about to run some instructions, in a frame that fits on its stack and begins with some
arguments. -/
structure Faces (t : Task) (l : Lowered) (code : List Inst) (args : List Datum) : Prop where
  lowered : t.lowered? = some l
  code : At l.code t.pc code
  room : t.base + l.frameSize ≤ t.stack.size
  args : ∀ i v, args[i]? = some v → t.read? i = some v.slot

/-- A task runs the next `n` instructions, which compute `x` into the register `r`.

* On the way the slots below the register are as they were. In its frame the task stands at one of
  the instructions, and all other frames lie above.
* It comes to the place right behind, in the same frame, where the register holds the value of `x`
  and the slots below are still as they were.
* Or it ends with the fault of `x`, or for want of room on its stack. -/
def Computes (c : Context) (x : Eval Datum) (n r : Nat) (t : Task) (w : World)
    (mem : Memory) : Prop :=
  t.Comes
    (fun u => t.Spares (t.base + r) u ∧
      (u.base = t.base ∧ u.code = t.code ∧ t.pc ≤ u.pc ∧ u.pc < t.pc + n ∨ t.base + r + 2 ≤ u.base))
    (fun u w' => t.Spares (t.base + r) u ∧ u.base = t.base ∧ u.code = t.code ∧ u.pc = t.pc + n ∧
      ∃ v mem', x mem = some (.ok v, mem') ∧ u.read? r = some v.slot ∧ Mirrors c w' mem')
    (fun e w' => e = .stackOverflow ∨
      ∃ strict mem', x mem = some (.error ⟨e, strict⟩, mem') ∧ Mirrors c w' mem')
    w

section

variable {c own : Context} {closures : List Closure} {params : List String} {f : Form} {tm : Term}
  {k : Kind} {r : Nat} {args : List Datum} {t : Task} {l : Lowered} {w : World} {mem : Memory}

/-- What is left of a term that returns its value, up to the return. -/
theorem stretch_of_faces {H W : Type} {m : Meaning Datum H W} (h : Faces t l (tm.emit r) args) :
    t.Stretch m (tm.returning t.pc r) r l (Frame.enter args) where
  lowered := h.lowered
  same pc i hpc hi hr := by
    rcases Term.of_returning hpc hi with ⟨j, hj, rfl, hij⟩ | ⟨-, rfl⟩
    · exact (h.code j hj).trans hij
    · exact absurd hr (by simp [Inst.isReturn])
  writes pc i hpc hi d hd := by
    rcases Term.of_returning hpc hi with ⟨j, -, -, hij⟩ | ⟨-, rfl⟩
    · exact (tm.upward r i (List.mem_of_getElem? hij)).2 d hd
    · exact absurd hd List.not_mem_nil
  room := h.room
  fits := .enter h.args

/-- A task that gets through a term computes it. -/
theorem computes_of_passes {x : Eval Datum}
    (h : t.Passes (Mirrors c) w (tm.returning t.pc r) r (Permits (fun _ => False) x mem)) :
    Computes c x (tm.emit r).length r t w mem := by
  have hamid : ∀ u, t.Amid (tm.returning t.pc r) r u → t.Spares (t.base + r) u ∧
      (u.base = t.base ∧ u.code = t.code ∧ t.pc ≤ u.pc ∧ u.pc < t.pc + (tm.emit r).length ∨
        t.base + r + 2 ≤ u.base) := by
    refine fun u hu => ⟨hu.spares, hu.place.imp_left ?_⟩
    rintro ⟨hb, hc, hpc, i, hi, hret⟩
    rcases Term.of_returning hpc hi with ⟨j, hj, hpos, -⟩ | ⟨-, rfl⟩
    · exact ⟨hb, hc, hpc, by omega⟩
    · exact absurd hret (by simp [Inst.isReturn])
  have hfault : ∀ e w', (∃ mem', Permits (fun _ => False) x mem (.fault e mem') ∧
    Mirrors c w' mem') →
      e = .stackOverflow ∨
        ∃ strict mem', x mem = some (.error ⟨e, strict⟩, mem') ∧ Mirrors c w' mem' := by
    rintro e w' ⟨mem', he, hw'⟩
    exact he.exact_fault.imp_right fun he => he.imp fun strict hx => ⟨mem', hx, hw'⟩
  refine h.trans hamid (fun u w' hu => .last ?_) hfault
  obtain ⟨i, v, mem', hi, hanswer, hv, hw'⟩ := hu.answer
  have hahead := hu.ahead
  rcases Term.of_returning hahead.pc hi with ⟨j, -, -, hij⟩ | ⟨hpc, rfl⟩
  · -- the code of a term does not return
    have hret := (tm.upward r i (List.mem_of_getElem? hij)).1
    rw [hanswer.isReturn] at hret
    cases hret
  · cases hanswer with
    | ret hread =>
      exact ⟨hahead.spares, hahead.base, hahead.code, hpc, v, mem', hv.exact_value, hread, hw'⟩

/-- The code of a form that resolves to a term computes what the form evaluates to. -/
theorem computes_of_resolves (h : Traced c closures) (hopt : c.settings.optimize = false)
    (hc : own.Carries c) (hres : Resolves (scopeOf own) params f tm k) (hr : params.length ≤ r)
    {entry : ForkLisp.Code} (hprogram : t.program = ⟨c.currentTable, lower entry 0⟩)
    (hlen : args.length = params.length) (hfaces : Faces t l (tm.emit r) args)
    (hpool : own.settings.spawn = true → w.pool.take? = none) (hw : Mirrors c w mem) :
    Computes c (evaluate (closures[·]?) own.names (params.zip args) f)
      (tm.emit r).length r t w mem := by
  have hi : Interprets c (closures[·]?)
      (sequentialSpec (fun _ => False) (c.settings.spawn = true) c)
      (sequential (fun _ => False) (c.settings.spawn = true) c (closures[·]?) (scopeOf c).arity) :=
    interprets_sequential _ fun ho => absurd (hopt.symm.trans ho) Bool.false_ne_true
  have hfulfils : t.program.Fulfils (sequential (fun _ => False) (c.settings.spawn = true) c
      (closures[·]?) (scopeOf c).arity) := hprogram ▸ h.fulfils hi entry
  have halone : Alone (sequential (fun _ => False) (c.settings.spawn = true) c (closures[·]?)
      (scopeOf c).arity) w.pool := by
    cases hs : own.settings.spawn with
    | true => exact .inl (hpool hs)
    | false =>
      refine .inr fun n args a hspawn => ?_
      rw [hc.settings, hs] at hspawn
      cases hspawn
  refine computes_of_passes ((stretch_of_faces hfaces).passes
    (sequential_describes h.distinct) hfulfils
    halone hw Permits.not_stuck fun o ho => ?_)
  have hbody := ResolvesBody.last hres
  have hscoped := Term.Scoped.mono hc.arity (fun _ hg => hg) tm hres.scoped
  have hevals := Term.returns (hlen ▸ hscoped) (hlen ▸ hr) ho
  have hagrees := resolvesBody_agrees (hi.simulates _) (hc.suits hi) hlen hbody
    (keepAll_of_forall own.names (fun _ => trivial) trivial [f]) hevals
  rw [evaluateBody_last] at hagrees
  exact hagrees.1

end

/-- Code that is generated for a form without optimizing works in the register of its value and
those above it. No instruction of it writes a register below, returns, or jumps anywhere but forward
to one of its instructions or right behind them. Wherever it stands in code, in any frame that
begins with arguments for the parameters, a task that runs it computes the value of the form into
the register, as the evaluator has it. -/
theorem generated_keeps_registers {settings : Settings} (hopt : settings.optimize = false)
    {final : Context} (hfinal : Context.Evolves settings final) :
    (∃ closures, Traced final closures) ∧
    ∀ closures, Traced final closures → ∀ params f r c code own k,
      (generate params f r).Yields c code own k → params.length ≤ r → own.Carries final →
      Upward r code ∧ Contained code ∧
      ∀ (entry : ForkLisp.Code) (t : Task) (l : Lowered) (args : List Datum) (w : World)
        (mem : Memory),
        t.program = ⟨final.functionTable.1, lower entry 0⟩ → args.length = params.length →
        Faces t l code args → (own.settings.spawn = true → w.pool.take? = none) →
        Mirrors final w mem →
        Computes final (evaluate (closures[·]?) own.names (params.zip args) f)
          code.length r t w mem := by
  obtain ⟨hsettings, htraced⟩ := hfinal.traced
  refine ⟨htraced, fun closures h params f r c code own k hgen hr hc => ?_⟩
  obtain ⟨-, tm, rfl, hres⟩ := generate_resolves hgen
  refine ⟨tm.upward r, tm.contained r, fun entry t l args w mem hprogram hlen hfaces hpool hw => ?_⟩
  rw [functionTable_eq h] at hprogram
  exact computes_of_resolves h (hsettings ▸ hopt) hc hres hr hprogram hlen hfaces hpool hw

/-- Settings with which operands may become tasks, but there are none. -/
def taskless : Settings := { single with optimize := false, spawn := true }

/-- A function that calls itself twice, once in place of a task. -/
def branching : Form := formOf "(defun g (x) (if (< x 1) x (+ (g (- x 1)) (g (- x 2)))))"

/-- The form of its body. -/
def branchingBody : Form :=
  (((definition? branching).map Definition.body).getD []).headD branching

/-- The code of the body. -/
def branchingCode : List Inst :=
  [.move 1 0, .intConst 2 1, .branch .ge 3 1 2, .move 1 0, .jump 11, .move 4 0, .intConst 5 1,
    .arith .sub 4 5, .spawn 0 4, .move 5 0, .intConst 6 2, .arith .sub 5 6, .call 0 5, .join 1,
    .arith .add 1 3]

/-- The context in which the body is compiled. -/
def registered : Context := ((Context.new taskless).define "g" ["x"]).1

/-- The context in which the function is complete. -/
def completed : Context := (compile (.new taskless) branching).context

/-- A task in the function, five slots above the bottom of its stack, with one for its argument. -/
def branchingTask : Task :=
  { Task.root 20 ⟨completed.functionTable.1, lower #[] 0⟩ with
    stack := (Array.replicate 20 .empty).set 5 (.int 1)
    base := 5
    code := .func 0 }

theorem registered_yields :
    (generate ["x"] branchingBody 1).Yields registered branchingCode registered .any := by
  unfold Emit.Yields
  cbv

theorem completed_eq : completed = registered.complete 0 .any
    (List.toArray (branchingCode ++ [.ret 1, .stop]))
      (List.toArray (branchingCode ++ [.ret 1, .stop])) := by
  cbv

theorem branching_body : ∃ d : Definition, definition? branching = some d ∧
    (generateBody d.params d.body d.params.length).Yields ((Context.new taskless).define d.name
      d.params).1 (branchingCode ++ [.ret 1, .stop]) registered .any := by
  refine ⟨⟨"g", ["x"], [branchingBody]⟩, by cbv, ?_⟩
  unfold Emit.Yields
  cbv

theorem registered_carries : registered.Carries completed := by
  obtain ⟨d, hd, hbody⟩ := branching_body
  exact carries_of_body hd hbody (.refl : Leads [] _ [] _)

theorem branchingTask_faces : Faces branchingTask
    (lower (List.toArray (branchingCode ++ [.ret 1, .stop])) 1) branchingCode [.int 1] where
  lowered := by cbv
  code k hk := by
    have hall : ∀ k, k < branchingCode.length →
      (List.toArray (branchingCode ++ [.ret 1, .stop]))[0 + k]? = branchingCode[k]? := by decide
    exact hall k hk
  room := by decide
  args i v hv := by
    cases i with
    | zero =>
      obtain rfl := Option.some.inj hv
      rfl
    | succ i => cases hv

/-- The code of the body in a frame of the function: a comparison, two alternatives, a call and one
in place of a task. -/
theorem generated_keeps_registers_branching :
    registered.Carries completed ∧ Faces branchingTask
        (lower (List.toArray (branchingCode ++ [.ret 1, .stop])) 1) branchingCode [.int 1] ∧
      ∃ closures, Traced completed closures ∧
        Computes completed (evaluate (closures[·]?) registered.names
          [("x", .int 1)] branchingBody) 15 1
          branchingTask ⟨#[], #[], .ofSize 0 20⟩ ⟨fun _ => .int 0, []⟩ := by
  have hmirrors : Mirrors completed ⟨#[], #[], .ofSize 0 20⟩ ⟨fun _ => .int 0, []⟩ := by
    refine ⟨fun i v hv => ?_, rfl⟩
    rw [completed_eq] at hv
    exact absurd hv (by simp [Context.complete, registered, Context.define, Context.new])
  have hevolves : Context.Evolves taskless completed := .compile .new branching
  obtain ⟨⟨closures, htraced⟩, hruns⟩ := generated_keeps_registers rfl hevolves
  obtain ⟨-, -, hcomputes⟩ := hruns closures htraced ["x"] branchingBody 1 registered branchingCode
    registered .any registered_yields (by decide) registered_carries
  exact ⟨registered_carries, branchingTask_faces, closures, htraced,
    hcomputes #[] branchingTask _ [.int 1] _ _ rfl rfl branchingTask_faces (fun _ => rfl) hmirrors⟩

end ForkLisp.Session
