/-
The meaning of programs whose tasks leave the memory alone.

The memory is fixed, so that it does not matter when a call is made. A handle is the call that a
task makes, and waiting for the task comes to what the call may come to. A program that has a
meaning here neither assigns nor prints: that is left without a meaning.

What a computation may come to is told by what the evaluator makes of it (`Settles`). Operands are
evaluated before the tasks among them are waited for, so that another fault may be met than the
first one from the left; but where the evaluator comes to a value, there is no fault to be met
(`forking_simulates`).
-/
import ForkLisp.Proofs.Compile.Linking
import ForkLisp.Proofs.Reference.Steady

namespace ForkLisp.Reference

open ForkLisp.Code ForkLisp.Compile ForkLisp.Machine ForkLisp.Behaviour ForkLisp.Terms

variable {α β : Type}

/-- An ending that is possible for a computation, if the evaluator comes to an end with it: the
value that the evaluator comes to, or a fault if it comes to none. The stack may overflow all the
same, and anything is possible if the evaluator meets a free fault. -/
def Settles (free : Failure → Prop) (mem : Memory) (x : Eval α) : Ending α Unit → Prop
  | .value v _ => ∀ a mem', x mem = some (a, mem') → a = .ok v ∨ ∃ e, a = .error e ∧ free e
  | .fault e _ => e = .stackOverflow ∨ ∀ v mem', x mem ≠ some (.ok v, mem')
  | .stuck => False

namespace Settles

variable {free : Failure → Prop} {mem : Memory} {x y : Eval α} {f : α → Eval β}

theorem congr {r : Ending α Unit} (hxy : y mem = x mem) (h : Settles free mem x r) :
    Settles free mem y r := by
  unfold Settles at h ⊢
  rw [hxy]
  exact h

/-- Anything but having no meaning settles a computation that comes to no end. -/
theorem of_none {r : Ending α Unit} (h : x mem = none) (hr : r ≠ .stuck) :
    Settles free mem x r := by
  cases r with
  | value v w =>
    intro a mem' ha
    cases h.symm.trans ha
  | fault e w =>
    refine .inr fun v mem' hv => ?_
    cases h.symm.trans hv
  | stuck => exact absurd rfl hr

theorem of_free {r : Ending α Unit} {e : Failure} {mem' : Memory}
    (h : x mem = some (.error e, mem')) (he : free e) (hr : r ≠ .stuck) :
    Settles free mem x r := by
  cases r with
  | value v w =>
    intro a mem'' ha
    cases h.symm.trans ha
    exact .inr ⟨e, rfl, he⟩
  | fault e w =>
    refine .inr fun v mem'' hv => ?_
    cases h.symm.trans hv
  | stuck => exact absurd rfl hr

theorem of_value {v : α} {w : Unit} (h : x mem = some (.ok v, mem)) :
    Settles free mem x (.value v w) := by
  intro a mem' ha
  cases h.symm.trans ha
  exact .inl rfl

theorem ne_stuck {r : Ending α Unit} (h : Settles free mem x r) : r ≠ .stuck := by
  rintro rfl
  exact h

/-- What faults does not come to a value, whatever follows it. -/
theorem fault_bind {e : Fault} {w : Unit} (h : Settles free mem x (.fault e w)) :
    Settles free mem (x >>= f) (.fault e w) := by
  refine h.imp_right fun hnot v mem' hv => ?_
  cases hr : x mem with
  | none => cases (Eval.bind_none (f := f) hr).symm.trans hv
  | some r =>
    obtain ⟨a, mem₁⟩ := r
    cases a with
    | ok u => exact hnot u mem₁ hr
    | error e' => cases (Eval.bind_error (f := f) hr).symm.trans hv

/-- A computation that leaves the memory alone, and what follows it. -/
theorem bind (hx : Steady x) {r : Ending α Unit} {o : Ending β Unit} (h : Settles free mem x r)
    (ho : r.into o fun v _ => Settles free mem (f v) o) : Settles free mem (x >>= f) o := by
  cases r with
  | stuck => exact h.elim
  | value v w =>
    have ho : Settles free mem (f v) o := ho
    cases hr : x mem with
    | none => exact .of_none (Eval.bind_none hr) ho.ne_stuck
    | some r =>
      obtain ⟨a, mem'⟩ := r
      obtain rfl := hx _ _ _ hr
      rcases h a _ hr with rfl | ⟨e, rfl, he⟩
      · exact ho.congr (Eval.bind_ok hr)
      · exact .of_free (Eval.bind_error hr) he ho.ne_stuck
  | fault e w =>
    obtain rfl := ho
    exact h.fault_bind

/-- A fault that is met behind a computation which leaves the memory alone. -/
theorem behind (hx : Steady x) {e : Fault} {w : Unit}
    (h : ∀ v, Settles free mem (f v) (.fault e w)) :
    Settles free mem (x >>= f) (.fault e w) := by
  cases hr : x mem with
  | none => exact .of_none (Eval.bind_none hr) (Ending.fault_ne_stuck e w)
  | some r =>
    obtain ⟨a, mem'⟩ := r
    obtain rfl := hx _ _ _ hr
    cases a with
    | ok u => exact (h u).congr (Eval.bind_ok hr)
    | error e' =>
      refine .inr fun v mem'' hv => ?_
      cases (Eval.bind_error (f := f) hr).symm.trans hv

theorem answer {strict : Bool} {a b : Except Fault α} (h : Allows (fun e => free ⟨e, strict⟩) a b)
    (w : Unit) : Settles free mem (answer strict a) (.ofAnswer b w) := by
  rcases h with rfl | ⟨e, rfl, he⟩
  · cases b with
    | ok v => exact .of_value rfl
    | error e =>
      refine .inr fun v mem' hv => ?_
      cases hv
  · refine .of_free (e := ⟨e, strict⟩) rfl he ?_
    cases b <;> exact fun h => by cases h

end Settles

/-! ### The meaning -/

section

variable (free : Failure → Prop) (sync : Prop) (c : Context) (calls : FuncId → Prop)
  (defs : FuncId → Option Closure) (mem : Memory) (arity : FuncId → Option Nat)

/-- What code is meant for that leaves the memory `mem` alone and only calls functions
among `calls`. -/
def forkingSpec : Spec Unit where
  rel x _ r := Settles free mem x r
  tame := Steady
  calls := calls
  writes := False
  spawns := sync
  known := Knows c
  kind := kindOf c

/-- What a call may come to. -/
def Comes (f : FuncId) (args : List Datum) (w : Unit) (r : Ending Datum Unit) : Prop :=
  calls f → Agrees (forkingSpec free sync c calls mem) (kindOf c f) (evaluateCall defs f args) w r

/-- The meaning of code that leaves the memory alone. -/
def forking : Meaning Datum (FuncId × List Datum) Unit where
  int := .int
  bool := .bool
  float := .float
  arith op u v := Allows (fun e => free ⟨e, isStrict op v.slot⟩) (u.arith op v)
  negate v := Allows (free ∘ .lax) v.negate
  test c u v := Allows (free ∘ .lax) (u.compare c v)
  load g w r := Knows c g → r = .value (mem.globals g.name) w
  store _ _ _ _ := True
  print _ _ _ _ := True
  arity := arity
  call := Comes free sync c calls defs mem
  spawn f args w r := sync → calls f →
    r = .value (f, args) w ∨
      ∃ e, r = .fault e w ∧ Comes free sync c calls defs mem f args w (.fault e w)
  join h := Comes free sync c calls defs mem h.1 h.2

end

section

variable {free : Failure → Prop} {sync : Prop} {c : Context} {calls : FuncId → Prop}
  {defs : FuncId → Option Closure} {mem : Memory} {arity : FuncId → Option Nat}

theorem forking_calculates :
    Calculates Datum.operands free (forking free sync c calls defs mem arity) :=
  ⟨rfl, rfl, rfl, rfl, rfl⟩

theorem forking_algebraic (hfree : ∀ got, free (.lax (.typeMismatch got))) :
    (forking free sync c calls defs mem arity).Algebraic :=
  forking_calculates.algebraic hfree fun g _ => ⟨mem.globals g.name, fun _ => rfl⟩

theorem forking_permissive :
    Permissive (forkingSpec free sync c calls mem) defs
      (forking free sync c calls defs mem arity) :=
  fun _ _ _ _ h => h

/-! ### Operands -/

/-- An item that an operand has left stands for a computation, once the task is waited for. -/
def StandsFor (m : Meaning Datum (FuncId × List Datum) Unit) (free : Failure → Prop) (mem : Memory)
    (y : Eval Datum) (i : Datum ⊕ (FuncId × List Datum)) : Prop :=
  Steady y ∧
  match i with
  | .inl v => ∀ w, Settles free mem y (.value v w)
  | .inr h => ∀ w r, m.join h w r → Settles free mem y r

/-- An operand leaves an item that stands for its computation, or a fault that settles it. -/
theorem forking_operand {args : List Datum} {t : Term} {y : Eval Datum} {w : Unit}
    {o : Ending (Datum ⊕ (FuncId × List Datum)) Unit}
    (h : Serves (forkingSpec free sync c calls mem) defs
      (forking free sync c calls defs mem arity) args t y)
    (hy : Steady y) (ho : t.EvalsOperand (forking free sync c calls defs mem arity) args w o) :
    match o with
    | .value i _ => StandsFor (forking free sync c calls defs mem arity) free mem y i
    | .fault e w => Settles free mem y (.fault e w)
    | .stuck => False := by
  cases h with
  | @task f us x hc hs ht hx =>
    obtain ⟨r, hr, hinto⟩ := ho
    have hrel : Settles free mem x r := hx w r hr
    cases r with
    | stuck => exact hrel.elim
    | fault e w₁ =>
      obtain rfl := hinto
      exact hrel.fault_bind
    | value vs w₁ =>
      obtain ⟨r', hr', hinto'⟩ := hinto
      -- either the call is left to a task, or it faults at once
      rcases hr' hs hc with rfl | ⟨e, rfl, hcomes⟩
      · obtain rfl := hinto'
        exact ⟨hy, fun w r hjoin => hrel.bind ht (hjoin hc).1⟩
      · obtain rfl := hinto'
        exact hrel.bind ht (hcomes hc).1
  | value hn hvalue =>
    rw [Term.evalsOperand_of_not_task _ _ hn] at ho
    obtain ⟨r, hr, hinto⟩ := ho
    have hrel : Settles free mem y r := hvalue w r hr
    cases r with
    | stuck => exact hrel.elim
    | fault e w₁ =>
      obtain rfl := hinto
      exact hrel
    | value v w₁ =>
      obtain rfl := hinto
      exact ⟨hy, fun w => hrel⟩

/-- Operands leave items that stand for their computations, or a fault. -/
theorem forking_operands {args : List Datum} {ts : List Term} {ys : List (Eval Datum)} {w : Unit}
    {o : Ending (List (Datum ⊕ (FuncId × List Datum))) Unit}
    (h : ServeAll (forkingSpec free sync c calls mem) defs
      (forking free sync c calls defs mem arity) args ts ys)
    (ho : EvalsOperands (forking free sync c calls defs mem arity) args ts w o) :
    match o with
    | .value is _ =>
      List.Forall₂ (StandsFor (forking free sync c calls defs mem arity) free mem) ys is
    | .fault e w => Settles free mem (collect ys) (.fault e w)
    | .stuck => False := by
  induction h generalizing w o with
  | nil =>
    unfold EvalsOperands at ho
    obtain rfl := ho
    exact .nil
  | @cons t y ts ys hsteady ht _ ih =>
    have hsteady : Steady y := hsteady
    rw [evalsOperands_cons] at ho
    obtain ⟨r, hr, hinto⟩ := ho
    have hfirst := forking_operand ht hsteady hr
    cases r with
    | stuck => exact hfirst.elim
    | fault e w₁ =>
      obtain rfl := hinto
      exact Settles.fault_bind hfirst
    | value i w₁ =>
      obtain ⟨r', hr', hinto'⟩ := hinto
      have hrest := ih hr'
      cases r' with
      | stuck => exact hrest.elim
      | fault e w₂ =>
        -- the fault may be met before the one that the evaluator meets
        obtain rfl := hinto'
        exact .behind hsteady fun v => Settles.fault_bind hrest
      | value is w₂ =>
        obtain rfl := hinto'
        exact .cons hfirst hrest

theorem steady_collect {m : Meaning Datum (FuncId × List Datum) Unit} {ys : List (Eval Datum)}
    {is : List (Datum ⊕ (FuncId × List Datum))} (h : List.Forall₂ (StandsFor m free mem) ys is) :
    Steady (collect ys) := by
  induction h with
  | nil => exact .pure []
  | cons hy _ ih => exact hy.1.bind fun v => ih.bind fun vs => .pure (v :: vs)

/-- Items come to the values of what they stand for, once all tasks were waited for. -/
theorem joinAll_forking {ys : List (Eval Datum)} {is : List (Datum ⊕ (FuncId × List Datum))}
    {w : Unit} {o : Ending (List Datum) Unit}
    (h : List.Forall₂ (StandsFor (forking free sync c calls defs mem arity) free mem) ys is)
    (ho : joinAll (forking free sync c calls defs mem arity) is w o) :
    Settles free mem (collect ys) o := by
  induction h generalizing w o with
  | nil =>
    obtain rfl : o = _ := ho
    exact .of_value rfl
  | @cons y i ys is hy hys ih =>
    have hrest : ∀ {v : Datum} {w : Unit},
        andThen (joinAll (forking free sync c calls defs mem arity) is w)
          (fun vs w => (· = .value (v :: vs) w)) o →
        Settles free mem (collect ys >>= fun vs => Pure.pure (v :: vs)) o := by
      rintro v w ⟨r, hr, hinto⟩
      refine (ih hr).bind (steady_collect hys) (Ending.into_mono (fun vs w₁ _ hvs => ?_) hinto)
      rw [hvs]
      exact .of_value rfl
    cases i with
    | inl v => exact (hy.2 w).bind hy.1 (hrest ho)
    | inr p =>
      obtain ⟨r, hr, hinto⟩ := ho
      exact (hy.2 w r hr).bind hy.1 (Ending.into_mono (fun v w₁ _ hv => hrest hv) hinto)

/-- The meaning fits the evaluator. -/
theorem forking_simulates
    (hdefs : ∀ id cl, defs id = some cl → calls id → KeepAll calls False cl.names cl.body) :
    Simulates (forkingSpec free sync c calls mem) defs
      (forking free sync c calls defs mem arity) where
  int := rfl
  bool := rfl
  float := rfl
  pure _ w := Settles.of_value (w := w) rfl
  not_stuck _ _ h := h
  bind hx hr ho := Settles.bind hx hr ho
  tame_pure := Steady.pure
  tame_bind hx hf := Steady.bind hx hf
  tame_answer := Steady.answer
  tame_evaluate names env f h := steady_evaluate hdefs names env h
  arith _ _ _ _ w h := Settles.answer h w
  negate _ _ w h := Settles.answer h w
  test _ _ _ _ w h := Settles.answer h w
  load g w r hg h := by
    obtain rfl := h hg
    exact Settles.of_value (w := w) rfl
  store _ _ _ _ _ hw := hw.elim
  print _ _ _ _ _ hw := hw.elim
  call _ _ _ _ hc h := (h hc).1
  kinds _ _ _ _ _ hc h hk := (h hc).2 hk _ _ rfl
  operands args ts ys w r h hr := by
    obtain ⟨q, hq, hinto⟩ := hr
    have hitems := forking_operands h hq
    cases q with
    | stuck => exact hitems.elim
    | fault e w₁ =>
      obtain rfl := hinto
      exact hitems
    | value is w₁ => exact joinAll_forking hitems hinto

/-! ### The machine -/

/-- The globals of a context have the contents that the memory says. -/
def Contains (c : Context) (mem : Memory) (globals : Array Slot) : Prop :=
  ∀ (i : Nat) v, c.globals[i]? = some v → globals[i]? = some (mem.globals v.name).slot

theorem comes_overflow (f : FuncId) (args : List Datum) (w : Unit) :
    Comes free sync c calls defs mem f args w (.fault .stackOverflow w) :=
  fun _ => ⟨.inl rfl, fun _ v w' h => by cases h⟩

/-- The machine does what the meaning says. -/
theorem forking_describes :
    Describes (forking free sync c calls defs mem arity) fun w _ => Contains c mem w.globals where
  int := rfl
  bool := rfl
  float := rfl
  arith _ _ _ := .exact _
  negate _ := .exact _
  test _ _ _ := .exact _
  load w a g h hs := by
    have hg : Knows c g := Classical.byContradiction fun hg => hs fun hk => absurd hk hg
    obtain ⟨x, hx, hname⟩ := exists_of_knows hg
    refine ⟨mem.globals g.name, ?_, fun _ => rfl⟩
    rw [h _ x hx, hname]
  store _ _ _ _ _ hs := absurd trivial hs
  print _ _ _ _ _ hs := absurd trivial hs
  overflow f args w := comes_overflow f args w
  spawn f args a r h := by
    cases r with
    | value v w => exact ⟨(f, args), fun _ _ => .inl rfl, fun _ => h⟩
    | fault e w => exact fun _ _ => .inr ⟨e, rfl, h⟩
    | stuck => exact fun _ hc => (h hc).1.elim
  pool _ _ _ h := h

/-- What a call may come to, a task that makes it may deliver. -/
theorem forking_detachable {f : FuncId} {args : List Datum} {a : Unit}
    (h : ¬ (forking free sync c calls defs mem arity).spawn f args a .stuck) :
    Detachable (forking free sync c calls defs mem arity) f args a := by
  have hc : calls f := Classical.byContradiction fun hc => h fun _ hcalls => absurd hcalls hc
  exact ⟨(f, args), fun _ _ => .inl rfl, fun hs => (hs hc).1,
    fun v _ hv => ⟨v, rfl, fun _ => hv⟩, fun e _ he _ => he⟩

/-- The meaning is one for the code of a context. -/
theorem interprets_forking
    (hfree : c.settings.optimize = true → ∀ got, free (.lax (.typeMismatch got)))
    (hdefs : ∀ id cl, defs id = some cl → calls id → KeepAll calls False cl.names cl.body) :
    Interprets c defs (forkingSpec free (c.settings.spawn = true) c calls mem)
      (forking free (c.settings.spawn = true) c calls defs mem arity) where
  simulates _ := forking_simulates hdefs
  permissive := forking_permissive
  algebraic hopt := forking_algebraic (hfree hopt)
  known _ hg := hg
  spawns h := h
  kind id f hf := by
    show kindOf c id = .bool ↔ f.kind = .bool
    rw [kindOf_eq hf]
  keeps := hdefs

end

end ForkLisp.Reference
