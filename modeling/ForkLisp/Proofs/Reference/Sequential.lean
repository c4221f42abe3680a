/-
The meaning of programs that start no tasks.

Worlds are memories, and a call may come to what the evaluator makes of it (`Permits`), or to an
overflow of the stack. A task, if it has a meaning at all, is a call that is made at once: its
handle is the result. This meaning fits the evaluator (`sequential_simulates`) and the machine
(`sequential_describes`). What a task does to globals and prints shows in the memory, one thing
after the other (`shows_of_undergoes`).
-/
import Mathlib.Data.List.Forall2
import ForkLisp.Proofs.Machine.Conduct
import ForkLisp.Proofs.Reference.Arithmetic
import ForkLisp.Proofs.Reference.Simulation
import ForkLisp.Proofs.Terms.Generated

namespace ForkLisp.Reference

open ForkLisp.Code ForkLisp.Compile ForkLisp.Machine ForkLisp.Behaviour ForkLisp.Terms

variable {α β : Type}

/-! ### Endings of computations -/

/-- An ending that code for a computation may have: that of the computation, an overflow of the
stack, or anything that has a meaning if the computation fails with a free fault. -/
inductive Permits (free : Failure → Prop) (x : Eval α) (w : Memory) : Ending α Memory → Prop where
  | value {v : α} {w' : Memory} (h : x w = some (.ok v, w')) : Permits free x w (.value v w')
  | fault {e : Failure} {w' : Memory} (h : x w = some (.error e, w')) :
    Permits free x w (.fault e.fault w')
  | overflow {w' : Memory} : Permits free x w (.fault .stackOverflow w')
  | free {e : Failure} {w' : Memory} {r : Ending α Memory} (h : x w = some (.error e, w'))
      (he : free e) (hr : r ≠ .stuck) : Permits free x w r

namespace Eval

variable {x : Eval α} {f : α → Eval β} {w w' : Memory}

theorem bind_ok {v : α} (h : x w = some (.ok v, w')) : (x >>= f) w = f v w' := by
  show (x w).bind _ = _
  rw [h]
  rfl

theorem bind_error {e : Failure} (h : x w = some (.error e, w')) :
    (x >>= f) w = some (.error e, w') := by
  show (x w).bind _ = _
  rw [h]
  rfl

theorem bind_none (h : x w = none) : (x >>= f) w = none := by
  show (x w).bind _ = _
  rw [h]
  rfl

end Eval

namespace Permits

variable {free : Failure → Prop} {x : Eval α} {f : α → Eval β} {w : Memory}

theorem not_stuck : ¬ Permits free x w .stuck := by
  intro h
  cases h with
  | free _ _ hr => exact hr rfl

/-- Where the computation has a value, nothing else is permitted but an overflow. -/
theorem of_ok {r : Ending α Memory} {v : α} {w' : Memory} (h : Permits free x w r)
    (hx : x w = some (.ok v, w')) : r = .value v w' ∨ ∃ w'', r = .fault .stackOverflow w'' := by
  cases h with
  | value h =>
    cases h.symm.trans hx
    exact .inl rfl
  | fault h | free h => cases h.symm.trans hx
  | overflow => exact .inr ⟨_, rfl⟩

/-- Where it fails, and is not free to do otherwise, nothing else is permitted either. -/
theorem of_error {r : Ending α Memory} {e : Failure} {w' : Memory} (h : Permits free x w r)
    (hx : x w = some (.error e, w')) (he : ¬ free e) :
    r = .fault e.fault w' ∨ ∃ w'', r = .fault .stackOverflow w'' := by
  cases h with
  | value h => cases h.symm.trans hx
  | fault h =>
    cases h.symm.trans hx
    exact .inl rfl
  | overflow => exact .inr ⟨_, rfl⟩
  | free h hfree =>
    cases h.symm.trans hx
    exact absurd hfree he

/-- If no failure is free, a value is the one that the computation has. -/
theorem exact_value {v : α} {w' : Memory} (h : Permits (fun _ => False) x w (.value v w')) :
    x w = some (.ok v, w') := by
  cases h with
  | value h => exact h
  | free _ he => exact he.elim

theorem exact_fault {e : Fault} {w' : Memory} (h : Permits (fun _ => False) x w (.fault e w')) :
    e = .stackOverflow ∨ ∃ strict, x w = some (.error ⟨e, strict⟩, w') := by
  cases h with
  | fault h => exact .inr ⟨_, h⟩
  | overflow => exact .inl rfl
  | free _ he => exact he.elim

/-- A computation and what follows it. -/
theorem bind {r : Ending α Memory} {o : Ending β Memory} (h : Permits free x w r)
    (ho : r.into o fun v w => Permits free (f v) w o) : Permits free (x >>= f) w o := by
  have hstuck : ∀ {e w'}, x w = some (.error e, w') → free e → Permits free (x >>= f) w o := by
    intro e w' hx he
    refine .free (Eval.bind_error hx) he ?_
    rintro rfl
    cases r with
    | value v w₁ => exact not_stuck ho
    | fault e₁ w₁ => exact absurd ho (by simp [Ending.into])
    | stuck => exact not_stuck h
  cases h with
  | value hx =>
    cases ho with
    | value hf => exact .value ((Eval.bind_ok hx).trans hf)
    | fault hf => exact .fault ((Eval.bind_ok hx).trans hf)
    | overflow => exact .overflow
    | free hf he hr => exact .free ((Eval.bind_ok hx).trans hf) he hr
  | fault hx =>
    obtain rfl := ho
    exact .fault (Eval.bind_error hx)
  | overflow =>
    obtain rfl := ho
    exact .overflow
  | free hx he _ => exact hstuck hx he

theorem answer {strict : Bool} {a b : Except Fault α} (h : Allows (fun e => free ⟨e, strict⟩) a b)
    (w : Memory) : Permits free (answer strict a) w (.ofAnswer b w) := by
  rcases h with rfl | ⟨e, rfl, he⟩
  · cases b with
    | ok v => exact .value rfl
    | error e => exact .fault (e := ⟨e, strict⟩) rfl
  · refine .free (e := ⟨e, strict⟩) rfl he ?_
    cases b <;> exact fun h => by cases h

end Permits

/-! ### The meaning -/

/-- The kind of what a function returns. -/
def kindOf (c : Context) (f : FuncId) : Kind := ((c.function? f).map (·.kind)).getD .any

theorem kindOf_eq {c : Context} {id : FuncId} {f : Function} (hf : c.function? id = some f) :
    kindOf c id = f.kind := by
  unfold kindOf
  rw [hf]
  rfl

section

variable (free : Failure → Prop) (sync : Prop) (c : Context) (defs : FuncId → Option Closure)
  (arity : FuncId → Option Nat)

/-- What code is meant for that starts no tasks; `sync` tells whether starting one has a meaning. -/
def sequentialSpec : Spec Memory where
  rel := Permits free
  tame _ := True
  calls _ := True
  writes := True
  spawns := sync
  known := Knows c
  kind := kindOf c

/-- The meaning of code that starts no tasks. -/
def sequential : Meaning Datum Datum Memory where
  int := .int
  bool := .bool
  float := .float
  arith op u v := Allows (fun e => free ⟨e, isStrict op v.slot⟩) (u.arith op v)
  negate v := Allows (free ∘ .lax) v.negate
  test c u v := Allows (free ∘ .lax) (u.compare c v)
  load g w r := Knows c g → r = .value (w.globals g.name) w
  store g v w r := Knows c g → r = .value () (w.assign g.name v)
  print truth v w r := r =
    match v.slot.line truth with
    | .ok line => .value () (w.print line)
    | .error e => .fault e w
  arity := arity
  call f args := Agrees (sequentialSpec free sync c) (kindOf c f) (evaluateCall defs f args)
  spawn f args w r := sync →
    Agrees (sequentialSpec free sync c) (kindOf c f) (evaluateCall defs f args) w r
  join v w r := r = .value v w

end

section

variable {free : Failure → Prop} {sync : Prop} {c : Context} {defs : FuncId → Option Closure}
  {arity : FuncId → Option Nat}

local instance : LawfulMonad Eval := inferInstance

theorem sequential_calculates :
    Calculates Datum.operands free (sequential free sync c defs arity) :=
  ⟨rfl, rfl, rfl, rfl, rfl⟩

theorem sequential_algebraic (hfree : ∀ got, free (.lax (.typeMismatch got))) :
    (sequential free sync c defs arity).Algebraic :=
  sequential_calculates.algebraic hfree fun g w => ⟨w.globals g.name, fun _ => rfl⟩

theorem sequential_permissive :
    Permissive (sequentialSpec free sync c) defs (sequential free sync c defs arity) :=
  fun _ _ _ _ h => h trivial

/-- The line of a value does not depend on how it is printed, if truth values are
printed as such. -/
theorem line_eq_printed {truth : Bool} {v : Datum} (h : truth = true → v.IsBool) :
    v.slot.line truth = v.slot.printed := by
  cases truth with
  | false => rfl
  | true =>
    obtain ⟨b, rfl⟩ := h rfl
    cases b <;> rfl

/-! ### Operands -/

theorem joinAll_sequential {is : List (Datum ⊕ Datum)} {w : Memory} {o : Ending (List Datum) Memory}
    (h : joinAll (sequential free sync c defs arity) is w o) :
    o = .value (is.map (Sum.elim id id)) w := by
  induction is generalizing o with
  | nil => exact h
  | cons i is ih =>
    cases i with
    | inl v =>
      obtain ⟨r, hr, hinto⟩ := h
      obtain rfl := ih hr
      exact hinto
    | inr v =>
      obtain ⟨r, rfl, r', hr', hinto⟩ := h
      obtain rfl := ih hr'
      exact hinto

/-- An operand comes to the value of its computation, whether it became a task or not. -/
theorem sequential_operand {args : List Datum} {t : Term} {y : Eval Datum} {k : Datum → Eval β}
    {w : Memory} {o : Ending β Memory}
    (h : Serves (sequentialSpec free sync c) defs (sequential free sync c defs arity) args t y)
    (ho : Followed o (fun i w => Permits free (k (Sum.elim id id i)) w o)
      (t.EvalsOperand (sequential free sync c defs arity) args w)) :
    Permits free (y >>= k) w o := by
  cases h with
  | task _ hs _ hx =>
    rw [bind_assoc]
    obtain ⟨r, hr, hinto⟩ := ho.of_andThen
    refine (hx w r hr).bind (Ending.into_mono (fun vs w₁ _ hvs => ?_) hinto)
    obtain ⟨r', hr', hinto'⟩ := hvs.of_andThen
    exact (hr' hs).1.bind (Ending.into_mono (fun v w₂ _ hv => hv.of_eq_value) hinto')
  | value hn hy =>
    rw [Term.evalsOperand_of_not_task _ _ hn] at ho
    obtain ⟨r, hr, hinto⟩ := ho.of_andThen
    exact (hy w r hr).bind (Ending.into_mono (fun v w₁ _ hv => hv.of_eq_value) hinto)

/-- Operands come to the values of their computations. -/
theorem sequential_operands {args : List Datum} {ts : List Term} {ys : List (Eval Datum)}
    {k : List Datum → Eval β} {w : Memory} {o : Ending β Memory}
    (h : ServeAll (sequentialSpec free sync c) defs (sequential free sync c defs arity) args ts ys)
    (ho : Followed o (fun is w => Permits free (k (is.map (Sum.elim id id))) w o)
      (EvalsOperands (sequential free sync c defs arity) args ts w)) :
    Permits free (collect ys >>= k) w o := by
  induction h generalizing k w with
  | nil => exact ho.of_eq_value
  | @cons t y ts ys _ ht _ ih =>
    rw [evalsOperands_cons] at ho
    have hcollect : (collect (y :: ys) >>= k) =
        y >>= fun v => collect ys >>= fun vs => k (v :: vs) := by
      simp only [collect, bind_assoc, pure_bind]
    rw [hcollect]
    refine sequential_operand ht (ho.of_andThen.before fun i w₁ hi => ?_)
    exact ih (hi.of_andThen.before fun is w₂ his => his.of_eq_value)

/-- The meaning fits the evaluator. -/
theorem sequential_simulates :
    Simulates (sequentialSpec free sync c) defs (sequential free sync c defs arity) where
  int := rfl
  bool := rfl
  float := rfl
  pure _ _ := .value rfl
  not_stuck _ _ := Permits.not_stuck
  bind _ hr ho := hr.bind ho
  tame_pure _ := trivial
  tame_bind _ _ := trivial
  tame_answer _ _ := trivial
  tame_evaluate _ _ _ _ := trivial
  arith _ _ _ _ w h := Permits.answer h w
  negate _ _ w h := Permits.answer h w
  test _ _ _ _ w h := Permits.answer h w
  load g w r hg h := by
    rw [h hg]
    exact .value rfl
  store g v w r o _ hg h ho := by
    obtain rfl := h hg
    obtain rfl := ho
    exact .value rfl
  print truth v w r o _ ht h ho := by
    have hr : r = match v.slot.line truth with
      | .ok line => .value () (w.print line)
      | .error e => .fault e w := h
    rw [line_eq_printed ht] at hr
    subst hr
    cases hline : v.slot.printed with
    | error e =>
      rw [hline] at ho
      obtain rfl := ho
      exact .fault (e := .lax e) rfl
    | ok line =>
      rw [hline] at ho
      obtain rfl := ho
      exact .value rfl
  call _ _ _ _ _ h := h.1
  kinds _ _ _ _ _ _ h hk := h.2 hk _ _ rfl
  operands args ts ys w r h hr := by
    obtain ⟨q, hq, hinto⟩ := hr
    -- there is nothing to join: the operands were evaluated one after another
    have hbind := sequential_operands (k := Pure.pure) h
      ⟨q, hq, Ending.into_mono (o := r) (fun is w₁ _ his => ?_) hinto⟩
    · rwa [bind_pure] at hbind
    · obtain rfl := joinAll_sequential his
      exact .value rfl

/-! ### The machine -/

/-- A memory says what the globals hold and what was printed. -/
structure Mirrors (c : Context) (w : World) (mem : Memory) : Prop where
  globals : ∀ (i : Nat) v, c.globals[i]? = some v → w.globals[i]? = some (mem.globals v.name).slot
  printed : w.printed.toList = mem.printed

theorem exists_of_knows {g : Global} (h : Knows c g) :
    ∃ v, c.globals[g.index]? = some v ∧ v.name = g.name :=
  Option.map_eq_some_iff.mp h

theorem Mirrors.assign (hc : DistinctGlobals c) {w : World} {mem : Memory} (h : Mirrors c w mem)
    {g : Global} (hg : Knows c g) (v : Datum) :
    Mirrors c { w with globals := w.globals.setIfInBounds g.index v.slot }
      (mem.assign g.name v) := by
  refine ⟨fun i u hu => ?_, h.printed.trans (Memory.printed_assign mem g.name v).symm⟩
  obtain ⟨x, hx, hname⟩ := exists_of_knows hg
  have hlt : g.index < w.globals.size := (Array.getElem?_eq_some_iff.mp (h.globals _ x hx)).1
  by_cases hi : i = g.index
  · subst hi
    obtain rfl := Option.some.inj (hx.symm.trans hu)
    rw [Array.getElem?_setIfInBounds_self_of_lt hlt, hname, Memory.assign_self]
  · have hne : u.name ≠ g.name := fun hn => hi (hc i g.index u x hu hx (hn.trans hname.symm))
    rw [Array.getElem?_setIfInBounds_ne (Ne.symm hi), h.globals i u hu, Memory.assign_of_ne _ _ hne]

/-- The machine does what the meaning says. -/
theorem sequential_describes (hc : DistinctGlobals c) :
    Describes (sequential free sync c defs arity) (Mirrors c) where
  int := rfl
  bool := rfl
  float := rfl
  arith _ _ _ := .exact _
  negate _ := .exact _
  test _ _ _ := .exact _
  load w mem g h hs := by
    have hg : Knows c g := Classical.byContradiction fun hg => hs fun hk => absurd hk hg
    obtain ⟨x, hx, hname⟩ := exists_of_knows hg
    refine ⟨mem.globals g.name, ?_, fun _ => rfl⟩
    rw [h.globals _ x hx, hname]
  store w mem g v h hs := by
    have hg : Knows c g := Classical.byContradiction fun hg => hs fun hk => absurd hk hg
    exact ⟨_, fun _ => rfl, h.assign hc hg v⟩
  print w mem truth v h _ := by
    cases hline : v.slot.line truth with
    | error e =>
      show _ = _
      rw [hline]
    | ok line =>
      refine ⟨mem.print line, ?_, h.globals, ?_⟩
      · show _ = _
        rw [hline]
      · rw [Array.toList_push, h.printed, Memory.printed_print]
  overflow f args mem := ⟨.overflow, fun _ v w' h => by cases h⟩
  spawn f args mem r h := by
    cases r with
    | value v w => exact ⟨v, fun _ => h, fun b => rfl⟩
    | fault e w => exact fun _ => h
    | stuck => exact absurd h.1 Permits.not_stuck
  pool _ _ _ h := ⟨h.globals, h.printed⟩

/-! ### Effects -/

/-- What a task does shows as something that is done to a memory. -/
inductive Shows (c : Context) : Effect → Action → Prop where
  | assign {g : Global} (hg : Knows c g) (v : Datum) : Shows c (.assign g v.slot) (.assign g.name v)
  | print (line : String) : Shows c (.print line) (.print line)

/-- The effects of a task are done to the memory, one after the other. -/
theorem shows_of_undergoes {es : List Effect} {mem mem' : Memory}
    (h : Undergoes (sequential free sync c defs arity) es mem mem') :
    ∃ as, mem'.actions = mem.actions ++ as ∧ List.Forall₂ (Shows c) es as := by
  induction h with
  | nil => exact ⟨[], (List.append_nil _).symm, .nil⟩
  | @assign g v mem next last es hs h _ ih =>
    have hg : Knows c g := Classical.byContradiction fun hg => hs fun hk => absurd hk hg
    obtain rfl : next = mem.assign g.name v := (Ending.value.inj (h hg)).2
    obtain ⟨as, hactions, has⟩ := ih
    exact ⟨.assign g.name v :: as, by simpa [Memory.assign] using hactions,
      .cons (.assign hg v) has⟩
  | @print truth v line mem next last es hline h _ ih =>
    obtain rfl : next = mem.print line := by
      have h : Ending.value () next = _ := h
      rw [hline] at h
      exact (Ending.value.inj h).2
    obtain ⟨as, hactions, has⟩ := ih
    exact ⟨.print line :: as, by simpa [Memory.print] using hactions, .cons (.print line) has⟩

/-- Where the globals have the same names, the same actions come of the same effects. -/
theorem Shows.unique {c' : Context} (hc : DistinctGlobals c)
    (hn : c'.globals.map (·.name) = c.globals.map (·.name)) {e e' : Effect} {action : Action}
    (h : Shows c e action) (h' : Shows c' e' action) : e' = e := by
  cases h with
  | @assign g hg v =>
    generalize ha : Action.assign g.name v = x at h'
    cases h' with
    | @assign g' hg' v' =>
      obtain ⟨hname, rfl⟩ := Action.assign.inj ha
      obtain ⟨x, hx, hxname⟩ := exists_of_knows hg
      have hknows : (c.globals[g'.index]?).map (·.name) = some g'.name := by
        rw [← Array.getElem?_map, ← hn, Array.getElem?_map]
        exact hg'
      obtain ⟨y, hy, hyname⟩ := Option.map_eq_some_iff.mp hknows
      have hindex := hc _ _ _ _ hy hx (hyname.trans (hname.symm.trans hxname.symm))
      cases g
      cases g'
      cases hindex
      cases hname
      rfl
    | print => cases ha
  | print line =>
    cases h' with
    | print => rfl

theorem shows_unique {c' : Context} (hc : DistinctGlobals c)
    (hn : c'.globals.map (·.name) = c.globals.map (·.name)) {es es' : List Effect}
    {as : List Action} (h : List.Forall₂ (Shows c) es as) (h' : List.Forall₂ (Shows c') es' as) :
    es' = es := by
  induction h generalizing es' with
  | nil =>
    cases h'
    rfl
  | cons ha _ ih =>
    cases h' with
    | cons ha' h' => rw [ha.unique hc hn ha', ih h']

end

end ForkLisp.Reference
