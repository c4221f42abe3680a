/-
The loosest meaning of compiled code.

Here a call comes to any value or fault at all, and so does waiting for a task; only the kind of the
value is kept to. Nothing is said about memories: globals hold some values, and lines do not count.
What this meaning still says is that code never meets something without meaning, whatever other
tasks do meanwhile (`loose_simulates`, `loose_describes`).
-/
import ForkLisp.Proofs.Compile.Linking
import ForkLisp.Proofs.Reference.Sequential

namespace ForkLisp.Reference

open ForkLisp.Code ForkLisp.Compile ForkLisp.Machine ForkLisp.Behaviour ForkLisp.Terms

/-- Every global of a context holds a value. -/
def HoldsData (c : Context) (globals : Array Slot) : Prop :=
  ∀ i, i < c.globals.size → ∃ v : Datum, globals[i]? = some v.slot

/-- A truth value if that is the kind. -/
def TruthHas (k : Kind) (v : Datum) : Prop := k = .bool → v.IsBool

section

variable (free : Failure → Prop) (sync : Prop) (c : Context) (has : Kind → Datum → Prop)
  (arity : FuncId → Option Nat)

/-- All that is asked of an ending is that there is one. -/
def looseSpec : Spec Unit where
  rel _ _ r := r ≠ .stuck
  tame _ := True
  calls _ := True
  writes := True
  spawns := sync
  known := Knows c
  kind := kindOf c

/-- The loosest meaning, in which the value of a call `has` the kind of the function. -/
def loose : Meaning Datum Unit Unit where
  int := .int
  bool := .bool
  float := .float
  arith op u v := Allows (fun e => free ⟨e, isStrict op v.slot⟩) (u.arith op v)
  negate v := Allows (free ∘ .lax) v.negate
  test c u v := Allows (free ∘ .lax) (u.compare c v)
  load g w r := Knows c g → ∃ v, r = .value v w
  store g _ w r := Knows c g → r = .value () w
  print _ _ _ r := r ≠ .stuck
  arity := arity
  call f _ _ r := r ≠ .stuck ∧ ∀ v w, r = .value v w → has (kindOf c f) v
  spawn _ _ _ r := sync → r ≠ .stuck
  join _ _ r := r ≠ .stuck

end

section

variable {free : Failure → Prop} {sync : Prop} {c : Context} {defs : FuncId → Option Closure}
  {has : Kind → Datum → Prop} {arity : FuncId → Option Nat}

theorem loose_calculates :
    Calculates Datum.operands free (loose free sync c has arity) :=
  ⟨rfl, rfl, rfl, rfl, rfl⟩

theorem loose_algebraic (hfree : ∀ got, free (.lax (.typeMismatch got))) :
    (loose free sync c has arity).Algebraic :=
  loose_calculates.algebraic hfree fun _ _ => ⟨.int 0, fun _ => ⟨_, rfl⟩⟩

theorem ofAnswer_ne_stuck {α W : Type} (a : Except Fault α) (w : W) :
    Ending.ofAnswer a w ≠ .stuck := by
  cases a with
  | error e => exact Ending.fault_ne_stuck e w
  | ok x => exact Ending.value_ne_stuck x w

/-- What follows an ending that has a meaning has one, if that is so of what uses the value. -/
theorem ne_stuck_of_into {α β W : Type} {r : Ending α W} {o : Ending β W} {use : α → W → Prop}
    (hr : r ≠ .stuck) (h : r.into o use) (huse : ∀ v w, use v w → o ≠ .stuck) : o ≠ .stuck := by
  cases r with
  | value v w => exact huse v w h
  | fault e w =>
    obtain rfl := h
    exact Ending.fault_ne_stuck e w
  | stuck => exact absurd rfl hr

/-- In a meaning nothing goes wrong with globals that are known, calls, lines and tasks. -/
structure Placid (sync : Prop) (c : Context) (has : Kind → Datum → Prop)
    (m : Meaning Datum Unit Unit) :
    Prop where
  int : m.int = Datum.int
  bool : m.bool = Datum.bool
  float : m.float = Datum.float
  load : ∀ {g w r}, m.load g w r → Knows c g → r ≠ .stuck
  store : ∀ {g v w r}, m.store g v w r → Knows c g → r ≠ .stuck
  print : ∀ {truth v w r}, m.print truth v w r → r ≠ .stuck
  call : ∀ {f args w r}, m.call f args w r → r ≠ .stuck ∧ ∀ v w, r = .value v w → has (kindOf c f) v
  spawn : ∀ {f args w r}, m.spawn f args w r → sync → r ≠ .stuck
  join : ∀ {h w r}, m.join h w r → r ≠ .stuck

section

variable {m : Meaning Datum Unit Unit}

/-- Nothing of this depends on arithmetic. -/
theorem Placid.withArithmetic (hm : Placid sync c has m)
    (arith : ArithOp → Datum → Datum → Except Fault Datum → Prop)
    (negate : Datum → Except Fault Datum → Prop)
    (test : Comparison → Datum → Datum → Except Fault Bool → Prop) :
    Placid sync c has { m with arith, negate, test } :=
  ⟨hm.int, hm.bool, hm.float, hm.load, hm.store, hm.print, hm.call, hm.spawn, hm.join⟩

/-- Waiting for tasks has a meaning. -/
theorem Placid.joinAll (hm : Placid sync c has m) {is : List (Datum ⊕ Unit)} {w : Unit}
    {o : Ending (List Datum) Unit} (h : Terms.joinAll m is w o) : o ≠ .stuck := by
  induction is generalizing w o with
  | nil =>
    obtain rfl : o = _ := h
    exact Ending.value_ne_stuck _ _
  | cons i is ih =>
    have hrest : ∀ {v : Datum} {w : Unit}, andThen (Terms.joinAll m is w)
        (fun vs w => (· = .value (v :: vs) w)) o → o ≠ .stuck := by
      rintro v w ⟨r, hr, hinto⟩
      refine ne_stuck_of_into (ih hr) hinto fun vs w ho => ?_
      rw [ho]
      exact Ending.value_ne_stuck _ _
    cases i with
    | inl v => exact hrest h
    | inr p =>
      obtain ⟨r, hr, hinto⟩ := h
      exact ne_stuck_of_into (hm.join hr) hinto fun v w => hrest

/-- An operand has a meaning, whether it became a task or not. -/
theorem Placid.operand (hm : Placid sync c has m) {args : List Datum} {t : Term} {y : Eval Datum}
    {w : Unit} {o : Ending (Datum ⊕ Unit) Unit} (h : Serves (looseSpec sync c) defs m args t y)
    (ho : t.EvalsOperand m args w o) : o ≠ .stuck := by
  have hvalue : ∀ {i : Datum ⊕ Unit} {w : Unit}, o = .value i w → o ≠ .stuck := by
    rintro i w rfl ho
    cases ho
  cases h with
  | task _ hs _ hx =>
    obtain ⟨r, hr, hinto⟩ := ho
    refine ne_stuck_of_into (hx w r hr) hinto fun vs w hvs => ?_
    obtain ⟨r', hr', hinto'⟩ := hvs
    exact ne_stuck_of_into (hm.spawn hr' hs) hinto' fun _ _ => hvalue
  | value hn hy =>
    rw [Term.evalsOperand_of_not_task _ _ hn] at ho
    obtain ⟨r, hr, hinto⟩ := ho
    exact ne_stuck_of_into (hy w r hr) hinto fun _ _ => hvalue

theorem Placid.operands (hm : Placid sync c has m) {args : List Datum} {ts : List Term}
    {ys : List (Eval Datum)} {w : Unit} {o : Ending (List (Datum ⊕ Unit)) Unit}
    (h : ServeAll (looseSpec sync c) defs m args ts ys) (ho : EvalsOperands m args ts w o) :
    o ≠ .stuck := by
  induction h generalizing w o with
  | nil =>
    unfold EvalsOperands at ho
    rw [ho]
    exact Ending.value_ne_stuck _ _
  | cons _ ht _ ih =>
    rw [evalsOperands_cons] at ho
    obtain ⟨r, hr, hinto⟩ := ho
    refine ne_stuck_of_into (hm.operand ht hr) hinto fun i w hi => ?_
    obtain ⟨r', hr', hinto'⟩ := hi
    refine ne_stuck_of_into (ih hr') hinto' fun is w his => ?_
    rw [his]
    exact Ending.value_ne_stuck _ _

/-- Such a meaning respects the evaluator, in that both go on. -/
theorem Placid.simulates (hm : Placid sync c has m) (hbool : ∀ v, has .bool v → v.IsBool) :
    Simulates (looseSpec sync c) defs m where
  int := hm.int
  bool := hm.bool
  float := hm.float
  pure := Ending.value_ne_stuck
  not_stuck _ _ h := h rfl
  bind _ hr ho := ne_stuck_of_into hr ho fun _ _ h => h
  tame_pure _ := trivial
  tame_bind _ _ := trivial
  tame_answer _ _ := trivial
  tame_evaluate _ _ _ _ := trivial
  arith _ _ _ _ w _ := ofAnswer_ne_stuck _ w
  negate _ _ w _ := ofAnswer_ne_stuck _ w
  test _ _ _ _ w _ := ofAnswer_ne_stuck _ w
  load _ _ _ hg h := hm.load h hg
  store g v w r o _ hg h ho := ne_stuck_of_into (hm.store h hg) ho fun _ _ ho => by
    rw [ho]
    exact Ending.value_ne_stuck _ _
  print truth v w r o _ _ h ho := ne_stuck_of_into (hm.print h) ho fun _ _ ho => by
    rw [ho]
    exact Ending.value_ne_stuck _ _
  call _ _ _ _ _ h := (hm.call h).1
  kinds f args w v w' _ h hk := hbool v (hk ▸ (hm.call h).2 v w' rfl)
  operands args ts ys w r h hr := by
    obtain ⟨q, hq, hinto⟩ := hr
    exact ne_stuck_of_into (hm.operands h hq) hinto fun _ _ => hm.joinAll

end

theorem loose_placid : Placid sync c has (loose free sync c has arity) where
  int := rfl
  bool := rfl
  float := rfl
  load h hg := by
    obtain ⟨v, rfl⟩ := h hg
    exact Ending.value_ne_stuck _ _
  store h hg := by
    obtain rfl := h hg
    exact Ending.value_ne_stuck _ _
  print h := h
  call h := h
  spawn h := h
  join h := h

/-- The loosest meaning respects the evaluator, in that both go on. -/
theorem loose_simulates (hbool : ∀ v, has .bool v → v.IsBool) :
    Simulates (looseSpec sync c) defs (loose free sync c has arity) :=
  loose_placid.simulates hbool

/-- Values stay in the globals when one of them is assigned. -/
theorem HoldsData.set {globals : Array Slot} (h : HoldsData c globals) (i : Nat) (v : Datum) :
    HoldsData c (globals.setIfInBounds i v.slot) := by
  intro j hj
  obtain ⟨x, hx⟩ := h j hj
  by_cases hij : i = j
  · subst hij
    exact ⟨v, Array.getElem?_setIfInBounds_self_of_lt (Array.getElem?_eq_some_iff.mp hx).1⟩
  · exact ⟨x, (Array.getElem?_setIfInBounds_ne hij).trans hx⟩

theorem lt_of_knows {g : Global} (h : Knows c g) : g.index < c.globals.size := by
  obtain ⟨x, hx, -⟩ := exists_of_knows h
  exact (Array.getElem?_eq_some_iff.mp hx).1

/-- The machine does what the loosest meaning says, as long as globals hold values. -/
theorem loose_describes :
    Describes (loose free sync c has arity) fun w _ => HoldsData c w.globals where
  int := rfl
  bool := rfl
  float := rfl
  arith _ _ _ := .exact _
  negate _ := .exact _
  test _ _ _ := .exact _
  load w a g h hs := by
    have hg : Knows c g := Classical.byContradiction fun hg => hs fun hk => absurd hk hg
    obtain ⟨x, hx⟩ := h _ (lt_of_knows hg)
    exact ⟨x, hx, fun _ => ⟨x, rfl⟩⟩
  store w a g v h _ := ⟨a, fun _ => rfl, h.set g.index v⟩
  print w a truth v h _ := by
    cases v.slot.line truth with
    | error e => exact Ending.fault_ne_stuck e a
    | ok line => exact ⟨a, Ending.value_ne_stuck _ a, h⟩
  overflow f args a := ⟨Ending.fault_ne_stuck _ a, by rintro v w ⟨⟩⟩
  spawn f args a r h := by
    cases r with
    | value v b => exact ⟨(), fun _ => Ending.value_ne_stuck _ b, fun b =>
        Ending.value_ne_stuck v b⟩
    | fault e b => exact fun _ => Ending.fault_ne_stuck e b
    | stuck => exact absurd rfl h.1
  pool _ _ _ h := h

/-- What a call by itself may come to, waiting for a task may. -/
theorem loose_detachable (n : FuncId) (args : List Datum) (a : Unit) :
    Detachable (loose free sync c has arity) n args a :=
  ⟨(), fun _ => Ending.value_ne_stuck _ a, fun h => h.1 rfl,
    fun v _ _ => ⟨v, rfl, fun b => Ending.value_ne_stuck v b⟩,
    fun e _ _ => fun b => Ending.fault_ne_stuck e b⟩

/-- The loosest meaning is one for the code of a context, where only truth values need be kept
to. -/
theorem interprets_loose (defs : FuncId → Option Closure)
    (hfree : c.settings.optimize = true → ∀ got, free (.lax (.typeMismatch got))) :
    Interprets c defs (looseSpec (c.settings.spawn = true) c)
      (loose free (c.settings.spawn = true) c TruthHas arity) where
  simulates arity' := @loose_simulates free _ c defs TruthHas arity' fun _ h => h rfl
  permissive f args w r h :=
    have hagrees := h trivial
    ⟨hagrees.1, fun v w hr hk => hagrees.2 hk v w hr⟩
  algebraic hopt := loose_algebraic (hfree hopt)
  known _ hg := hg
  spawns h := h
  kind id f hf := by
    show kindOf c id = .bool ↔ f.kind = .bool
    rw [kindOf_eq hf]
  keeps _ cl _ _ := keepAll_of_forall cl.names (fun _ => trivial) trivial cl.body

end

end ForkLisp.Reference
