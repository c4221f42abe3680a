/-
Terms.

A term is a form whose names have been resolved: parameters are numbered, globals and functions are
those that the names stand for, and a call that becomes a task is told apart from one that does not.

* `Term.emit` is the code of a term, which leaves its value in a register.
* `Term.Evals` is what a term can come to, in terms of what the operations of the
  machine can come to.
-/
import ForkLisp.Proofs.Behaviour.Meaning

namespace ForkLisp.Terms

open ForkLisp.Code ForkLisp.Machine ForkLisp.Behaviour ForkLisp.Numeric

/-- A form with its names resolved. -/
inductive Term where
  | int (value : Int64)
  | bool (value : Bool)
  | float (value : Binary64)
  | param (i : Nat)
  | global (g : Global)
  | call (f : FuncId) (args : List Term)
  /-- A call that becomes a task, as an operand. -/
  | task (f : FuncId) (args : List Term)
  | negate (t : Term)
  /-- The operands are combined from the left. -/
  | arith (op : ArithOp) (first : Term) (rest : List Term)
  /-- The second alternative is taken if the comparison of the two operands holds. -/
  | cond (skip : Comparison) (lhs rhs first second : Term)
  | assign (g : Global) (t : Term)
  /-- Prints a value as it is, or as a truth value. -/
  | print (truth : Bool) (t : Term)

/-- Whether an operand leaves a handle instead of a value. -/
def Term.isTask : Term → Bool
  | .task .. => true
  | _ => false

/-- How many registers an operand takes. -/
def Term.width (t : Term) : Nat := if t.isTask then 2 else 1

/-! ### Code -/

/-- The code that waits for the tasks among some operands. -/
def joinCode : List Term → Reg → List Inst
  | [], _ => []
  | t :: ts, r => (if t.isTask then [.join r] else []) ++ joinCode ts (r + t.width)

/-- The code that combines the register `dst` with some operands. -/
def foldCode (op : ArithOp) (dst : Reg) : List Term → Reg → List Inst
  | [], _ => []
  | t :: ts, r => .arith op dst r :: foldCode op dst ts (r + t.width)

mutual

/-- The code of a term, which leaves the value in `r`. That of a task leaves the handle there. -/
def Term.emit : Term → Reg → List Inst
  | .int value, r => [.intConst r value]
  | .bool value, r => [.boolConst r value]
  | .float value, r => [.floatConst r value]
  | .param i, r => [.move r i]
  | .global g, r => [.load r g]
  | .call f args, r => emitArguments args (r + 2) ++ [.call f (r + 2)]
  | .task f args, r => emitArguments args (r + 3) ++ [.spawn f (r + 3)]
  | .negate t, r => t.emit r ++ [.negate r]
  | .arith op first rest, r =>
    first.emit r ++ (emitOperands rest (r + first.width)
      ++ (joinCode (first :: rest) r ++ foldCode op r rest (r + first.width)))
  | .cond skip lhs rhs first second, r =>
    lhs.emit r ++ (rhs.emit (r + 1)
      ++ (.branch skip ((first.emit r).length + 2) r (r + 1) :: (first.emit r
        ++ (.jump ((second.emit r).length + 1) :: second.emit r))))
  | .assign g t, r => t.emit r ++ [.store r g]
  | .print truth t, r => t.emit r ++ [if truth then .printBool r else .print r]

/-- The code of arguments, whose values go to `r` and the registers above it. -/
def emitArguments : List Term → Reg → List Inst
  | [], _ => []
  | t :: ts, r => t.emit r ++ emitArguments ts (r + 1)

/-- The code of operands. -/
def emitOperands : List Term → Reg → List Inst
  | [], _ => []
  | t :: ts, r => t.emit r ++ emitOperands ts (r + t.width)

end

/-- The code of arithmetic is that of its operands and the code that combines these. -/
theorem Term.emit_arith (op : ArithOp) (first : Term) (rest : List Term) (r : Reg) :
    (Term.arith op first rest).emit r = emitOperands (first :: rest) r
      ++ (joinCode (first :: rest) r ++ foldCode op r rest (r + first.width)) := by
  rw [Term.emit, emitOperands, List.append_assoc]

/-- The code of terms one after the other, all of whose values go to `r`. -/
def emitSequence : List Term → Reg → List Inst
  | [], _ => []
  | t :: ts, r => t.emit r ++ emitSequence ts r

/-- The code of a body. -/
def bodyCode (ts : List Term) (r : Reg) : ForkLisp.Code :=
  List.toArray (emitSequence ts r ++ [.ret r, .stop])

/-! ### Terms that can run -/

mutual

/-- The parameters of a term are among the first `n`, its globals are known, calls pass as many
arguments as their callees take, and tasks are operands only. -/
def Term.Scoped (arity : FuncId → Option Nat) (known : Global → Prop) (n : Nat) : Term → Prop
  | .int _ | .bool _ | .float _ => True
  | .param i => i < n
  | .global g => known g
  | .call f args => arity f = some args.length ∧ AllScoped arity known n args
  | .task _ _ => False
  | .negate t => t.Scoped arity known n
  | .arith _ first rest =>
    (match first with
      | .task f args => arity f = some args.length ∧ AllScoped arity known n args
      | t => t.Scoped arity known n) ∧ OperandsScoped arity known n rest
  | .cond _ lhs rhs first second =>
    lhs.Scoped arity known n ∧ rhs.Scoped arity known n ∧ first.Scoped arity known n
      ∧ second.Scoped arity known n
  | .assign g t => known g ∧ t.Scoped arity known n
  | .print _ t => t.Scoped arity known n

def AllScoped (arity : FuncId → Option Nat) (known : Global → Prop) (n : Nat) : List Term → Prop
  | [] => True
  | t :: ts => t.Scoped arity known n ∧ AllScoped arity known n ts

def OperandsScoped (arity : FuncId → Option Nat) (known : Global → Prop) (n : Nat) :
    List Term → Prop
  | [] => True
  | .task f args :: ts =>
    (arity f = some args.length ∧ AllScoped arity known n args) ∧ OperandsScoped arity known n ts
  | t :: ts => t.Scoped arity known n ∧ OperandsScoped arity known n ts

end

/-- Whether an operand can run. -/
def Term.OperandScoped (arity : FuncId → Option Nat) (known : Global → Prop) (n : Nat) : Term → Prop
  | .task f args => arity f = some args.length ∧ AllScoped arity known n args
  | t => t.Scoped arity known n

theorem operandsScoped_cons {arity : FuncId → Option Nat} {known : Global → Prop} {n : Nat}
    {t : Term} {ts : List Term} : OperandsScoped arity known n (t :: ts) ↔
      t.OperandScoped arity known n ∧ OperandsScoped arity known n ts := by
  cases t <;> exact Iff.rfl

theorem Term.operandScoped_of_not_task {arity : FuncId → Option Nat} {known : Global → Prop}
    {n : Nat} {t : Term} (h : t.isTask = false) :
    t.OperandScoped arity known n ↔ t.Scoped arity known n := by
  cases t <;> first | exact Iff.rfl | exact absurd h (by simp [Term.isTask])

theorem scoped_arith {arity : FuncId → Option Nat} {known : Global → Prop} {n : Nat} {op : ArithOp}
    {first : Term} {rest : List Term} : (Term.arith op first rest).Scoped arity known n ↔
      OperandsScoped arity known n (first :: rest) := by
  cases first <;> exact Iff.rfl

section

variable {arity arity' : FuncId → Option Nat} {known known' : Global → Prop} {n : Nat}

mutual

/-- A term that can run can also run where more functions and globals are known. -/
theorem Term.Scoped.mono (ha : ∀ f k, arity f = some k → arity' f = some k)
    (hk : ∀ g, known g → known' g) : ∀ t : Term, t.Scoped arity known n → t.Scoped arity' known' n
  | .int _, _ | .bool _, _ | .float _, _ => trivial
  | .param _, h => h
  | .global g, h => hk g h
  | .call f args, h => ⟨ha f _ h.1, AllScoped.mono ha hk args h.2⟩
  | .task _ _, h => h.elim
  | .negate t, h => Term.Scoped.mono ha hk t h
  | .arith _ first rest, h => by
    obtain ⟨hfirst, hrest⟩ := operandsScoped_cons.mp (scoped_arith.mp h)
    exact scoped_arith.mpr (operandsScoped_cons.mpr
      ⟨Term.OperandScoped.mono ha hk first hfirst, OperandsScoped.mono ha hk rest hrest⟩)
  | .cond _ lhs rhs first second, h =>
    ⟨Term.Scoped.mono ha hk lhs h.1, Term.Scoped.mono ha hk rhs h.2.1,
      Term.Scoped.mono ha hk first h.2.2.1, Term.Scoped.mono ha hk second h.2.2.2⟩
  | .assign g t, h => ⟨hk g h.1, Term.Scoped.mono ha hk t h.2⟩
  | .print _ t, h => Term.Scoped.mono ha hk t h
termination_by t => (sizeOf t, 0)

theorem Term.OperandScoped.mono (ha : ∀ f k, arity f = some k → arity' f = some k)
    (hk : ∀ g, known g → known' g) (t : Term) (h : t.OperandScoped arity known n) :
    t.OperandScoped arity' known' n := by
  cases ht : t.isTask with
  | false =>
    rw [Term.operandScoped_of_not_task ht] at h ⊢
    exact Term.Scoped.mono ha hk t h
  | true =>
    match t, ht, h with
    | .task f args, _, h => exact ⟨ha f _ h.1, AllScoped.mono ha hk args h.2⟩
termination_by (sizeOf t, 1)

theorem AllScoped.mono (ha : ∀ f k, arity f = some k → arity' f = some k)
    (hk : ∀ g, known g → known' g) : ∀ ts : List Term, AllScoped arity known n ts →
    AllScoped arity' known' n ts
  | [], _ => trivial
  | t :: ts, h => ⟨Term.Scoped.mono ha hk t h.1, AllScoped.mono ha hk ts h.2⟩
termination_by ts => (sizeOf ts, 0)

theorem OperandsScoped.mono (ha : ∀ f k, arity f = some k → arity' f = some k)
    (hk : ∀ g, known g → known' g) : ∀ ts : List Term, OperandsScoped arity known n ts →
    OperandsScoped arity' known' n ts
  | [], _ => trivial
  | t :: ts, h => by
    obtain ⟨ht, hts⟩ := operandsScoped_cons.mp h
    exact operandsScoped_cons.mpr
      ⟨Term.OperandScoped.mono ha hk t ht, OperandsScoped.mono ha hk ts hts⟩
termination_by ts => (sizeOf ts, 0)

end

end

/-! ### Evaluation -/

section

variable {V H W : Type}

/-- The values of operands once all tasks have been joined, in order. -/
def joinAll (m : Meaning V H W) : List (V ⊕ H) → W → Ending (List V) W → Prop
  | [], w => (· = .value [] w)
  | .inl v :: is, w => andThen (joinAll m is w) fun vs w => (· = .value (v :: vs) w)
  | .inr h :: is, w => andThen (m.join h w) fun v w =>
    andThen (joinAll m is w) fun vs w => (· = .value (v :: vs) w)

/-- What combining a value with others from the left can come to. -/
def foldAll (m : Meaning V H W) (op : ArithOp) : V → List V → W → Ending V W → Prop
  | u, [], w => (· = .value u w)
  | u, v :: vs, w => fun o => ∃ a, m.arith op u v a ∧ orFault a w o fun x => foldAll m op x vs w o

/-- What combining values can come to. -/
def combineAll (m : Meaning V H W) (op : ArithOp) : List V → W → Ending V W → Prop
  | [], _ => fun _ => True
  | v :: vs, w => foldAll m op v vs w

variable (m : Meaning V H W) (args : List V)

mutual

/-- What a term can come to, where `args` are the values of the parameters. -/
def Term.Evals : Term → W → Ending V W → Prop
  | .int value, w => (· = .value (m.int value) w)
  | .bool value, w => (· = .value (m.bool value) w)
  | .float value, w => (· = .value (m.float value) w)
  | .param i, w => fun o => ∀ v, args[i]? = some v → o = .value v w
  | .global g, w => m.load g w
  | .call f ts, w => andThen (EvalsAll ts w) fun vs w => m.call f vs w
  | .task f ts, w => andThen (EvalsAll ts w) fun vs w => m.call f vs w
  | .negate t, w => andThen (t.Evals w) fun v w o =>
    ∃ a, m.negate v a ∧ orFault a w o fun x => o = .value x w
  | .arith op first rest, w =>
    andThen
      (andThen
        (match first with
          | .task f ts => andThen (EvalsAll ts w) fun vs w =>
            andThen (m.spawn f vs w) fun h w => (· = .value (.inr h) w)
          | t => andThen (t.Evals w) fun v w => (· = .value (.inl v) w)) fun i w =>
        andThen (EvalsOperands rest w) fun is w => (· = .value (i :: is) w)) fun is w =>
      andThen (joinAll m is w) fun vs w => combineAll m op vs w
  | .cond skip lhs rhs first second, w =>
    andThen (lhs.Evals w) fun u w => andThen (rhs.Evals w) fun v w o =>
      ∃ a, m.test skip u v a ∧
        orFault a w o fun b => if b then second.Evals w o else first.Evals w o
  | .assign g t, w => andThen (t.Evals w) fun v w =>
    andThen (m.store g v w) fun _ w => (· = .value v w)
  | .print truth t, w => andThen (t.Evals w) fun v w =>
    andThen (m.print truth v w) fun _ w => (· = .value v w)

/-- What arguments can come to. -/
def EvalsAll : List Term → W → Ending (List V) W → Prop
  | [], w => (· = .value [] w)
  | t :: ts, w => andThen (t.Evals w) fun v w =>
    andThen (EvalsAll ts w) fun vs w => (· = .value (v :: vs) w)

/-- What operands can come to: each a value, or the handle of a task. -/
def EvalsOperands : List Term → W → Ending (List (V ⊕ H)) W → Prop
  | [], w => (· = .value [] w)
  | t :: ts, w =>
    andThen
      (match t with
        | .task f ts => andThen (EvalsAll ts w) fun vs w =>
          andThen (m.spawn f vs w) fun h w => (· = .value (.inr h) w)
        | t => andThen (t.Evals w) fun v w => (· = .value (.inl v) w)) fun i w =>
      andThen (EvalsOperands ts w) fun is w => (· = .value (i :: is) w)

end

/-- What an operand can come to. -/
def Term.EvalsOperand : Term → W → Ending (V ⊕ H) W → Prop
  | .task f ts, w => andThen (EvalsAll m args ts w) fun vs w =>
    andThen (m.spawn f vs w) fun h w => (· = .value (.inr h) w)
  | t, w => andThen (t.Evals m args w) fun v w => (· = .value (.inl v) w)

/-- An operand that is no task comes to its value. -/
theorem Term.evalsOperand_of_not_task {t : Term} (h : t.isTask = false) (w : W) :
    t.EvalsOperand m args w = andThen (t.Evals m args w) fun v w => (· = .value (.inl v) w) := by
  cases t <;> first | rfl | exact absurd h (by simp [Term.isTask])

theorem evalsOperands_cons (t : Term) (ts : List Term) (w : W) :
    EvalsOperands m args (t :: ts) w = andThen (t.EvalsOperand m args w) fun i w =>
      andThen (EvalsOperands m args ts w) fun is w => (· = .value (i :: is) w) := by
  cases t <;> rfl

theorem evals_arith (op : ArithOp) (first : Term) (rest : List Term) (w : W) :
    (Term.arith op first rest).Evals m args w =
      andThen (EvalsOperands m args (first :: rest) w) fun is w =>
        andThen (joinAll m is w) fun vs w => combineAll m op vs w := by
  cases first <;> rfl

/-- What a body can come to: the value of its last term. -/
def EvalsBody : List Term → W → Ending V W → Prop
  | [], _ => fun _ => True
  | [t], w => andThen (t.Evals m args w) fun v w => (· = .value v w)
  | t :: ts, w => andThen (t.Evals m args w) fun _ w => EvalsBody ts w

end

end ForkLisp.Terms
