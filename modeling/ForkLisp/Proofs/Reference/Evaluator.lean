/-
The reference evaluator.

Forms are evaluated by recursion on what they say, without registers, frames or jumps. A function is
a closure: its parameters and its body, with what function names were bound to when it was defined.
Parameters are looked up in an environment, globals by their names. A failure tells whether the
operation that failed is one that optimized code carries out, too (`isStrict`).

The evaluator is meant for forms that compile; any other form has no value. It has no value either
where recursion does not end.
-/
import ForkLisp.Compile.Generate

namespace ForkLisp.Reference

open ForkLisp.Code ForkLisp.Compile ForkLisp.Machine ForkLisp.Numeric ForkLisp.Reader

/-- A value of the language. -/
inductive Datum where
  | int (value : Int64)
  | bool (value : Bool)
  | float (value : Binary64)
  deriving DecidableEq

namespace Datum

/-- The slot that holds a value. -/
def slot : Datum → Slot
  | int n => .int n
  | bool b => .bool b
  | float x => .float x

/-- An operator on two values: the left one must be a number, then the right one. -/
def arith (op : ArithOp) (u v : Datum) : Except Fault Datum := do
  let a ← u.slot.int64
  let b ← v.slot.int64
  match op.result? a b with
  | some n => .ok (int n)
  | none => .error .zeroDivision

/-- The negative of a number. -/
def negate (v : Datum) : Except Fault Datum :=
  v.slot.int64.map fun n => int (-n)

/-- A comparison of two values, for which truth values are one and zero. -/
def compare (c : Comparison) (u v : Datum) : Except Fault Bool := do
  let a ← u.slot.integral
  let b ← v.slot.integral
  .ok (c.holds a b)

/-- Whether a value counts as true. -/
def isTrue (v : Datum) : Except Fault Bool :=
  v.slot.integral.map (· != 0)

end Datum

/-- Whether an operator is carried out even where nobody uses its value, given its right operand. So
is every remainder, and every division but one by one, which comes to its left operand. -/
def isStrict : ArithOp → Slot → Bool
  | .add, _ | .sub, _ | .mul, _ => false
  | .div, v => v ≠ .int 1
  | .mod, _ => true

/-- Why a computation fails. -/
structure Failure where
  fault : Fault
  /-- Whether the operation that failed is strict. -/
  strict : Bool

/-- The failure of an operation that is not strict. -/
def Failure.lax (e : Fault) : Failure := ⟨e, false⟩

/-- A function as it was defined. -/
structure Closure where
  params : List String
  body : List Form
  /-- What function names are bound to in the body. -/
  names : Bindings FuncId

/-- Something that is done to globals or printed. -/
inductive Action where
  | assign (name : String) (value : Datum)
  | print (line : String)

/-- The line that is printed, if one is. -/
def Action.line? : Action → Option String
  | assign .. => none
  | print line => some line

/-- The globals, and what was done so far. -/
structure Memory where
  globals : String → Datum
  actions : List Action

namespace Memory

/-- The lines printed so far. -/
def printed (mem : Memory) : List String := mem.actions.filterMap Action.line?

/-- The memory after an assignment. -/
def assign (mem : Memory) (name : String) (v : Datum) : Memory where
  globals other := if other = name then v else mem.globals other
  actions := mem.actions ++ [.assign name v]

theorem assign_self (mem : Memory) (name : String) (v : Datum) :
    (mem.assign name v).globals name = v := if_pos rfl

theorem assign_of_ne (mem : Memory) {name other : String} (v : Datum) (h : other ≠ name) :
    (mem.assign name v).globals other = mem.globals other := if_neg h

/-- The memory after a line was printed. -/
def print (mem : Memory) (line : String) : Memory :=
  { mem with actions := mem.actions ++ [.print line] }

@[simp] theorem printed_assign (mem : Memory) (name : String) (v : Datum) :
    (mem.assign name v).printed = mem.printed := by
  simp [printed, assign, Action.line?]

@[simp] theorem printed_print (mem : Memory) (line : String) :
    (mem.print line).printed = mem.printed ++ [line] := by
  simp [printed, print, Action.line?]

end Memory

/-- A computation that may fault, works on a memory, and need not come to an end. -/
abbrev Eval := ExceptT Failure (StateT Memory Option)

/-- The answer of an operation, which leaves the memory alone. -/
def answer {α : Type} (strict : Bool) (a : Except Fault α) : Eval α :=
  fun mem => some (a.mapError (⟨·, strict⟩), mem)

/-- An operator on two values. -/
def operate (op : ArithOp) (u v : Datum) : Eval Datum :=
  answer (isStrict op v.slot) (u.arith op v)

/-- The computation that comes to nothing. -/
def undefined {α : Type} : Eval α := fun _ => none

/-- Combines values from the left. -/
def combine (op : ArithOp) : List Datum → Eval Datum
  | [] => pure (.int (neutral op))
  | [v] => if op = .sub then answer false v.negate else pure v
  | v :: vs => vs.foldlM (operate op) v

/-- What a form is evaluated with: the functions that there are, what function names are bound to,
and the parameters. -/
structure Surroundings where
  defs : FuncId → Option Closure
  names : Bindings FuncId
  env : List (String × Datum)

/-- What the body of a function is evaluated with. -/
def Surroundings.enter (s : Surroundings) (c : Closure) (args : List Datum) : Surroundings :=
  ⟨s.defs, c.names, c.params.zip args⟩

mutual

/-- The value of a form. -/
def Surroundings.evaluate (s : Surroundings) (f : Form) : Eval Datum :=
  match f with
  | .int _ n => pure (.int n)
  | .float _ x => pure (.float x)
  | .symbol _ name =>
    if isTruthName name then pure (.bool (name == "t"))
    else
      match s.env.lookup name with
      | some v => pure v
      | none => do
        let mem ← get
        pure (mem.globals name)
  | .list _ [] => pure (.bool false)
  | .list _ (.symbol _ name :: args) =>
    match Builtin.ofName? name with
    | none => do
      let vs ← s |>.evaluateAll args
      match (s.names.find? name).bind s.defs with
      | some c => s.enter c vs |>.evaluateBody c.body
      | none => undefined
    | some (.arith op) => do
      let vs ← s |>.evaluateAll args
      combine op vs
    | some (.compare c) => do
      match ← (s |>.evaluateAll args) with
      | [u, v] => do
        let b ← answer false (u.compare c v)
        pure (.bool b)
      | _ => undefined
    | some .conditional =>
      match args with
      | test :: first :: others => do
        let v ← s |>.evaluate test
        let b ← answer false v.isTrue
        if b then s |>.evaluate first
        else
          match others with
          | [] => pure (.bool false)
          | second :: _ => s |>.evaluate second
      | _ => undefined
    | some .assign =>
      match args with
      | [.symbol _ target, value] => do
        let v ← s |>.evaluate value
        modify fun mem => mem.assign target v
        pure v
      | _ => undefined
    | some .print =>
      match args with
      | [value] => do
        let v ← s |>.evaluate value
        let line ← answer false v.slot.printed
        modify fun mem => mem.print line
        pure v
      | _ => undefined
    | some .define => undefined
  | .list _ (_ :: _) => undefined
partial_fixpoint

/-- The values of forms, from left to right. -/
def Surroundings.evaluateAll (s : Surroundings) (fs : List Form) : Eval (List Datum) :=
  match fs with
  | [] => pure []
  | f :: fs => do
    let v ← s |>.evaluate f
    let vs ← s |>.evaluateAll fs
    pure (v :: vs)
partial_fixpoint

/-- The value of the last of some forms, after those of the others. -/
def Surroundings.evaluateBody (s : Surroundings) (fs : List Form) : Eval Datum :=
  match fs with
  | [] => undefined
  | [f] => s |>.evaluate f
  | f :: fs => do
    let _ ← s |>.evaluate f
    s |>.evaluateBody fs
partial_fixpoint

end

section

variable (defs : FuncId → Option Closure) (names : Bindings FuncId) (env : List (String × Datum))

/-- The value of a form. -/
def evaluate (f : Form) : Eval Datum :=
  Surroundings.evaluate ⟨defs, names, env⟩ f

/-- The values of forms, from left to right. -/
def evaluateAll (fs : List Form) : Eval (List Datum) :=
  Surroundings.evaluateAll ⟨defs, names, env⟩ fs

/-- The value of the last of some forms, after those of the others. -/
def evaluateBody (fs : List Form) : Eval Datum :=
  Surroundings.evaluateBody ⟨defs, names, env⟩ fs

end

/-- The value of a call. -/
def evaluateCall (defs : FuncId → Option Closure) (f : FuncId) (args : List Datum) : Eval Datum :=
  match defs f with
  | some c => evaluateBody defs c.names (c.params.zip args) c.body
  | none => undefined

end ForkLisp.Reference
