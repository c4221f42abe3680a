/-
Generating code for forms.

`generate params f r` emits the code that leaves the value of the form `f` in the register `r` and
uses registers above it as scratch space. The parameters are in the first registers of the frame.

Operands of an arithmetic form stand side by side from `r` on. A call that is an operand other than
the last becomes a task if spawning is on: its handle goes where the value would go, one register
above is kept for the result of a call made at once, and all tasks are joined before the operands
are combined.
-/
import ForkLisp.Compile.Builtin
import ForkLisp.Compile.Emission
import ForkLisp.Reader.Form

namespace ForkLisp.Compile

open ForkLisp.Code ForkLisp.Reader ForkLisp.Source

/-- The operand count that an arithmetic operator asks for, if `count` operands are too few or too
many. -/
def expectedOperands? (op : ArithOp) (count : Nat) : Option Nat :=
  match op with
  | .add | .mul => none
  | .sub => if count = 0 then some 1 else none
  | .div => if count < 2 then some 2 else none
  | .mod => if count = 2 then none else some 2

/-- The value of an arithmetic form without operands. -/
def neutral : ArithOp → Int64
  | .mul => 1
  | _ => 0

/-- Whether the operands of an operator may become tasks. -/
def spawnsOperands : ArithOp → Bool
  | .add | .sub | .mul => true
  | .div | .mod => false

/-- The register of an operand, and whether it holds the handle of a task. -/
structure Operand where
  reg : Reg
  spawned : Bool
  deriving DecidableEq

/-- The code that combines operands, the first of which is in `r`. -/
def combine (op : ArithOp) (r : Reg) : List Operand → List Inst
  | [] => [.intConst r (neutral op)]
  | [_] => if op = .sub then [.negate r] else []
  | operands =>
    (operands.filter (·.spawned)).map (fun o => .join o.reg)
      ++ operands.tail.map fun o => .arith op r o.reg

/-- Lets a part through if its kind is accepted. -/
def require (accepts : Kind → Bool) (range : Range) (operator : String) (part : Emit Kind) :
    Emit Kind := do
  let kind ← part
  if accepts kind then pure kind else .fail (.notInteger range operator)

/-- A function that a name stands for, and its kind; the argument count must be right. -/
def resolve (params : List String) (range : Range) (name : String) (count : Nat) :
    Emit (FuncId × Kind) := do
  let c ← Emit.context
  match (c.findFunction? name).bind fun id => (c.function? id).map (id, ·) with
  | some (id, f) =>
    if f.arity = count then pure (id, f.kind)
    else .fail (.argumentCount range name f.arity count)
  | none =>
    if name ∈ params ∨ (c.findGlobal? name).isSome then .fail (.notCallable range name)
    else .fail (.notDefined range name)

/-- The value of a name: a truth value, a parameter or a global. -/
def generateSymbol (params : List String) (range : Range) (name : String) (r : Reg) :
    Emit Kind := do
  if isTruthName name then
    .code [.boolConst r (name == "t")]
    pure .bool
  else
    match params.idxOf? name with
    | some i =>
      .code [.move r i]
      pure .any
    | none =>
      match (← Emit.context).findGlobal? name with
      | some g =>
        .code [.load r g]
        pure .any
      | none => .fail (.notDefined range name)

/-- The user function that a form calls, with the number of arguments. -/
def userCall? : Form → Option (String × Nat)
  | .list _ (.symbol _ name :: args) =>
    if (Builtin.ofName? name).isSome then none else some (name, args.length)
  | _ => none

/-- The comparison that a form makes, with its name. -/
def comparisonCall? : Form → Option (String × Comparison)
  | .list _ (.symbol _ name :: _) => (Builtin.comparison? name).map (name, ·)
  | _ => none

/-- The condition of a conditional: a comparison is made in place, and any other value is compared
with zero. Returns the comparison of `r` and `r + 1` that holds if the condition does not. -/
def condition (f : Form) (r : Reg) (operands : String → Emit Unit) (value : Emit Kind) :
    Emit Comparison := do
  match comparisonCall? f with
  | some (name, test) =>
    operands name
    pure test.negate
  | none =>
    let _ ← require Kind.isIntegral f.range "if" value
    .code [.intConst (r + 1) 0]
    pure .eq

/-- An operand that may become a task: its arguments are three registers up then. -/
def operand (params : List String) (operator : String) (f : Form) (r : Reg)
    (arguments : Reg → Emit Unit) (value : Emit Kind) : Emit Operand := do
  match userCall? f with
  | some (name, count) =>
    let (id, kind) ← resolve params f.range name count
    if kind.isArithmetic then
      arguments (r + 3)
      .code [.spawn id (r + 3)]
      pure ⟨r, true⟩
    else
      let _ ← require Kind.isArithmetic f.range operator value
      pure ⟨r, false⟩
  | none =>
    let _ ← require Kind.isArithmetic f.range operator value
    pure ⟨r, false⟩

/-- The name that an assignment is to, which cannot be a truth value. -/
def assignable (target : Form) : Emit String :=
  let refuse : Emit String :=
    .fail (.invalidDefinition target.range s!"cannot assign to `{target.text}`")
  match target.symbol? with
  | some name => if isTruthName name then refuse else pure name
  | none => refuse

mutual

/-- The code for a form, whose value goes to `r`. -/
def generate (params : List String) : Form → Reg → Emit Kind
  | .int _ value, r => do
    .code [.intConst r value]
    pure .int
  | .float _ value, r => do
    .code [.floatConst r value]
    pure .float
  | .symbol range name, r => generateSymbol params range name r
  | .list _ [], r => do
    .code [.boolConst r false]
    pure .bool
  | .list range (.symbol _ name :: args), r =>
    match Builtin.ofName? name with
    | none => do
      let (id, kind) ← resolve params range name args.length
      generateArguments params args (r + 2)
      .code [.call id (r + 2)]
      pure kind
    | some (.arith op) =>
      match expectedOperands? op args.length with
      | some expected => .fail (.argumentCount range name expected args.length)
      | none => do
        let c ← Emit.context
        let operands ←
          generateOperands params name (c.settings.spawn && spawnsOperands op) args r
        .code (combine op r operands)
        pure .int
    | some (.compare test) => do
      generateComparands params range name args r
      let _ ← Emit.branching test.negate r (.code [.boolConst r true]) (.code [.boolConst r false])
      pure .bool
    | some .conditional =>
      match args with
      | [test, first] => do
        let skip ← condition test r (fun name => generateCompared params name test r)
          (generate params test r)
        let (a, _) ← Emit.branching skip r (generate params first r) (.code [.boolConst r false])
        pure (a.merge .bool)
      | [test, first, second] => do
        let skip ← condition test r (fun name => generateCompared params name test r)
          (generate params test r)
        let (a, b) ← Emit.branching skip r (generate params first r) (generate params second r)
        pure (a.merge b)
      | args => .fail (.argumentCount range name 3 args.length)
    | some .assign =>
      match args with
      | [target, value] => do
        let variableName ← assignable target
        let kind ← generate params value r
        let g ← Emit.global variableName
        .code [.store r g]
        pure kind
      | args => .fail (.argumentCount range name 2 args.length)
    | some .print =>
      match args with
      | [value] => do
        let kind ← generate params value r
        .code [if kind = .bool then .printBool r else .print r]
        pure kind
      | args => .fail (.argumentCount range name 1 args.length)
    | some .define => .fail (.invalidDefinition range "defun is only allowed at top level")
  | .list _ (head :: _), _ => .fail (.notCallable head.range head.text)

/-- The code for arguments, whose values go to `r` and the registers above it. -/
def generateArguments (params : List String) : List Form → Reg → Emit Unit
  | [], _ => pure ()
  | f :: fs, r => do
    let _ ← generate params f r
    generateArguments params fs (r + 1)

/-- The code for the arguments of a call. -/
def generateArgumentsOf (params : List String) : Form → Reg → Emit Unit
  | .list _ (_ :: args), r => generateArguments params args r
  | _, _ => pure ()

/-- The code for the operands of an arithmetic form. The last one never becomes a task. -/
def generateOperands (params : List String) (operator : String) (spawn : Bool) :
    List Form → Reg → Emit (List Operand)
  | [], _ => pure []
  | f :: fs, r => do
    let first ←
      if spawn && !fs.isEmpty then
        operand params operator f r (generateArgumentsOf params f) (generate params f r)
      else do
        let _ ← require Kind.isArithmetic f.range operator (generate params f r)
        pure (⟨r, false⟩ : Operand)
    let rest ← generateOperands params operator spawn fs (r + if first.spawned then 2 else 1)
    pure (first :: rest)

/-- The code for the two operands of a comparison. -/
def generateComparands (params : List String) (range : Range) (name : String) :
    List Form → Reg → Emit Unit
  | [lhs, rhs], r => do
    let _ ← require Kind.isIntegral lhs.range name (generate params lhs r)
    let _ ← require Kind.isIntegral rhs.range name (generate params rhs (r + 1))
    pure ()
  | args, _ => .fail (.argumentCount range name 2 args.length)

/-- The code for the operands of a form that is a comparison. -/
def generateCompared (params : List String) (name : String) : Form → Reg → Emit Unit
  | .list range (_ :: args), r => generateComparands params range name args r
  | _, _ => pure ()

end

/-- A list with anything but a name in front is refused. -/
theorem generate_head {params : List String} {range : Range} {head : Form} {args : List Form}
    (h : head.symbol? = none) (r : Reg) :
    generate params (.list range (head :: args)) r = .fail (.notCallable head.range head.text) := by
  cases head with
  | symbol => cases h
  | int | float | list =>
    unfold generate
    rfl

/-- The code for forms in order, all of whose values go to `r`; the kind is that of the last one. -/
def generateSequence (params : List String) (r : Reg) : Kind → List Form → Emit Kind
  | kind, [] => pure kind
  | _, f :: fs => do
    let kind ← generate params f r
    generateSequence params r kind fs

/-- The code for a body, which returns the value of its last form. -/
def generateBody (params : List String) (body : List Form) (r : Reg) : Emit Kind := do
  let kind ← generateSequence params r .bool body
  .code [.ret r, .stop]
  pure kind

end ForkLisp.Compile
