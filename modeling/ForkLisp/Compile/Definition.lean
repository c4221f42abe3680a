/-
Function definitions.

A definition is the name, the parameters and the body of a function. `Definition.ofArguments` takes
them from the arguments of the defining form and says what is wrong otherwise.
-/
import ForkLisp.Compile.Builtin
import ForkLisp.Compile.Error
import ForkLisp.Reader.Form

namespace ForkLisp.Compile

open ForkLisp.Reader ForkLisp.Source

/-- A function to be compiled. -/
structure Definition where
  name : String
  params : List String
  body : List Form

namespace Definition

/-- The first name that occurs a second time. -/
def firstRepeated? : List String → List String → Option String
  | _, [] => none
  | seen, name :: names =>
    if name ∈ seen then some name else firstRepeated? (name :: seen) names

/-- The name of a function, which cannot be built in. -/
def functionName (f : Form) : Except CompileError String :=
  let refuse : Except CompileError String :=
    .error (.invalidDefinition f.range s!"cannot define `{f.text}`")
  match f.symbol? with
  | some name => if isReserved name then refuse else .ok name
  | none => refuse

/-- The name of a parameter, which cannot be a truth value. -/
def parameterName (f : Form) : Except CompileError String :=
  let refuse : Except CompileError String :=
    .error (.invalidDefinition f.range s!"invalid parameter `{f.text}`")
  match f.symbol? with
  | some name => if isTruthName name then refuse else .ok name
  | none => refuse

/-- The parameters of a function, which must differ. -/
def parameterNames (f : Form) : Except CompileError (List String) := do
  match f.list? with
  | none => .error (.invalidDefinition f.range s!"expected a parameter list, got `{f.text}`")
  | some fs =>
    let names ← fs.mapM parameterName
    match firstRepeated? [] names with
    | some name => .error (.invalidDefinition f.range s!"duplicate parameter `{name}`")
    | none => .ok names

/-- The definition that the arguments of a defining form make; `range` is the place of the form. -/
def ofArguments (range : Range) : List Form → Except CompileError Definition
  | nameForm :: paramsForm :: body => do
    let name ← functionName nameForm
    let params ← parameterNames paramsForm
    if body.isEmpty then .error (.invalidDefinition range s!"missing body of `{name}`")
    else .ok ⟨name, params, body⟩
  | _ => .error (.invalidDefinition range "expected (defun name (params...) body...)")

end Definition

/-- The arguments of a form that defines a function. -/
def definingArguments? : Form → Option (List Form)
  | .list _ (.symbol _ name :: args) =>
    if Builtin.ofName? name = some .define then some args else none
  | _ => none

end ForkLisp.Compile
