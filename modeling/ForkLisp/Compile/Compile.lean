/-
Compiling forms.

`compile` compiles one form in a context: a definition completes a function, and any other form
becomes the code of an entry. A form that fails leaves no global and no function behind.
-/
import ForkLisp.Compile.Definition
import ForkLisp.Compile.Generate
import ForkLisp.Optimize.Rounds

namespace ForkLisp.Compile

open ForkLisp.Code ForkLisp.Machine ForkLisp.Optimize ForkLisp.Reader

/-- What a form compiles to. -/
inductive Compiled where
  | function (name : String)
  | entry (code : Lowered)
  deriving DecidableEq

/-- The context after a form was compiled, what was logged, and the code or an error. -/
structure Compilation where
  context : Context
  log : List String
  outcome : Except CompileError Compiled

/-- What is logged about generated code. -/
def generationLog {α : Type} (c : Context) (e : Emission α) : List String :=
  if c.settings.showIr then e.log else []

/-- The final code, with what is logged about it. Code that is not well formed is left as it is. -/
def finalCode (c : Context) (this : Option FuncId) (raw : Code) : Code × List String :=
  if c.settings.optimize then
    let subject : Subject := ⟨c, this, raw⟩
    match subject.optimize with
    | some code => (code, subject.log code)
    | none => (raw, [])
  else (raw, [])

/-- Compiles a function, whose name is bound before its body is compiled. -/
def compileDefinition (c : Context) (d : Definition) : Compilation :=
  let (c, registration) := c.define d.name d.params
  let e := generateBody d.params d.body d.params.length c
  let log := generationLog c e
  match e.outcome with
  | .error error => ⟨e.context.undefine registration, log, .error error⟩
  | .ok kind =>
    let raw := e.code.toArray
    let (code, more) := finalCode e.context (some registration.id) raw
    ⟨e.context.complete registration.id kind raw code, log ++ more, .ok (.function d.name)⟩

/-- Compiles a form that is no definition. -/
def compileEntry (c : Context) (f : Form) : Compilation :=
  let e := generateBody [] [f] 0 c
  let log := generationLog c e
  match e.outcome with
  | .error error => ⟨e.context, log, .error error⟩
  | .ok _ =>
    let (code, more) := finalCode e.context none e.code.toArray
    ⟨e.context, log ++ more, .ok (.entry (lower code 0))⟩

/-- Compiles a form and drops the globals it created if it fails. -/
def compile (c : Context) (f : Form) : Compilation :=
  let r : Compilation :=
    match definingArguments? f with
    | some args =>
      match Definition.ofArguments f.range args with
      | .error error => ⟨c, [], .error error⟩
      | .ok d => compileDefinition c d
    | none => compileEntry c f
  match r.outcome with
  | .error _ => { r with context := r.context.forgetGlobals c.globals.size }
  | .ok _ => r

end ForkLisp.Compile
