/-
Definitions of a session.

A context holds every function that was ever defined, what the names of functions are bound to now,
and the globals. A function is registered before its body is compiled, so that it can call itself,
and `undefine` takes the registration back. The table of lowered functions is kept until another
function is completed.
-/
import ForkLisp.Compile.Bindings
import ForkLisp.Compile.Kind
import ForkLisp.Machine.Program
import ForkLisp.Settings

namespace ForkLisp.Compile

open ForkLisp.Code ForkLisp.Machine

/-- A function of the program. -/
structure Function where
  name : String
  params : List String
  /-- The kind of the value that the body returns. -/
  kind : Kind
  /-- The code as it was generated. -/
  raw : Code
  /-- The code after optimization, which callers inline. -/
  code : Code
  lowered : Option Lowered
  deriving DecidableEq

/-- How many arguments a function takes. -/
def Function.arity (f : Function) : Nat := f.params.length

/-- A global variable and its value. -/
structure Variable where
  name : String
  value : Slot
  deriving DecidableEq

/-- The definitions of a session. -/
structure Context where
  settings : Settings
  functions : Array Function
  names : Bindings FuncId
  globals : Array Variable
  table : Option FunctionTable
  deriving DecidableEq

/-- A registration that can be taken back. -/
structure Registration where
  id : FuncId
  name : String
  previous : Option FuncId
  deriving DecidableEq

namespace Context

/-- Nothing is defined. -/
def new (settings : Settings) : Context :=
  ⟨settings, #[], .empty, #[], none⟩

/-- What a function name is bound to. -/
def findFunction? (c : Context) (name : String) : Option FuncId :=
  c.names.find? name

/-- A function. -/
def function? (c : Context) (id : FuncId) : Option Function :=
  c.functions[id]?

/-- Registers a function, whose body is still to come, and binds its name. -/
def define (c : Context) (name : String) (params : List String) : Context × Registration :=
  let id := c.functions.size
  ({ c with
      functions := c.functions.push ⟨name, params, .int, #[], #[], none⟩
      names := c.names.insert name id },
    ⟨id, name, c.names.find? name⟩)

/-- Takes back a registration: the name is bound as before, and the function is dropped if it is
the last one. -/
def undefine (c : Context) (r : Registration) : Context :=
  { c with
    names :=
      match r.previous with
      | some id => c.names.insert r.name id
      | none => c.names.erase r.name
    functions := if r.id + 1 = c.functions.size then c.functions.pop else c.functions }

/-- Gives a registered function its kind and code. -/
def complete (c : Context) (id : FuncId) (kind : Kind) (raw code : Code) : Context :=
  { c with
    functions := c.functions.modify id fun f =>
      { f with kind, raw, code, lowered := some (lower code f.arity) }
    table := none }

/-- The lowered functions as they are now. -/
def currentTable (c : Context) : FunctionTable :=
  c.functions.map (·.lowered)

/-- The lowered functions, and the context in which they are kept. -/
def functionTable (c : Context) : FunctionTable × Context :=
  match c.table with
  | some t => (t, c)
  | none => (c.currentTable, { c with table := some c.currentTable })

/-- A global variable. -/
def findGlobal? (c : Context) (name : String) : Option Global :=
  (c.globals.findIdx? (·.name == name)).map fun i => ⟨i, name⟩

/-- The global variable of a name, which is created with the value zero if it is new. -/
def defineGlobal (c : Context) (name : String) : Global × Context :=
  match c.findGlobal? name with
  | some g => (g, c)
  | none => (⟨c.globals.size, name⟩, { c with globals := c.globals.push ⟨name, .int 0⟩ })

/-- Drops the globals that were created when there were already `mark`. -/
def forgetGlobals (c : Context) (mark : Nat) : Context :=
  { c with globals := c.globals.take mark }

/-- The functions that are bound, in the order of their names. -/
def boundFunctions (c : Context) : List Function :=
  c.names.entries.filterMap fun e => c.function? e.2

/-- The globals in the order of their names. -/
def sortedGlobals (c : Context) : List Variable :=
  c.globals.toList.mergeSort fun a b => a.name ≤ b.name

/-- The values of the globals. -/
def globalValues (c : Context) : Array Slot :=
  c.globals.map (·.value)

/-- Gives the globals new values. -/
def withGlobalValues (c : Context) (values : Array Slot) : Context :=
  { c with globals := c.globals.mapIdx fun i v => { v with value := values.getD i v.value } }

end Context

end ForkLisp.Compile
