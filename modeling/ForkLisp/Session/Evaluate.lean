/-
Evaluating forms.

A session keeps its definitions and its workers from one form to the next. `evaluateForm` compiles a
form and runs it if it is no definition, `evaluateForms` goes on until a form fails, and `evaluate`
reads a text first and points out the form that failed.
-/
import ForkLisp.Compile.Compile
import ForkLisp.Diagnostic
import ForkLisp.Schedule.Crew
import ForkLisp.Session.Value

namespace ForkLisp.Session

open ForkLisp.Code ForkLisp.Compile ForkLisp.Machine ForkLisp.Reader ForkLisp.Schedule
  ForkLisp.Source

/-- The version of the language. -/
def version : String := "0.3.0"

/-- What lasts between forms. -/
structure State where
  context : Context
  scheduler : Scheduler

/-- What comes of an evaluation: the state after it, what was logged and printed meanwhile, and how
it ended. -/
structure Evaluation (ε α : Type) where
  state : State
  log : List String
  printed : List String
  outcome : Except ε α

namespace Evaluation

variable {ε ε' α β : Type}

/-- Puts what was logged and printed before in front. -/
def after (e : Evaluation ε α) (log printed : List String) : Evaluation ε α :=
  { e with log := log ++ e.log, printed := printed ++ e.printed }

/-- Changes the outcome alone. -/
def withOutcome (e : Evaluation ε α) (outcome : Except ε' β) : Evaluation ε' β :=
  ⟨e.state, e.log, e.printed, outcome⟩

end Evaluation

/-- The outcome of a program as the result of a form. -/
def resultOf : Outcome → Except Cause Value
  | .error fault => .error (.fault fault)
  | .ok slot =>
    match Value.ofSlot? slot with
    | some v => .ok v
    | none => .error (.fault (.typeMismatch slot.tag))

namespace State

/-- A state in which nothing is defined. -/
def new (settings : Settings) : State :=
  ⟨.new settings, .new settings⟩

/-- The settings of a session. -/
def settings (s : State) : Settings := s.context.settings

/-- Runs the code of an entry. The globals keep what it stored, also when it fails. -/
def run (s : State) (code : Lowered) : Evaluation Cause Value :=
  let (table, context) := s.context.functionTable
  let r := s.scheduler.run ⟨table, code⟩ context.globalValues
  let state : State := ⟨context.withGlobalValues r.globals, r.scheduler⟩
  ⟨state, [], r.printed, resultOf r.outcome⟩

/-- Evaluates one form. -/
def evaluateForm (s : State) (f : Form) : Evaluation Cause Value :=
  let r := compile s.context f
  let s := { s with context := r.context }
  match r.outcome with
  | .error error => ⟨s, r.log, [], .error (.compile error)⟩
  | .ok (.function name) => ⟨s, r.log, [], .ok (.symbol name)⟩
  | .ok (.entry code) => (s.run code).after r.log []

/-- Evaluates forms in order up to the first that fails. -/
def evaluateForms (s : State) : List Form → Evaluation (Cause × Range) (List Value)
  | [] => ⟨s, [], [], .ok []⟩
  | f :: fs =>
    let e := s.evaluateForm f
    match e.outcome with
    | .error cause => e.withOutcome (.error (cause, f.range))
    | .ok v =>
      let rest := e.state.evaluateForms fs
      (rest.withOutcome (rest.outcome.map (v :: ·))).after e.log e.printed

/-- Evaluates the forms of a text. -/
def evaluate (s : State) (code : String) : Evaluation Diagnostic (List Value) :=
  match read code with
  | .error e => ⟨s, [], [], .error (.locate code (.ofReadError e) none)⟩
  | .ok forms =>
    let e := s.evaluateForms forms
    e.withOutcome <| e.outcome.mapError fun (cause, range) => .locate code cause (some range)

/-- The functions that are bound, in the order of their names. -/
def functions (s : State) : List Function := s.context.boundFunctions

/-- The globals in the order of their names. -/
def globals (s : State) : List Variable := s.context.sortedGlobals

/-- The listing of the code of a function. -/
def listing? (s : State) (name : String) : Option String :=
  ((s.context.findFunction? name).bind s.context.function?).map fun f => listing f.code

end State

end ForkLisp.Session
