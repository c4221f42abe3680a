/-
Errors of compilation.

Each names the form that it is about by its range.
-/
import ForkLisp.Numeric.Integer
import ForkLisp.Source.Position

namespace ForkLisp.Compile

open ForkLisp.Numeric ForkLisp.Source

/-- Why a form does not compile. -/
inductive CompileError where
  | notDefined (range : Range) (name : String)
  | notCallable (range : Range) (head : String)
  | argumentCount (range : Range) (name : String) (expected got : Nat)
  | notInteger (range : Range) (operator : String)
  | invalidDefinition (range : Range) (reason : String)
  | unexpectedForm (range : Range) (form : String)
  deriving DecidableEq

namespace CompileError

/-- The place that an error is about. -/
def range : CompileError → Range
  | notDefined range _ | notCallable range _ | argumentCount range .. | notInteger range _
  | invalidDefinition range _ | unexpectedForm range _ => range

/-- The text of an error. -/
def message : CompileError → String
  | notDefined _ name => s!"\"{name}\" is not defined"
  | notCallable _ head => s!"\"{head}\" is not callable"
  | argumentCount _ name expected got =>
    s!"Invalid number of arguments in \"{name}\", expected "
      ++ natText expected ++ ", got " ++ natText got
  | notInteger _ operator => s!"Non-integer operand for \"{operator}\""
  | invalidDefinition _ reason => s!"Invalid definition, {reason}"
  | unexpectedForm _ form => s!"Unexpected form `{form}`"

end CompileError

end ForkLisp.Compile
