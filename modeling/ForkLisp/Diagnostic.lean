/-
Diagnostics.

A diagnostic is the cause of a failure with the place in the source that it points at. Causes that
have no place of their own point at the form that was being evaluated, or at the end of the text.
-/
import ForkLisp.Compile.Error
import ForkLisp.Machine.Slot
import ForkLisp.Reader.Parse
import ForkLisp.Source.Offset

namespace ForkLisp

open ForkLisp.Compile ForkLisp.Machine ForkLisp.Numeric ForkLisp.Reader ForkLisp.Source

/-- Why a text could not be read, compiled or run. -/
inductive Cause where
  | lexical (error : LexicalError)
  | grammatical (error : SyntaxError)
  | compile (error : CompileError)
  | fault (fault : Fault)
  deriving DecidableEq

namespace Cause

/-- The cause that a reading error is. -/
def ofReadError : ReadError → Cause
  | .lexical e => lexical e
  | .grammatical e => grammatical e

/-- The name of a cause. -/
def code : Cause → String
  | lexical (.unexpected _) => "LexerError::UnexpectedToken"
  | lexical (.outOfRange _) => "LexerError::InvalidNumber"
  | grammatical (.unexpected _) => "ParseError::UnexpectedToken"
  | grammatical .unexpectedEnd => "ParseError::UnexpectedEOFDetected"
  | grammatical (.unclosed _) => "ParseError::ExpectedClosingParen"
  | compile (.notDefined ..) => "CompileError::NotDefined"
  | compile (.notCallable ..) => "CompileError::NotCallable"
  | compile (.argumentCount ..) => "CompileError::InvalidNumberOfArguments"
  | compile (.notInteger ..) => "CompileError::NotInteger"
  | compile (.invalidDefinition ..) => "CompileError::InvalidDefinition"
  | compile (.unexpectedForm ..) => "CompileError::UnexpectedForm"
  | fault .zeroDivision => "RuntimeError::ZeroDivision"
  | fault (.typeMismatch _) => "RuntimeError::TypeMismatch"
  | fault .stackOverflow => "RuntimeError::StackOverflow"
  | fault .workerLost => "RuntimeError::WorkerDisconnected"

/-- The text of a cause. -/
def message : Cause → String
  | lexical (.unexpected t) => s!"Unexpected token `{t.kind.text}`"
  | lexical (.outOfRange t) => s!"Integer literal out of range `{t.kind.text}`"
  | grammatical (.unexpected t) => s!"Unexpected token `{t.kind.text}`"
  | grammatical .unexpectedEnd => "Unexpected EOF detected"
  | grammatical (.unclosed t) =>
    "Expected a closing parenthesis `)` for `" ++ t.kind.text ++ "`"
  | compile e => e.message
  | fault f => f.message

/-- What might help. -/
def help? : Cause → Option String
  | grammatical (.unclosed _) => some "Check for a missing `)` in the form."
  | compile (.notDefined _ name) =>
    some ("'" ++ name ++ "' is not defined. Did you forget to `defun` or `setq` it?")
  | compile (.argumentCount _ _ expected got) =>
    some ("Invalid number of arguments: expected " ++ natText expected
      ++ ", got " ++ natText got ++ ".")
  | compile (.notInteger ..) =>
    some "Arithmetic and comparisons only accept integers and booleans."
  | fault .zeroDivision => some "Division by zero is not allowed."
  | fault .stackOverflow =>
    some "Recursion too deep. Increase the task stack size or check the base case."
  | _ => none

/-- The place that a cause is about, where `form` is the form that was being evaluated. -/
def range? (form : Option Range) : Cause → Option Range
  | lexical (.unexpected t) | lexical (.outOfRange t) => some t.range
  | grammatical (.unexpected t) | grammatical (.unclosed t) => some t.range
  | grammatical .unexpectedEnd => none
  | compile e => some e.range
  | fault _ => form

end Cause

/-- A cause and the bytes of the source that it points at. -/
structure Diagnostic where
  cause : Cause
  span : Span
  deriving DecidableEq

/-- Locates a cause in a source text. -/
def Diagnostic.locate (source : String) (cause : Cause) (form : Option Range) : Diagnostic :=
  ⟨cause,
    match cause.range? form with
    | some r => spanOf source r
    | none => lastByte source⟩

end ForkLisp
