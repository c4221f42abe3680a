/-
The rounds of optimization.

Code is cleaned up, callees are copied in for a number of rounds while the code is small enough, and
the result is cleaned up again.
-/
import ForkLisp.Code.Listing
import ForkLisp.Optimize.Pass

namespace ForkLisp.Optimize

open ForkLisp.Code ForkLisp.Compile

/-- How often code is cleaned up before callees are copied in. -/
def roundsBefore : Nat := 2

/-- How often code is cleaned up at the end. -/
def roundsAfter : Nat := 5

namespace Subject

/-- Cleans the code up a number of times. -/
def cleanupRounds (subject : Subject) : Nat → Option Code
  | 0 => some subject.code
  | n + 1 => do
    let code ← subject.cleanup
    cleanupRounds { subject with code } n

/-- Copies callees in a number of times, as long as the code is within the budget. -/
def expandRounds (subject : Subject) : Nat → Option Code
  | 0 => some subject.code
  | n + 1 =>
    if subject.context.settings.codeSizeBudget ≤ words subject.code then some subject.code
    else do
      let code ← subject.expand
      expandRounds { subject with code } n

/-- All rounds. -/
def optimize (subject : Subject) : Option Code := do
  let code ← subject.cleanupRounds roundsBefore
  let code ← { subject with code }.expandRounds subject.context.settings.inlineDepth
  { subject with code }.cleanupRounds roundsAfter

/-- The name of what is optimized. -/
def name (subject : Subject) : String :=
  match subject.this.bind subject.context.function? with
  | some f => f.name
  | none => "<entry>"

/-- What is logged about optimized code. -/
def log (subject : Subject) (optimized : Code) : List String :=
  if subject.context.settings.showIr then [subject.name ++ ":\n" ++ listing optimized] else []

end Subject

end ForkLisp.Optimize
