/-
Values of forms.

Evaluating a form gives a number, a truth value, or the name of the function that it defined.
-/
import ForkLisp.Machine.Slot

namespace ForkLisp.Session

open ForkLisp.Machine ForkLisp.Numeric

/-- What a form evaluates to. -/
inductive Value where
  | int (value : Int64)
  | float (value : Binary64)
  | bool (value : Bool)
  /-- The name of a function that was defined. -/
  | symbol (name : String)
  deriving DecidableEq

namespace Value

/-- The text of a value. -/
def text : Value → String
  | int n => intText n
  | float x => x.text .exact
  | bool b => Slot.boolText b
  | symbol name => name

/-- The value that a slot holds. -/
def ofSlot? : Slot → Option Value
  | .int n => some (int n)
  | .float x => some (float x)
  | .bool b => some (bool b)
  | _ => none

end Value

end ForkLisp.Session
