/-
Static kinds.

The kind of a form is what is known about its value before it runs. It decides where the form may
stand; `any` is checked by the instruction that uses the value.
-/

namespace ForkLisp.Compile

/-- What is known about the value of a form. -/
inductive Kind where
  | int
  | bool
  | float
  /-- A parameter, a global, or a form whose branches differ. -/
  | any
  deriving DecidableEq, Repr

namespace Kind

/-- The name of a kind. -/
def text : Kind → String
  | int => "int"
  | bool => "boolean"
  | float => "float"
  | any => "any"

/-- Whether a comparison or a condition takes the kind. -/
def isIntegral : Kind → Bool
  | int | bool | any => true
  | float => false

/-- Whether arithmetic takes the kind. -/
def isArithmetic : Kind → Bool
  | int | any => true
  | bool | float => false

/-- The kind of a value that comes from one of two branches. -/
def merge (a b : Kind) : Kind :=
  if a = b then a else any

end Kind

end ForkLisp.Compile
