/-
Built-in operators and special forms.
-/
import ForkLisp.Code.Operator

namespace ForkLisp.Compile

open ForkLisp.Code

/-- What a name in front of a list can stand for other than a function. -/
inductive Builtin where
  | arith (op : ArithOp)
  | compare (test : Comparison)
  | conditional
  | define
  | assign
  | print
  deriving DecidableEq, Repr

namespace Builtin

/-- The names that are built in. -/
def names : List (String × Builtin) := [
  ("+", arith .add), ("-", arith .sub), ("*", arith .mul), ("/", arith .div), ("mod", arith .mod),
  ("<", compare .lt), ("<=", compare .le), (">", compare .gt), (">=", compare .ge),
  ("=", compare .eq), ("==", compare .eq), ("eq", compare .eq), ("equal", compare .eq),
  ("!=", compare .ne), ("/=", compare .ne), ("if", conditional), ("defun", define),
  ("setq", assign), ("print", print)]

/-- What a name stands for, if it is built in. -/
def ofName? (name : String) : Option Builtin :=
  names.lookup name

/-- The comparison that a name stands for. -/
def comparison? (name : String) : Option Comparison :=
  match ofName? name with
  | some (compare test) => some test
  | _ => none

end Builtin

/-- Whether a name is one of the two truth values. -/
def isTruthName (name : String) : Bool :=
  name == "t" || name == "nil"

/-- Whether a name cannot be defined as a function. -/
def isReserved (name : String) : Bool :=
  isTruthName name || (Builtin.ofName? name).isSome

end ForkLisp.Compile
