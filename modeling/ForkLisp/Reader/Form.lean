/-
Forms.

A form is a number, a symbol or a list of forms, with the range it was read from. `Form.text` writes
one; `Form.call?` splits a list with a symbol in front into that symbol and its arguments.
-/
import ForkLisp.Numeric.Layout
import ForkLisp.Source.Position

namespace ForkLisp.Reader

open ForkLisp.Numeric ForkLisp.Source

/-- A form of the source text. -/
inductive Form where
  | int (range : Range) (value : Int64)
  | float (range : Range) (value : Binary64)
  | symbol (range : Range) (name : String)
  | list (range : Range) (items : List Form)

namespace Form

/-- The place a form was read from. -/
def range : Form → Range
  | int range _ => range
  | float range _ => range
  | symbol range _ => range
  | list range _ => range

/-- The name of a symbol. -/
def symbol? : Form → Option String
  | symbol _ name => some name
  | _ => none

/-- The items of a list. -/
def list? : Form → Option (List Form)
  | list _ items => some items
  | _ => none

/-- The head symbol and the arguments of a call. -/
def call? : Form → Option (String × List Form)
  | list _ (symbol _ name :: args) => some (name, args)
  | _ => none

mutual

/-- A form as it is written: numbers show their kind, and one space separates the
items of a list. -/
def text : Form → String
  | int _ value => intText value
  | float _ value => value.text .exact
  | symbol _ name => name
  | list _ items => "(" ++ itemsText items ++ ")"

/-- Forms with one space between them. -/
def itemsText : List Form → String
  | [] => ""
  | [f] => f.text
  | f :: fs => f.text ++ " " ++ itemsText fs

end

end Form

end ForkLisp.Reader
