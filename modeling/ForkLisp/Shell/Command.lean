/-
Commands of the shell.

A line is a command if its words are the name of a command and the operands that it takes. Any
other line that starts with a colon is an unknown command, and all else is code.
-/
import ForkLisp.Text.Lowercase
import ForkLisp.Text.Words

namespace ForkLisp.Shell

/-- What a line asks for. -/
inductive Command where
  | functions
  | help
  /-- Show the code of a function. -/
  | code (name : String)
  /-- Evaluate a file. -/
  | load (path : String)
  | quit
  | globals
  | version
  | evaluate (text : String)
  | unknown (line : String)
  deriving DecidableEq, Repr

namespace Command

/-- The command that a line asks for. Names of functions are lowered. -/
def ofLine (line : String) : Command :=
  match (Text.words line.toList).map String.ofList with
  | [":funcs"] => functions
  | [":help"] => help
  | [":ir", name] => code (Text.lowercase name)
  | [":load", path] => load path
  | [":quit"] => quit
  | [":vars"] => globals
  | [":version"] => version
  | _ => if line.toList.head? = some ':' then unknown line else evaluate line

/-- The name of a command. -/
def name : Command → String
  | functions => ":funcs"
  | help => ":help"
  | code _ => ":ir"
  | load _ => ":load"
  | quit => ":quit"
  | globals => ":vars"
  | version => ":version"
  | evaluate _ => ":eval"
  | unknown _ => ":not_found"

/-- What a command does. -/
def purpose : Command → String
  | functions => "List defined functions"
  | help => "Print command help"
  | code _ => "Print the optimized bytecode of a function (name)"
  | load _ => "Evaluate a plisp source file (path)"
  | quit => "Quit evaluation and exit"
  | globals => "List global variables"
  | version => "Print plisp version"
  | evaluate _ => ""
  | unknown _ => ""

/-- The help on a command: its name in twelve columns, and what it does. -/
def helpLine (c : Command) : String :=
  let name := c.name
  name ++ String.ofList (List.replicate (12 - name.length) ' ') ++ c.purpose

/-- The commands that help and completion offer, in the order of their names. -/
def offered : List Command :=
  [functions, help, code "", load "", quit, globals, version]

end Command

end ForkLisp.Shell
