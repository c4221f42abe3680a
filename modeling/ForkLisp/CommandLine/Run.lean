/-
Runs.

A run evaluates a file and then code, or converses over an input text.
-/
import ForkLisp.CommandLine.Arguments
import ForkLisp.Shell.Conversation

namespace ForkLisp.CommandLine

open ForkLisp.Session ForkLisp.Shell

/-- What the program finds where it runs. -/
structure Surroundings where
  environment : String → Option String
  files : Files
  input : String

/-- The text that answers the question for the version. -/
def versionText : String := s!"plisp {version}\n"

/-- Executes a file. -/
def executeFile (files : Files) (s : State) (path : String) : Evaluation Failure Unit :=
  match files path with
  | .ok text => execute s text
  | .error e => ⟨s, [], [], .error (.file e)⟩

/-- Goes on with another evaluation unless one has failed. -/
def andThen (e : Evaluation Failure Unit) (next : State → Evaluation Failure Unit) :
    Evaluation Failure Unit :=
  match e.outcome with
  | .ok _ => (next e.state).after e.log e.printed
  | .error _ => e

/-- Executes the file and the code of an invocation. -/
def executeAll (files : Files) (i : Invocation) (s : State) : Evaluation Failure Unit :=
  let done : Evaluation Failure Unit := ⟨s, [], [], .ok ()⟩
  let afterFile :=
    match i.file with
    | some path => executeFile files s path
    | none => done
  match i.code with
  | some code => andThen afterFile (execute · code)
  | none => afterFile

/-- Does what an invocation asks for. -/
def run (w : Surroundings) (i : Invocation) : Evaluation Failure Unit :=
  let s : State := .new (i.settings (Settings.ofEnvironment w.environment).settings)
  if i.isConversation then converse w.files s w.input else executeAll w.files i s

end ForkLisp.CommandLine
