/-
Responses of the shell.

`respond` carries out the command of a line, and `execute` evaluates a text form by form and shows
every value behind what its evaluation printed.
-/
import ForkLisp.Session.Evaluate
import ForkLisp.Shell.Command
import ForkLisp.Shell.Files

namespace ForkLisp.Shell

open ForkLisp.Code ForkLisp.Compile ForkLisp.Numeric ForkLisp.Reader ForkLisp.Session

/-- What a command gives. -/
inductive Reply where
  | values (values : List Value)
  | lines (lines : List String)
  | quit
  | nothing
  deriving DecidableEq

/-- Why a command fails. -/
inductive Failure where
  | source (diagnostic : Diagnostic)
  | file (error : FileError)
  | unknownFunction (name : String)
  | unknownCommand (line : String)
  deriving DecidableEq

/-- The text of a failure. -/
def Failure.message : Failure → String
  | source d => d.cause.message
  | file e => e.message
  | unknownFunction name => "Function not found: " ++ name
  | unknownCommand line => "Command not found: " ++ line

/-- What the list of functions shows about one. -/
def functionLine (f : Function) : String :=
  f.name ++ ": (" ++ " ".intercalate f.params ++ ") -> " ++ f.kind.text ++ ", "
    ++ natText (words f.code) ++ " words"

/-- What the list of globals shows about one. -/
def variableLine (v : Variable) : String :=
  v.name ++ ": " ++ ((Value.ofSlot? v.value).map (·.text)).getD v.value.tag.text

/-- Evaluates a text. There is nothing to show for a blank one. -/
def evaluateText (s : State) (text : String) : Evaluation Failure Reply :=
  if text.toList.all Text.isBlank then ⟨s, [], [], .ok .nothing⟩
  else
    let e := s.evaluate text
    e.withOutcome <|
      match e.outcome with
      | .ok vs => .ok (.values vs)
      | .error d => .error (.source d)

/-- Carries out a command. -/
def carryOut (files : Files) (s : State) : Command → Evaluation Failure Reply
  | .functions => ⟨s, [], [], .ok (.lines (s.functions.map functionLine))⟩
  | .help => ⟨s, [], [], .ok (.lines (Command.offered.map (·.helpLine)))⟩
  | .code name =>
    ⟨s, [], [],
      match (s.context.findFunction? name).bind s.context.function? with
      | some f => .ok (.lines (listingLines 0 f.code.toList))
      | none => .error (.unknownFunction name)⟩
  | .load path =>
    match files path with
    | .ok text => evaluateText s text
    | .error e => ⟨s, [], [], .error (.file e)⟩
  | .quit => ⟨s, [], [], .ok .quit⟩
  | .globals => ⟨s, [], [], .ok (.lines (s.globals.map variableLine))⟩
  | .version => ⟨s, [], [], .ok (.lines [version])⟩
  | .evaluate text => evaluateText s text
  | .unknown line => ⟨s, [], [], .error (.unknownCommand line)⟩

/-- Carries out the command of a line. -/
def respond (files : Files) (s : State) (line : String) : Evaluation Failure Reply :=
  carryOut files s (.ofLine line)

/-- Evaluates forms in order up to the first that fails and shows their values. -/
def executeForms (source : String) (s : State) : List Form → Evaluation Failure Unit
  | [] => ⟨s, [], [], .ok ()⟩
  | f :: fs =>
    let e := s.evaluateForm f
    match e.outcome with
    | .error cause => e.withOutcome (.error (.source (.locate source cause (some f.range))))
    | .ok v => (executeForms source e.state fs).after e.log (e.printed ++ [v.text])

/-- Evaluates the forms of a text and shows their values. -/
def execute (s : State) (source : String) : Evaluation Failure Unit :=
  match read source with
  | .error e => ⟨s, [], [], .error (.source (.locate source (.ofReadError e) none))⟩
  | .ok forms => executeForms source s forms

end ForkLisp.Shell
