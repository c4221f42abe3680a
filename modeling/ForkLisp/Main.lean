/-
The program.

The outer layer of the command line: it reads the environment, files and lines, and writes what the
library shows. What is logged and what fails goes to the error stream.
-/
import ForkLisp.CommandLine.Run

namespace ForkLisp.CommandLine

open ForkLisp.Session ForkLisp.Shell

/-- How the program is used. -/
def usage : List String :=
  ["Usage: plisp [OPTIONS] [FILE] [COMMAND]",
    "",
    "Commands:",
    "  repl                       Start a REPL session",
    "  help                       Print this message",
    "",
    "Options:",
    "  -w, --workers <N>          Number of worker threads",
    "  -i, --inline-depth <N>     Number of call inlining rounds run on every function",
    "      --show-ir              Print the optimized bytecode of every compiled function",
    "      --no-optimize          Run the bytecode as emitted by the code generator",
    "      --no-spawn             Compile every call as a synchronous call",
    "      --task-pool-size <N>   Capacity of the task pool; 0 runs every spawn synchronously",
    "      --scheduler <KIND>     Task scheduling strategy: work-stealing or shared-queue",
    "  -e, --eval <CODE>          Evaluate the given code after FILE",
    "  -h, --help                 Print help",
    "  -V, --version              Print version"]

/-- What is wrong with arguments. -/
def refusalText : Refusal → String
  | .help => "help is asked for"
  | .version => "the version is asked for"
  | .unknownArgument => "unexpected argument"
  | .unknownCommand => "unrecognized subcommand"
  | .missingValue => "a value is required"
  | .unknownValue => "invalid value"
  | .notNumber => "a value is not a number"
  | .repeated => "an argument cannot be used multiple times"
  | .surplusValue => "unexpected value"

/-- Reads a file. -/
def fileText (path : String) : IO (Except FileError String) := do
  try
    match String.fromUTF8? (← IO.FS.readBinFile path) with
    | some text => return .ok text
    | none => return .error .notText
  catch
    | .noFileOrDirectory .. => return .error .missing
    | .inappropriateType _ code _ => return .error (if code = 20 then .notFolder else .folder)
    | e => return .error (.other (toString e))

/-- The files that hold one path, read now. -/
def filesAt : Option String → IO Files
  | some path => do
    let text ← fileText path
    return fun _ => text
  | none => return fun _ => .error .missing

/-- The variables of the environment that settings depend on. -/
def readEnvironment : IO (String → Option String) := do
  let found ← Settings.variableNames.filterMapM fun name => do
    return (← IO.getEnv name).map ((name, ·))
  return fun name => found.lookup name

/-- Writes what an evaluation logged and showed, and why it failed. -/
def report {α : Type} (e : Evaluation Failure α) (shown : List String) : IO Unit := do
  e.log.forM fun message => IO.eprintln message
  shown.forM fun line => IO.println line
  (← IO.getStdout).flush
  match e.outcome with
  | .ok _ => return
  | .error f =>
    match f with
    | .source d =>
      IO.eprintln s!"{d.cause.code}: {f.message}"
      d.cause.help?.forM fun help => IO.eprintln s!"help: {help}"
    | _ => IO.eprintln f.message

/-- Responds to the lines of the input, where `pending` is what was read of the entry at hand. -/
partial def converseWith (input : IO.FS.Stream) (s : State) (pending : String) : IO Unit := do
  let line ← input.getLine
  if line.isEmpty then return
  let text := dropLineEnd (pending ++ line)
  if !isFinished text then converseWith input s (pending ++ line)
  else
    let path :=
      match Command.ofLine text with
      | .load path => some path
      | _ => none
    let e := respond (← filesAt path) s text
    report e (shown e)
    match e.outcome with
    | .ok .quit => return
    | _ => converseWith input e.state ""

/-- Does what an invocation asks for, and gives the exit code. -/
def perform (i : Invocation) : IO UInt32 := do
  let found := Settings.ofEnvironment (← readEnvironment)
  found.warnings.forM fun warning => IO.eprintln warning
  let s : State := .new (i.settings found.settings)
  if i.isConversation then
    greeting.forM fun line => IO.println line
    (← IO.getStdout).flush
    converseWith (← IO.getStdin) s ""
    return 0
  else
    let e := executeAll (← filesAt i.file) i s
    report e e.printed
    return if e.outcome.toBool then 0 else 1

end ForkLisp.CommandLine

open ForkLisp.CommandLine in
/-- Runs the program. -/
def main (args : List String) : IO UInt32 := do
  match readArguments args with
  | .ok i => perform i
  | .error .help =>
    usage.forM fun line => IO.println line
    return 0
  | .error .version =>
    IO.print versionText
    return 0
  | .error r =>
    IO.eprintln s!"error: {refusalText r}"
    return 2
