/-
Arguments.

Arguments are read from left to right. The value of a flag and the name of the file are looked at
only when the next flag or name comes, or at the end (`Progress.settle`), so an argument that is not
known is reported before a value in front of it that is wrong. After a double dash every argument is
a name.
-/
import ForkLisp.CommandLine.Invocation
import ForkLisp.Text.Similarity

namespace ForkLisp.CommandLine

/-- What was read and is still to be looked at. -/
inductive Pending where
  | nothing
  /-- A parameter and its value, once that is read. -/
  | parameter (p : Parameter) (value : Option String)
  | file (path : String)
  deriving DecidableEq, Repr

/-- How far the arguments are read. -/
structure Progress where
  invocation : Invocation
  pending : Pending
  deriving DecidableEq, Repr

/-- The names of commands. -/
def commandNames : List String := ["repl", "help"]

/-- Why a name that is one too many is refused: it may be a command that is misspelt. -/
def surplusName (afterDashes : Bool) (a : String) : Refusal :=
  if afterDashes ∧ a ∈ commandNames then .unknownArgument
  else if commandNames.any fun c => Text.isSimilar a.toList c.toList then .unknownCommand
  else .unknownArgument

namespace Progress

/-- Whether the next argument is the value of a parameter. -/
def isAwaiting (p : Progress) : Bool :=
  match p.pending with
  | .parameter _ none => true
  | _ => false

/-- Whether a file is named. -/
def hasFile (p : Progress) : Bool :=
  match p.pending with
  | .file _ => true
  | _ => p.invocation.file.isSome

/-- Looks at what is pending. -/
def settle (p : Progress) : Except Refusal Invocation :=
  match p.pending with
  | .nothing => .ok p.invocation
  | .parameter _ none => .error .missingValue
  | .parameter q (some value) => p.invocation.assign value q
  | .file path => p.invocation.withFile path

/-- Takes a flag with the value that is attached to it. -/
def takeFlag (p : Progress) (attached : Option String) : Flag → Except Refusal Progress
  | .parameter q => do
    let i ← p.settle
    match attached with
    | some value => return ⟨← i.assign value q, .nothing⟩
    | none => return ⟨i, .parameter q none⟩
  | .switch s =>
    if attached.isSome then .error .surplusValue
    else do return ⟨← (← p.settle).turnOn s, .nothing⟩
  | .help =>
    if attached.isSome then .error .surplusValue
    else do
      let _ ← p.settle
      .error .help
  | .version =>
    if attached.isSome then .error .surplusValue
    else do
      let _ ← p.settle
      .error .version

/-- Takes a flag by its long name, to which an equals sign can attach a value. -/
def takeLong (p : Progress) (cs : List Char) : Except Refusal Progress :=
  match Flag.ofLong? (String.ofList (cs.takeWhile (· ≠ '='))) with
  | none => .error .unknownArgument
  | some flag =>
    p.takeFlag ((cs.dropWhile (· ≠ '=')).tail?.map String.ofList) flag

/-- Takes flags by their short names. What follows a parameter is its value, behind an equals sign
or without one. -/
def takeShort (p : Progress) : List Char → Except Refusal Progress
  | [] => .ok p
  | c :: cs =>
    match Flag.ofShort? c with
    | none => .error .unknownArgument
    | some (.parameter q) =>
      let attached : Option (List Char) :=
        match cs with
        | [] => none
        | '=' :: value => some value
        | value => some value
      p.takeFlag (attached.map String.ofList) (.parameter q)
    | some flag =>
      match p.takeFlag none flag with
      | .ok p => takeShort p cs
      | .error e => .error e

/-- Takes a name, of which there is at most one. -/
def takeName (p : Progress) (afterDashes : Bool) (a : String) : Except Refusal Progress :=
  if p.hasFile then .error (surplusName afterDashes a)
  else do return ⟨← p.settle, .file a⟩

/-- Takes an argument that is no flag: the value that is awaited, or else a name. -/
def takePlain (p : Progress) (a : String) : Except Refusal Progress :=
  match p.pending with
  | .parameter q none => .ok { p with pending := .parameter q (some a) }
  | _ => p.takeName false a

end Progress

/-- Reads the arguments after a double dash. -/
def readNames (p : Progress) : List String → Except Refusal Invocation
  | [] => p.settle
  | a :: as =>
    match p.takeName true a with
    | .ok p => readNames p as
    | .error e => .error e

/-- Why arguments that start with the help command do not lead to a run. -/
def helpOn : List String → Refusal
  | [] => .help
  | [a] => if a ∈ commandNames then .help else .unknownCommand
  | _ => .unknownCommand

/-- Reads the arguments of the conversation command, which has no flag but the one for help. -/
def readShell : List String → Except Refusal Unit
  | [] => .ok ()
  | a :: as =>
    match a.toList with
    | ['-', '-'] => if as.isEmpty then .ok () else .error .unknownArgument
    | '-' :: '-' :: cs =>
      if cs = "help".toList then .error .help
      else if "help=".toList.isPrefixOf cs then .error .surplusValue
      else .error .unknownArgument
    | '-' :: 'h' :: _ => .error .help
    | _ => .error .unknownArgument

/-- Reads arguments. -/
def readFrom (p : Progress) : List String → Except Refusal Invocation
  | [] => p.settle
  | a :: as =>
    if !p.isAwaiting && a == "help" then .error (helpOn as)
    else if !p.isAwaiting && a == "repl" then do
      readShell as
      return { ← p.settle with shell := true }
    else
      match a.toList with
      | ['-', '-'] => readNames p as
      | '-' :: '-' :: cs =>
        match p.takeLong cs with
        | .ok p => readFrom p as
        | .error e => .error e
      | '-' :: c :: cs =>
        match p.takeShort (c :: cs) with
        | .ok p => readFrom p as
        | .error e => .error e
      | _ =>
        match p.takePlain a with
        | .ok p => readFrom p as
        | .error e => .error e

/-- Reads the arguments of the program. -/
def readArguments (args : List String) : Except Refusal Invocation :=
  readFrom ⟨{}, .nothing⟩ args

end ForkLisp.CommandLine
