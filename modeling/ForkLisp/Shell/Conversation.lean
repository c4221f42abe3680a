/-
Conversations.

A conversation reads the lines of its input. An entry goes on over several lines until its forms are
closed (`isFinished`); then the shell responds, and what it shows follows what the entry printed.
Failures are not part of what is shown, and an entry that is never finished is dropped.
-/
import ForkLisp.Shell.Respond

namespace ForkLisp.Shell

open ForkLisp.Reader ForkLisp.Session

/-- Whether a text stops in the middle of a form. -/
def isUnfinished (text : String) : Bool :=
  match read text with
  | .error (.grammatical (.unclosed _)) => true
  | .error (.grammatical .unexpectedEnd) => true
  | _ => false

/-- Whether an entry can be responded to: its forms are closed, it is a command, or two line ends
close it by force. -/
def isFinished (text : String) : Bool :=
  let cs := text.toList
  cs.isEmpty || cs.head? == some ':' || ['\n', '\n'].isSuffixOf cs || !isUnfinished text

/-- Drops one line feed from the end of a text, and then one carriage return. -/
def dropLineEnd (text : String) : String :=
  match text.toList.reverse with
  | '\n' :: '\r' :: cs => String.ofList cs.reverse
  | '\n' :: cs => String.ofList cs.reverse
  | _ => text

/-- Splits a text into lines, which keep their line feeds. -/
def splitLines : List Char → List (List Char)
  | [] => []
  | c :: cs =>
    if c = '\n' then [c] :: splitLines cs
    else
      match splitLines cs with
      | [] => [[c]]
      | l :: ls => (c :: l) :: ls

/-- The lines of a text. -/
def physicalLines (text : String) : List String :=
  (splitLines text.toList).map String.ofList

/-- The entries that some lines make up, where `pending` is what was read of the first. -/
def entriesFrom (pending : String) : List String → List String
  | [] => []
  | line :: lines =>
    let text := dropLineEnd (pending ++ line)
    if isFinished text then text :: entriesFrom "" lines else entriesFrom (pending ++ line) lines

/-- The entries of a text. -/
def entries (text : String) : List String :=
  entriesFrom "" (physicalLines text)

/-- What is shown of a reply, line by line. -/
def Reply.shown : Reply → List String
  | values vs => vs.map (·.text)
  | lines [] => [""]
  | lines ls => ls
  | quit => []
  | nothing => []

/-- Shows the reply of an evaluation behind what it printed. -/
def shown (e : Evaluation Failure Reply) : List String :=
  e.printed ++
    match e.outcome with
    | .ok r => r.shown
    | .error _ => []

/-- Responds to entries in order up to the one that quits. -/
def respondAll (files : Files) (s : State) : List String → Evaluation Failure Unit
  | [] => ⟨s, [], [], .ok ()⟩
  | entry :: more =>
    let e := respond files s entry
    match e.outcome with
    | .ok .quit => ⟨e.state, e.log, shown e, .ok ()⟩
    | _ => (respondAll files e.state more).after e.log (shown e)

/-- What a conversation starts with. -/
def greeting : List String :=
  ["No previous history.", s!"Welcome to plisp {version}. For help, type :help"]

/-- A conversation over an input text. -/
def converse (files : Files) (s : State) (input : String) : Evaluation Failure Unit :=
  (respondAll files s (entries input)).after [] greeting

end ForkLisp.Shell
