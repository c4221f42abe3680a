/-
Completion of names.

The word to complete is the longest run of characters without blanks and parentheses in front of the
cursor. A word that starts the line with a colon is completed to a command, any other to a function,
a global or a keyword.
-/
import ForkLisp.Session.Evaluate
import ForkLisp.Shell.Command

namespace ForkLisp.Shell

open ForkLisp.Session

/-- The words of the language. -/
def keywords : List String := ["defun", "setq", "if", "print", "mod", "t", "nil"]

/-- The names that complete a word, and the byte at which the word starts. -/
structure Completion where
  start : Nat
  names : List String
  deriving DecidableEq, Repr

/-- The number of bytes of some characters. -/
def byteCount (cs : List Char) : Nat :=
  cs.foldr (fun c n => c.utf8Size + n) 0

/-- The characters that make up the first bytes of a text, if no character is cut in two and the
text is long enough. -/
def takeBytes? : Nat → List Char → Option (List Char)
  | 0, _ => some []
  | _ + 1, [] => none
  | n + 1, c :: cs =>
    if c.utf8Size ≤ n + 1 then (takeBytes? (n + 1 - c.utf8Size) cs).map (c :: ·) else none

/-- Whether a character ends the word behind it. -/
def isDelimiter (c : Char) : Bool :=
  Text.isBlank c || c == '(' || c == ')'

/-- The word at the end of some characters, and the characters in front of it from the last to the
first. -/
def lastWord (cs : List Char) : List Char × List Char :=
  let back := cs.reverse
  ((back.takeWhile (!isDelimiter ·)).reverse, back.dropWhile (!isDelimiter ·))

/-- The names that start with a word. -/
def startingWith (word : List Char) (names : List String) : List String :=
  names.filter fun name => word.isPrefixOf name.toList

/-- The functions, globals and keywords that start with a word, each once and in order. -/
def namesStartingWith (s : State) (word : List Char) : List String :=
  let known := s.functions.map (·.name) ++ s.globals.map (·.name) ++ keywords
  (startingWith word known).eraseDups.mergeSort (· ≤ ·)

/-- Completes the word in front of byte `position` of a line. There is no completion inside a
character or behind the line, nor if the character in front of the word takes more than one byte. -/
def complete? (s : State) (line : String) (position : Nat) : Option Completion :=
  (takeBytes? position line.toList).bind fun cs =>
    let (word, front) := lastWord cs
    let lowered := (Text.lowercase (String.ofList word)).toList
    match front with
    | [] =>
      if lowered.head? = some ':' then
        some ⟨0, startingWith lowered (Command.offered.map (·.name))⟩
      else some ⟨0, namesStartingWith s lowered⟩
    | c :: _ =>
      if c.utf8Size = 1 then some ⟨byteCount front.reverse, namesStartingWith s lowered⟩ else none

end ForkLisp.Shell
