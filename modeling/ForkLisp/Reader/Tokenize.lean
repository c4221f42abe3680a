/-
Splitting a text into tokens.

A lexeme is a parenthesis or a maximal run of atom characters; layout and comments stand between
lexemes. `lexemes` finds all of them and what it cannot read past: a blank that is no layout.
`tokenize` then classifies each lexeme. A text that stops short of its end is refused before any
lexeme is classified.
-/
import ForkLisp.Reader.Token
import ForkLisp.Text.Blank

namespace ForkLisp.Reader

open ForkLisp.Numeric ForkLisp.Source

/-- Why a text does not split into tokens. -/
inductive LexicalError where
  /-- A character that starts no token. -/
  | unexpected (token : Token)
  /-- A whole number that does not fit in 64 bits. -/
  | outOfRange (token : Token)
  deriving DecidableEq

/-- A character that an atom may hold. -/
def isAtomChar (c : Char) : Bool :=
  !Text.isBlank c && c != '(' && c != ')' && c != ';'

/-- A character that a comment may hold. -/
def isCommentChar (c : Char) : Bool :=
  c != '\r' && c != '\n'

/-- A lexeme and the position of its first character. -/
structure Lexeme where
  position : Position
  text : List Char
  deriving DecidableEq

/-- The range of a lexeme. -/
def Lexeme.range (l : Lexeme) : Range := .onLine l.position l.text.length

/-- The lexemes of a text, with the place where reading stopped and the text from there on. -/
structure Lexemes where
  found : List Lexeme
  stop : Position
  rest : List Char

/-- Adds a lexeme in front. -/
def Lexemes.push (l : Lexeme) (ls : Lexemes) : Lexemes := { ls with found := l :: ls.found }

theorem length_dropWhile_le (p : Char → Bool) (cs : List Char) :
    (cs.dropWhile p).length ≤ cs.length :=
  (List.dropWhile_sublist p).length_le

/-- The lexemes from the position `here` on. -/
def lexemes (here : Position) : List Char → Lexemes
  | [] => ⟨[], here, []⟩
  | c :: cs =>
    if Text.isLayout c then lexemes (here.next c) cs
    else if c = ';' then
      lexemes ((here.next c).advance (cs.takeWhile isCommentChar)) (cs.dropWhile isCommentChar)
    else if c = '(' || c = ')' then (lexemes (here.next c) cs).push ⟨here, [c]⟩
    else if isAtomChar c then
      (lexemes ((here.next c).advance (cs.takeWhile isAtomChar)) (cs.dropWhile isAtomChar)).push
        ⟨here, c :: cs.takeWhile isAtomChar⟩
    else ⟨[], here, c :: cs⟩
termination_by cs => cs.length
decreasing_by
  · simp
  · exact Nat.lt_succ_of_le (length_dropWhile_le _ _)
  · simp
  · exact Nat.lt_succ_of_le (length_dropWhile_le _ _)

/-- The token of a lexeme. -/
def Lexeme.token (l : Lexeme) : Except LexicalError Token :=
  if l.text = ['('] then .ok ⟨l.range, .openParen⟩
  else if l.text = [')'] then .ok ⟨l.range, .closeParen⟩
  else
    match TokenKind.ofAtom? l.text with
    | some kind => .ok ⟨l.range, kind⟩
    | none => .error (.outOfRange ⟨l.range, .symbol (String.ofList l.text)⟩)

/-- The tokens of a text in order. -/
def tokenize (source : String) : Except LexicalError (List Token) :=
  let ls := lexemes .start source.toList
  if ls.rest.isEmpty then ls.found.mapM Lexeme.token
  else .error (.unexpected ⟨.onLine ls.stop ls.rest.length, .endOfInput⟩)

end ForkLisp.Reader
