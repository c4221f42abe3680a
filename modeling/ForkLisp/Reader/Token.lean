/-
Tokens.

A token is a parenthesis, a number, a symbol or the end of the input, with its range. Tokens are
told apart by `TokenKind.ofAtom?`, the reading of an atom: a whole number that must fit in 64 bits,
a decimal number, or else a symbol in lower case.
-/
import ForkLisp.Numeric.Layout
import ForkLisp.Source.Position
import ForkLisp.Text.Lowercase

namespace ForkLisp.Reader

open ForkLisp.Numeric ForkLisp.Source

/-- What a token stands for. -/
inductive TokenKind where
  | openParen
  | closeParen
  | int (value : Int64)
  | float (value : Binary64)
  | symbol (name : String)
  | endOfInput
  deriving DecidableEq

/-- A token and the place it was read from. -/
structure Token where
  range : Range
  kind : TokenKind
  deriving DecidableEq

namespace TokenKind

/-- A token as messages show it. -/
def text : TokenKind → String
  | openParen => "("
  | closeParen => ")"
  | int value => intText value
  | float value => value.text .plain
  | symbol name => name
  | endOfInput => ""

/-- Whether an atom is to be read as a number if it can be: a digit, or a sign and a
digit, leads. -/
def looksNumeric (atom : List Char) : Bool :=
  match (splitSign atom).2 with
  | c :: _ => c.isDigit
  | [] => false

/-- The characters that may follow the sign of a decimal number. -/
def isDecimalChar (c : Char) : Bool :=
  c.isDigit || c == '.' || c == 'e' || c == 'E' || c == '+' || c == '-'

/-- The symbol that an atom spells; letter case does not count. -/
def foldedSymbol (atom : List Char) : TokenKind :=
  symbol (Text.lowercase (String.ofList atom))

/-- The kind of an atom, or `none` for a whole number that does not fit in 64 bits. -/
def ofAtom? (atom : List Char) : Option TokenKind :=
  let body := (splitSign atom).2
  if !looksNumeric atom then some (foldedSymbol atom)
  else if body.all Char.isDigit then (readInt64? atom).map int
  else if body.contains '.' && body.all isDecimalChar then
    match Decimal.ofChars? atom with
    | some d => some (float d.toBinary64)
    | none => some (foldedSymbol atom)
  else some (foldedSymbol atom)

end TokenKind

end ForkLisp.Reader
