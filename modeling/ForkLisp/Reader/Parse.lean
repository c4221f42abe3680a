/-
Building forms from tokens.

`build` reads tokens from left to right and keeps the lists that are still open, each with its items
so far. A closing parenthesis closes the last of them. `read` reads a whole text.
-/
import ForkLisp.Reader.Form
import ForkLisp.Reader.Tokenize

namespace ForkLisp.Reader

open ForkLisp.Numeric ForkLisp.Source

/-- Why tokens do not make forms. -/
inductive SyntaxError where
  /-- A token that starts no form, such as a parenthesis that closes nothing. -/
  | unexpected (token : Token)
  /-- The input ended where a form has to start. -/
  | unexpectedEnd
  /-- A list that is never closed, named by the parenthesis that opens it. -/
  | unclosed (opening : Token)
  deriving DecidableEq

/-- Why a text cannot be read. -/
inductive ReadError where
  | lexical (error : LexicalError)
  | grammatical (error : SyntaxError)
  deriving DecidableEq

/-- A list that has been opened: its parenthesis and its items so far, the last one first. -/
structure OpenList where
  opening : Token
  items : List Form

/-- Forms under construction: the finished ones, the last one first, and the open lists, the inner
ones first. -/
structure Forest where
  finished : List Form
  pending : List OpenList

namespace Forest

/-- No forms yet. -/
def empty : Forest := ⟨[], []⟩

/-- Adds a form to the innermost open list, or to the finished forms. -/
def add (f : Form) : Forest → Forest
  | ⟨finished, []⟩ => ⟨f :: finished, []⟩
  | ⟨finished, l :: ls⟩ => ⟨finished, { l with items := f :: l.items } :: ls⟩

/-- Takes in one token. -/
def step (forest : Forest) (t : Token) : Except SyntaxError Forest :=
  match t.kind with
  | .openParen => .ok { forest with pending := ⟨t, []⟩ :: forest.pending }
  | .closeParen =>
    match forest.pending with
    | [] => .error (.unexpected t)
    | l :: ls =>
      .ok (add (.list (l.opening.range.merge t.range) l.items.reverse)
        { forest with pending := ls })
  | .int value => .ok (forest.add (.int t.range value))
  | .float value => .ok (forest.add (.float t.range value))
  | .symbol name => .ok (forest.add (.symbol t.range name))
  | .endOfInput => .error .unexpectedEnd

/-- The forms, if every list is closed. -/
def close (forest : Forest) : Except SyntaxError (List Form) :=
  match forest.pending with
  | [] => .ok forest.finished.reverse
  | l :: _ => .error (.unclosed l.opening)

end Forest

/-- The forms that a list of tokens makes. -/
def build (tokens : List Token) : Except SyntaxError (List Form) := do
  (← tokens.foldlM Forest.step .empty).close

/-- The forms of a text. -/
def read (source : String) : Except ReadError (List Form) :=
  match tokenize source with
  | .error e => .error (.lexical e)
  | .ok tokens =>
    match build tokens with
    | .error e => .error (.grammatical e)
    | .ok forms => .ok forms

end ForkLisp.Reader
