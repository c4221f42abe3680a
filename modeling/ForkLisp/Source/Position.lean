/-
Positions and ranges of source text.

A position is a line and a column, both counted from one; a column counts characters. A range is
half open. `Range.merge` is the smallest range that covers two, and `Range.compare` orders ranges
by their start and then by their end.
-/

namespace ForkLisp.Source

/-- A place between two characters of a text. -/
structure Position where
  line : Nat
  column : Nat
  deriving DecidableEq, Repr

namespace Position

/-- The front of a text. -/
def start : Position := ⟨1, 1⟩

/-- The position after a character. -/
def next (p : Position) (c : Char) : Position :=
  if c = '\n' then ⟨p.line + 1, 1⟩ else ⟨p.line, p.column + 1⟩

/-- The position after a text. -/
def advance (p : Position) (cs : List Char) : Position :=
  cs.foldl next p

@[simp] theorem advance_nil (p : Position) : p.advance [] = p := rfl

@[simp] theorem advance_cons (p : Position) (c : Char) (cs : List Char) :
    p.advance (c :: cs) = (p.next c).advance cs := rfl

theorem advance_append (p : Position) (cs ds : List Char) :
    p.advance (cs ++ ds) = (p.advance cs).advance ds := by
  simp [advance]

/-- Earlier lines first, and on a line earlier columns first. -/
def compare (p q : Position) : Ordering :=
  (Ord.compare p.line q.line).then (Ord.compare p.column q.column)

def min (p q : Position) : Position := if q.compare p = .lt then q else p
def max (p q : Position) : Position := if q.compare p = .lt then p else q

end Position

/-- The text from `start` up to, but without, `stop`. -/
structure Range where
  start : Position
  stop : Position
  deriving DecidableEq, Repr

namespace Range

/-- The empty range at the front of a text. -/
def front : Range := ⟨.start, .start⟩

/-- The range of `width` characters on one line. -/
def onLine (p : Position) (width : Nat) : Range := ⟨p, ⟨p.line, p.column + width⟩⟩

/-- The smallest range that covers both. -/
def merge (a b : Range) : Range := ⟨a.start.min b.start, a.stop.max b.stop⟩

def compare (a b : Range) : Ordering :=
  (a.start.compare b.start).then (a.stop.compare b.stop)

/-- A range as its two positions. -/
def text (r : Range) : String :=
  s!"{r.start.line}:{r.start.column}-{r.stop.line}:{r.stop.column}"

end Range

end ForkLisp.Source
