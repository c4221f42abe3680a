/-
Byte offsets of positions.

`offsetOf` walks a text to the first place that is not before a position on either axis, and counts
the bytes up to there. `spanOf` is the bytes of a range, at least one.
-/
import ForkLisp.Source.Position

namespace ForkLisp.Source

/-- Bytes of a source text: where they start and how many they are. -/
structure Span where
  offset : Nat
  length : Nat
  deriving DecidableEq, Repr

/-- The bytes between the position `here` and `target` in `cs`. The walk stops where neither the
line nor the column of `target` lies ahead, or at the end. -/
def bytesUpTo (target : Position) : Position → List Char → Nat
  | _, [] => 0
  | here, c :: cs =>
    if target.line ≤ here.line ∧ target.column ≤ here.column then 0
    else c.utf8Size + bytesUpTo target (here.next c) cs

/-- The byte offset of a position in a text. -/
def offsetOf (source : String) (p : Position) : Nat :=
  bytesUpTo p .start source.toList

/-- The bytes of a range, or the one byte at its start if there are none. -/
def spanOf (source : String) (r : Range) : Span :=
  let start := offsetOf source r.start
  ⟨start, Nat.max 1 (offsetOf source r.stop - start)⟩

/-- The last byte of a text. -/
def lastByte (source : String) : Span := ⟨source.utf8ByteSize - 1, 1⟩

end ForkLisp.Source
