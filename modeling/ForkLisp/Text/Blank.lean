/-
White space.

`isBlank` is the property White_Space of characters: it ends an atom. `isLayout` is the smaller
class of blanks that may stand between two tokens. Every layout character is blank
(`isBlank_of_isLayout`).
-/

namespace ForkLisp.Text

/-- The twenty-five characters with the property White_Space. -/
def isBlank (c : Char) : Bool :=
  let n := c.toNat
  (0x09 ≤ n && n ≤ 0x0D) || n == 0x20 || n == 0x85 || n == 0xA0 || n == 0x1680
    || (0x2000 ≤ n && n ≤ 0x200A) || n == 0x2028 || n == 0x2029 || n == 0x202F
    || n == 0x205F || n == 0x3000

/-- The blanks that separate tokens: space, tab and the two line-end characters. -/
def isLayout (c : Char) : Bool :=
  c == ' ' || c == '\t' || c == '\r' || c == '\n'

theorem isBlank_of_isLayout {c : Char} (h : isLayout c = true) : isBlank c = true := by
  simp only [isLayout, Bool.or_eq_true, beq_iff_eq] at h
  rcases h with ((h | h) | h) | h <;> subst h <;> decide

end ForkLisp.Text
