/-
Places and their bytes.

Going on in a text never leads back. So the walk that looks for the place of a character stops just
there, and the bytes that it counts are those of the text before the character (`offsetOf_advance`).
A walk to as many columns further on as the rest of the text has characters goes to the end,
whatever lines the rest has (`offsetOf_rest`).
-/
import Mathlib
import ForkLisp.Source.Offset

namespace ForkLisp.Source

/-- A place is on an earlier line, or before another one on the same line. -/
def Position.Before (p q : Position) : Prop :=
  p.line < q.line ∨ p.line = q.line ∧ p.column < q.column

/-- How many bytes a text has. -/
def bytes (cs : List Char) : Nat := (cs.map Char.utf8Size).sum

@[simp] theorem bytes_nil : bytes [] = 0 := rfl

@[simp] theorem bytes_cons (c : Char) (cs : List Char) :
    bytes (c :: cs) = c.utf8Size + bytes cs := by
  simp [bytes]

@[simp] theorem bytes_append (cs ds : List Char) : bytes (cs ++ ds) = bytes cs + bytes ds := by
  simp [bytes]

variable {p q r : Position}

theorem Position.Before.trans (h : p.Before q) (h' : q.Before r) : p.Before r := by
  unfold Position.Before at *
  omega

theorem Position.compare_eq_lt : p.compare q = .lt ↔ p.Before q := by
  unfold Position.compare Position.Before
  rw [Ordering.then_eq_lt, Nat.compare_eq_lt, Nat.compare_eq_eq, Nat.compare_eq_lt]

theorem Position.before_next (p : Position) (c : Char) : p.Before (p.next c) := by
  unfold Position.Before Position.next
  split
  · exact .inl (Nat.lt_succ_self _)
  · exact .inr ⟨rfl, Nat.lt_succ_self _⟩

theorem Position.before_advance (p : Position) {cs : List Char} (h : cs ≠ []) :
    p.Before (p.advance cs) := by
  induction cs generalizing p with
  | nil => exact absurd rfl h
  | cons c cs ih =>
    rw [Position.advance_cons]
    by_cases hcs : cs = []
    · subst hcs
      exact p.before_next c
    · exact (p.before_next c).trans (ih (p.next c) hcs)

/-- A place is not before a target on either axis, so that the walk to the target
would stop there. -/
def Position.Reaches (p target : Position) : Prop := target.line ≤ p.line ∧ target.column ≤ p.column

theorem Position.Before.not_reaches (h : p.Before q) : ¬ p.Reaches q := by
  unfold Position.Before at h
  unfold Position.Reaches
  omega

/-- The walk goes on as long as it does not reach its target. -/
theorem bytesUpTo_append {target : Position} (front back : List Char)
    (h : ∀ i, i < front.length → ¬ (p.advance (front.take i)).Reaches target) :
    bytesUpTo target p (front ++ back) = bytes front + bytesUpTo target (p.advance front) back := by
  induction front generalizing p with
  | nil => rw [bytes_nil, Nat.zero_add]; rfl
  | cons c cs ih =>
    have hfirst : ¬ p.Reaches target := h 0 (Nat.succ_pos _)
    have hnext : ∀ i, i < cs.length → ¬ ((p.next c).advance (cs.take i)).Reaches target :=
      fun i hi => h (i + 1) (Nat.succ_lt_succ hi)
    rw [List.cons_append, bytesUpTo, if_neg (by exact hfirst), ih hnext, bytes_cons, Nat.add_assoc,
      Position.advance_cons]

/-- Places before a part of a text are before the place of it. -/
theorem before_advance_take {front : List Char} {i : Nat} (hi : i < front.length) :
    (p.advance (front.take i)).Before (p.advance front) := by
  have hback : front.drop i ≠ [] := List.ne_nil_of_length_pos (by rw [List.length_drop]; omega)
  have hsplit : p.advance front = (p.advance (front.take i)).advance (front.drop i) := by
    rw [← Position.advance_append, List.take_append_drop]
  rw [hsplit]
  exact Position.before_advance _ hback

/-- The offset of the place behind a part of a text is the number of its bytes. -/
theorem offsetOf_advance (source : String) (front back : List Char)
    (h : source.toList = front ++ back) :
    offsetOf source (Position.start.advance front) = bytes front := by
  unfold offsetOf
  rw [h, bytesUpTo_append front back fun i hi => (before_advance_take hi).not_reaches]
  cases back with
  | nil => rfl
  | cons c cs => rw [bytesUpTo, if_pos ⟨Nat.le_refl _, Nat.le_refl _⟩, Nat.add_zero]

/-- Every character takes a walk at most one column further. -/
theorem column_advance_le (p : Position) (cs : List Char) :
    (p.advance cs).column ≤ p.column + cs.length := by
  induction cs generalizing p with
  | nil => exact Nat.le_refl _
  | cons c cs ih =>
    have hnext : (p.next c).column ≤ p.column + 1 := by
      unfold Position.next
      split
      · exact Nat.le_add_left _ _
      · exact Nat.le_refl _
    rw [Position.advance_cons, List.length_cons]
    have hrest := ih (p.next c)
    omega

/-- The offset of the place that lies as many columns further on as the rest of a text has
characters is the end of the text. -/
theorem offsetOf_rest (source : String) (front rest : List Char)
    (h : source.toList = front ++ rest) :
    offsetOf source
        ⟨(Position.start.advance front).line, (Position.start.advance front).column + rest.length⟩ =
      bytes source.toList := by
  generalize hp : Position.start.advance front = p
  have hwalk : bytesUpTo ⟨p.line, p.column + rest.length⟩ .start (front ++ rest ++ []) =
      bytes (front ++ rest) + 0 :=
    bytesUpTo_append (front ++ rest) [] fun i hi => by
      by_cases hfront : i < front.length
      · have hbefore := before_advance_take (p := .start) hfront
        rw [hp] at hbefore
        rw [List.take_append_of_le_length (Nat.le_of_lt hfront)]
        refine Position.Before.not_reaches ?_
        unfold Position.Before at *
        dsimp only
        omega
      · obtain ⟨k, rfl⟩ := Nat.exists_eq_add_of_le (Nat.le_of_not_lt hfront)
        rw [List.length_append] at hi
        rw [List.take_length_add_append, Position.advance_append, hp]
        have hcolumn := column_advance_le p (rest.take k)
        rw [List.length_take] at hcolumn
        rintro ⟨-, hle⟩
        dsimp only at hle
        omega
  rw [List.append_nil, Nat.add_zero] at hwalk
  unfold offsetOf
  rw [h]
  exact hwalk

/-- The bytes of the characters of a text are all of its bytes. -/
theorem bytes_toList (source : String) : bytes source.toList = source.utf8ByteSize := by
  have hlen : ∀ cs : List Char, bytes cs = String.utf8Len cs := by
    intro cs
    induction cs with
    | nil => rfl
    | cons c cs ih => rw [bytes_cons, ih, String.utf8Len_cons, Nat.add_comm]
  rw [hlen, String.utf8Len_toList]

end ForkLisp.Source
