/-
Words.

The words of a text are its longest runs of characters that are not blank. Together they are the
text without its blanks (`flatten_words`).
-/
import ForkLisp.Text.Blank

namespace ForkLisp.Text

/-- The word at the front of a text, which may be empty, and the words behind it. -/
def frontWord : List Char → List Char × List (List Char)
  | [] => ([], [])
  | c :: cs =>
    let (w, ws) := frontWord cs
    if isBlank c then ([], if w = [] then ws else w :: ws) else (c :: w, ws)

/-- The words of a text. -/
def words (cs : List Char) : List (List Char) :=
  let (w, ws) := frontWord cs
  if w = [] then ws else w :: ws

theorem flatten_frontWord (cs : List Char) :
    (frontWord cs).1 ++ (frontWord cs).2.flatten = cs.filter (!isBlank ·) := by
  induction cs with
  | nil => simp [frontWord]
  | cons c cs ih =>
    by_cases hc : isBlank c
    · by_cases hw : (frontWord cs).1 = [] <;> simp_all [frontWord]
    · simp [frontWord, hc, ih]

/-- The words make up all that is not blank. -/
theorem flatten_words (cs : List Char) : (words cs).flatten = cs.filter (!isBlank ·) := by
  rw [← flatten_frontWord cs]
  by_cases hw : (frontWord cs).1 = [] <;> simp [words, hw]

end ForkLisp.Text
