/-
Similarity of words.

The Jaro similarity of two words compares how many of their characters match, where characters match
if they are equal and not too far apart, and how many of the matching characters stand in another
order. It is a fraction between zero and one, of which only a comparison with seven tenths is
needed (`isSimilar`).
-/

namespace ForkLisp.Text

/-- A character and whether it is matched already. -/
structure Mark where
  char : Char
  matched : Bool
  deriving DecidableEq, Repr

/-- Matches a character with the first equal one that is not matched, among those at the places from
`low` to `high`, where the list starts at place `here`. -/
def matchFirst? (c : Char) (low high here : Nat) : List Mark → Option (List Mark)
  | [] => none
  | m :: ms =>
    if high < here then none
    else if low ≤ here ∧ m.char = c ∧ m.matched = false then some (⟨c, true⟩ :: ms)
    else (matchFirst? c low high (here + 1) ms).map (m :: ·)

/-- Matches characters one after another, where the first stands at place `here` and a match is at
most `reach` places away, and gives those that were matched. -/
def matchAll (reach here : Nat) : List Char → List Mark → List Char × List Mark
  | [], ms => ([], ms)
  | c :: cs, ms =>
    match matchFirst? c (here - reach) (here + reach) 0 ms with
    | none => matchAll reach (here + 1) cs ms
    | some ms' =>
      let (found, ms'') := matchAll reach (here + 1) cs ms'
      (c :: found, ms'')

/-- The characters that match in the order of the first word and in the order of the second. -/
def matching (a b : List Char) : List Char × List Char :=
  let (found, marks) := matchAll (Nat.max a.length b.length / 2 - 1) 0 a (b.map (⟨·, false⟩))
  (found, (marks.filter (·.matched)).map (·.char))

/-- Whether the similarity of two words is at least seven tenths. With `n` matches, half of the
places at which the two orders differ, rounded down, count against the third term. -/
def isSimilar (a b : List Char) : Bool :=
  let (as, bs) := matching a b
  let n := as.length
  let kept := n - ((as.zip bs).countP fun p => p.1 != p.2) / 2
  n != 0 && 21 * n * a.length * b.length
    ≤ 10 * (n * n * b.length + n * n * a.length + kept * a.length * b.length)

end ForkLisp.Text
