/-
Lowercase text.

`lowercase` maps every character of a text to its lowercase form. Two characters are special:
capital I with a dot becomes two characters, and capital sigma becomes the final form of sigma at
the end of a word and the ordinary one elsewhere (`endsWord`).
-/
import ForkLisp.Text.CaseTable

namespace ForkLisp.Text

/-- Whether a code point lies in one of the ranges. -/
def inRanges (ranges : List (Nat × Nat)) (n : Nat) : Bool :=
  ranges.any fun r => r.1 ≤ n && n ≤ r.2

def isCased (c : Char) : Bool :=
  inRanges casedRanges c.toNat

def isCaseIgnorable (c : Char) : Bool :=
  inRanges caseIgnorableRanges c.toNat

/-- Whether a code point belongs to the run. -/
def CaseRun.contains (r : CaseRun) (n : Nat) : Bool :=
  r.first ≤ n && n ≤ r.last && (n - r.first) % r.step == 0

/-- The lowercase characters of one character outside a word's context. -/
def lowercaseChar (c : Char) : List Char :=
  if c.toNat < 0x80 then [c.toLower]
  else if c.toNat = 0x130 then ['i', Char.ofNat 0x307]
  else
    match lowercaseRuns.find? (·.contains c.toNat) with
    | some r => [Char.ofNat (r.target + (c.toNat - r.first))]
    | none => [c]

/-- Whether a cased character comes first, once the characters that do not count are dropped. -/
def startsCased (cs : List Char) : Bool :=
  match cs.dropWhile isCaseIgnorable with
  | [] => false
  | c :: _ => isCased c

/-- Whether a letter between `before` (read backwards) and `after` is the last of its word. -/
def endsWord (before after : List Char) : Bool :=
  startsCased before && !startsCased after

/-- The lowercase form of `cs`, which follows the characters `before` (read backwards). -/
def lowercaseAfter (before : List Char) : List Char → List Char
  | [] => []
  | c :: cs =>
    (if c.toNat = 0x3A3 then [Char.ofNat (if endsWord before cs then 0x3C2 else 0x3C3)]
      else lowercaseChar c) ++ lowercaseAfter (c :: before) cs

/-- The lowercase form of a text. -/
def lowercase (s : String) : String :=
  String.ofList (lowercaseAfter [] s.toList)

end ForkLisp.Text
