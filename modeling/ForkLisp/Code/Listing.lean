/-
Code listings.

`words` is the size of code in machine words. `listing` writes one numbered instruction on each
line.
-/
import ForkLisp.Code.Inst

namespace ForkLisp.Code

open ForkLisp.Numeric

/-- The size of some instructions in machine words. -/
def wordsOf (is : List Inst) : Nat :=
  is.foldr (fun i n => i.width + n) 0

/-- The size of code in machine words. -/
def words (code : Code) : Nat :=
  wordsOf code.toList

/-- A number that is padded with spaces in front to four characters. -/
def lineNumber (n : Nat) : String :=
  let digits := natDigits n
  String.ofList (List.replicate (4 - digits.length) ' ' ++ digits)

/-- One line of a listing. -/
def listingLine (n : Nat) (i : Inst) : String :=
  lineNumber n ++ ": " ++ i.text

/-- The lines of a listing that starts at number `n`. -/
def listingLines (n : Nat) : List Inst → List String
  | [] => []
  | i :: is => listingLine n i :: listingLines (n + 1) is

/-- A numbered listing. -/
def listing (code : Code) : String :=
  "\n".intercalate (listingLines 0 code.toList)

end ForkLisp.Code
