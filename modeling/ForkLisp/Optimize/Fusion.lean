/-
Rewriting of neighbours.

`fuse` says what two neighbouring instructions can be rewritten to, where control enters the second
one from the first only. Some rewritings need a register to be dead behind the second instruction;
`dead` tells that, or nothing if it cannot be told.
-/
import ForkLisp.Code.Operands

namespace ForkLisp.Optimize

open ForkLisp.Code

/-- What becomes of two neighbouring instructions. -/
inductive Fusion where
  /-- One instruction takes the place of both. -/
  | into (i : Inst)
  /-- The first is settled, and the second may be rewritten further. -/
  | split (first rest : Inst)
  /-- Both go. -/
  | vanish
  /-- Both stay. -/
  | apart
  deriving DecidableEq

/-- Subtracting a number is adding its negation. -/
def normalize : Inst → Inst
  | .arithConst .sub dst value => .arithConst .add dst (-value)
  | i => i

/-- The product of two positive numbers, if it does not wrap around. -/
def positiveProduct? (x y : Int64) : Option Int64 :=
  if 0 < x ∧ 0 < y ∧ x.toInt * y.toInt ≤ Int64.maxValue.toInt then some (x * y) else none

/-- The number that an operator applies at once instead of `x` and then `y`. -/
def mergeConstants? : ArithOp → ArithOp → Int64 → Int64 → Option Int64
  | .add, .add, x, y => some (x + y)
  | .mul, .mul, x, y => some (x * y)
  | .div, .div, x, y => positiveProduct? x y
  | _, _, _, _ => none

/-- Whether an instruction only writes registers and then goes on. -/
def isStraight : Inst → Bool
  | .intConst .. | .boolConst .. | .floatConst .. | .move .. | .arith .. | .arithConst ..
  | .negate .. | .load .. => true
  | _ => false

/-- An instruction without effect is dropped, and a product with zero becomes a constant. -/
def tidy : Inst → Option Inst
  | .move dst src => if dst = src then none else some (.move dst src)
  | .arithConst op dst value =>
    if op = .add ∧ value = 0 then none
    else if (op = .mul ∨ op = .div) ∧ value = 1 then none
    else if op = .mul ∧ value = 0 then some (.intConst dst 0)
    else some (.arithConst op dst value)
  | i => some i

/-- A rewriting that is made if `a` is dead. -/
def whenDead (dead : Reg → Option Bool) (a : Reg) (f : Fusion) : Option Fusion :=
  (dead a).map fun d => if d then f else .apart

/-- What becomes of a number in `a` and the instruction behind it. -/
def fuseConst (dead : Reg → Option Bool) (a : Reg) (x : Int64) : Inst → Option Fusion
  | .move dst src =>
    if src = a ∧ dst ≠ a then whenDead dead a (.into (.intConst dst x)) else some .apart
  | .arith op dst src =>
    if src = a ∧ dst ≠ a then whenDead dead a (.into (normalize (.arithConst op dst x)))
    else if dst = a ∧ src ≠ a ∧ (op = .add ∨ op = .mul) then
      some (.split (.move a src) (.arithConst op a x))
    else some .apart
  | .arithConst op dst value =>
    if dst = a then
      match op.result? x value with
      | some y => some (.into (.intConst a y))
      | none => some .apart
    else some .apart
  | .ret src => if src = a then some (.into (.retConst x)) else some .apart
  | _ => some .apart

/-- What becomes of a number in `a`, whatever its type, and the branch behind it. -/
def fuseTest (dead : Reg → Option Bool) (a : Reg) (x : Int64) : Inst → Option Fusion
  | .branch cmp offset lhs rhs =>
    if lhs ≠ rhs ∧ (lhs = a ∨ rhs = a) then
      whenDead dead a (.into
        (if rhs = a then .branchConst cmp offset lhs x
          else .branchConst cmp.reverse offset rhs x))
    else some .apart
  | .branchConst cmp offset lhs value =>
    if lhs = a then
      whenDead dead a (if cmp.holds x value then .into (.jump offset) else .vanish)
    else some .apart
  | _ => some .apart

/-- What becomes of a copy from `b` to `a` and the instruction behind it. -/
def fuseMove (dead : Reg → Option Bool) (a b : Reg) : Inst → Option Fusion
  | .move dst src =>
    if src = a ∧ dst ≠ a then whenDead dead a (.into (.move dst b)) else some .apart
  | .arith op dst src =>
    if src = a ∧ dst ≠ a then whenDead dead a (.into (.arith op dst b)) else some .apart
  | .branch cmp offset lhs rhs =>
    if lhs = a ∨ rhs = a then
      whenDead dead a (.into
        (.branch cmp offset (if lhs = a then b else lhs) (if rhs = a then b else rhs)))
    else some .apart
  | .branchConst cmp offset lhs value =>
    if lhs = a then whenDead dead a (.into (.branchConst cmp offset b value)) else some .apart
  | .ret src => if src = a then some (.into (.ret b)) else some .apart
  | _ => some .apart

/-- What becomes of two neighbouring instructions. -/
def fuse (dead : Reg → Option Bool) : Inst → Inst → Option Fusion
  | .intConst a x, next =>
    if next.isBranch then fuseTest dead a x next else fuseConst dead a x next
  | .boolConst a x, next =>
    match next with
    | .move dst src =>
      if src = a ∧ dst ≠ a then whenDead dead a (.into (.boolConst dst x)) else some .apart
    | next => fuseTest dead a (if x then 1 else 0) next
  | .move a b, next => fuseMove dead a b next
  | .arithConst op a x, .arithConst op' dst y =>
    if dst = a then
      match mergeConstants? op op' x y with
      | some z => some (.into (.arithConst op a z))
      | none => some .apart
    else some .apart
  | _, _ => some .apart

end ForkLisp.Optimize
