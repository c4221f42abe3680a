/-
Liveness of registers.

A register is live where its value may still be read. Only jumps that go forward count, so that one
sweep from the end of the code to its front finds for every instruction what is live before and
after it.
-/
import ForkLisp.Code.Operands
import ForkLisp.Optimize.RegSet

namespace ForkLisp.Optimize

open ForkLisp.Code

/-- The registers that are live around an instruction. -/
structure Live where
  before : RegSet
  after : RegSet
  deriving DecidableEq

/-- Whether control may go on to the instruction behind. -/
def fallsThrough : Inst → Bool
  | .jump _ | .stop => false
  | i => !i.isReturn

/-- What is live before the instruction that lies `n` places behind, if there is one. -/
def liveAt (behind : List Live) (n : Nat) : RegSet :=
  match behind[n]? with
  | some l => l.before
  | none => .empty

/-- What is live after an instruction, given what is live around the instructions behind it. -/
def liveAfter (i : Inst) (behind : List Live) : RegSet :=
  let through := if fallsThrough i then liveAt behind 0 else .empty
  match i.offset? with
  | some offset => if 0 < offset then through.union (liveAt behind (offset.toNat - 1)) else through
  | none => through

/-- What is live around an instruction, given the same for those behind it. -/
def liveAround (arity : FuncId → Nat) (i : Inst) (behind : List Live) : Live :=
  let after := liveAfter i behind
  ⟨(after.eraseAll i.defs).insertAll (i.uses arity), after⟩

/-- What is live around each of some instructions. -/
def sweep (arity : FuncId → Nat) : List Inst → List Live
  | [] => []
  | i :: is =>
    let behind := sweep arity is
    liveAround arity i behind :: behind

/-- Live registers of some code: what is live after each instruction. -/
structure Liveness where
  after : Array RegSet

/-- The live registers of code, all of whose callees must have an arity. -/
def Liveness.of? (arity? : FuncId → Option Nat) (code : Code) : Option Liveness :=
  if code.all fun i => i.callee?.all fun f => (arity? f).isSome then
    some ⟨((sweep (fun f => (arity? f).getD 0) code.toList).map (·.after)).toArray⟩
  else none

/-- Whether a register is live after the instruction at `pc`. -/
def Liveness.isLiveAfter (l : Liveness) (pc : Nat) (r : Reg) : Bool :=
  match l.after[pc]? with
  | some rs => rs.contains r
  | none => false

end ForkLisp.Optimize
