/-
Code that is being rewritten.

A site is code under the read cursor: the code of the function being optimized, or a copy of a
callee that is put in the place of a call. A draft is the code written so far, with the jumps whose
targets have not been reached yet. A target is a place in a copy, since the same callee can be
copied more than once.
-/
import ForkLisp.Code.Builder
import ForkLisp.Optimize.Fusion
import ForkLisp.Optimize.Liveness

namespace ForkLisp.Optimize

open ForkLisp.Code

/-- A place in one copy of some code. -/
structure Place where
  copy : Nat
  pc : Nat
  deriving DecidableEq

/-- Code that is read, and how it is read. -/
structure Site where
  code : Code
  /-- What is live in the code, if it can be told. -/
  live : Option Liveness
  /-- The number of this copy. -/
  copy : Nat
  /-- How far the registers of the copy are moved up. -/
  base : Reg
  /-- Where the caller goes on, for the copy of a callee. -/
  caller : Option Place

namespace Site

/-- The instruction at a place, as it is rewritten first. -/
def fetch? (s : Site) (pc : Nat) : Option Inst :=
  (s.code[pc]?).map fun i => normalize (i.rebase s.base)

/-- Whether a register is dead after a place, if it can be told. A register below those of the copy
counts as live. -/
def deadAfter (s : Site) (pc : Nat) (r : Reg) : Option Bool :=
  if r < s.base then some false
  else s.live.map fun l => !l.isLiveAfter pc (r - s.base)

end Site

/-- A jump that has been written, and the place it goes to, if that lies in the code's range. -/
structure Pending where
  label : Label
  copy : Nat
  target : Option Nat
  deriving DecidableEq

/-- Whether a jump goes to a place. -/
def Pending.goesTo (p : Pending) (copy pc : Nat) : Bool :=
  p.copy == copy && p.target == some pc

/-- The code written so far, the jumps without a target, and the number of copies made. -/
structure Draft where
  builder : Builder
  pending : List Pending
  copies : Nat
  deriving DecidableEq

namespace Draft

/-- Nothing is written. -/
def empty : Draft := ⟨.empty, [], 0⟩

/-- Writes an instruction. -/
def emit (d : Draft) (i : Inst) : Draft := { d with builder := d.builder.emit i }

/-- Writes a jump to a place in a copy. -/
def emitJump (d : Draft) (i : Inst) (copy : Nat) (target : Option Nat) : Draft :=
  let (builder, label) := d.builder.emitJump i
  { d with builder, pending := d.pending ++ [⟨label, copy, target⟩] }

/-- Whether a jump that has been written goes to a place. -/
def isTarget (d : Draft) (copy pc : Nat) : Bool :=
  d.pending.any (·.goesTo copy pc)

/-- Lets all jumps that go to a place go to the next instruction that is written. -/
def arrive (d : Draft) (copy pc : Nat) : Draft :=
  { d with
    builder := (d.pending.filter (·.goesTo copy pc)).foldl (fun b p => b.place p.label) d.builder
    pending := d.pending.filter (!·.goesTo copy pc) }

/-- The first of the `count` numbers from `start` on that has a property. -/
def firstFrom? (p : Nat → Bool) : (count start : Nat) → Option Nat
  | 0, _ => none
  | count + 1, start => if p start then some start else firstFrom? p count (start + 1)

theorem firstFrom?_eq_some {p : Nat → Bool} {count start n : Nat} :
    firstFrom? p count start = some n ↔
      start ≤ n ∧ n < start + count ∧ p n ∧ ∀ m, start ≤ m → m < n → p m = false := by
  induction count generalizing start with
  | zero =>
    simp only [firstFrom?, reduceCtorEq, false_iff]
    omega
  | succ count ih =>
    by_cases h : p start
    · simp only [firstFrom?, h, if_true, Option.some.injEq]
      constructor
      · rintro rfl
        exact ⟨Nat.le_refl _, by omega, h, by omega⟩
      · rintro ⟨hn, -, -, before⟩
        rcases Nat.eq_or_lt_of_le hn with rfl | lt
        · rfl
        · simp [before start (Nat.le_refl _) lt] at h
    · simp only [firstFrom?, h, Bool.false_eq_true, if_false, ih]
      constructor
      · rintro ⟨hn, bound, found, before⟩
        refine ⟨by omega, by omega, found, fun m hm lt => ?_⟩
        rcases Nat.eq_or_lt_of_le hm with rfl | later
        · simpa using h
        · exact before m later lt
      · rintro ⟨hn, bound, found, before⟩
        have : start ≠ n := fun e => h (e ▸ found)
        exact ⟨by omega, by omega, found, fun m hm lt => before m (by omega) lt⟩

/-- The first place from `start` on where control can come from elsewhere: the target of a jump that
has been written, the place `stop`, or the end. There is none if the code has no end. -/
def nextReachable? (d : Draft) (s : Site) (start : Nat) (stop : Option Nat) : Option Nat :=
  let reachable pc := s.code[pc]? == some .stop || some pc == stop || d.isTarget s.copy pc
  firstFrom? reachable (s.code.size - start) start

end Draft

end ForkLisp.Optimize
