/-
Code under construction.

Instructions are appended. A jump goes in without a target and leaves a label, and `place` makes it
jump to the next instruction to come.
-/
import ForkLisp.Code.Listing

namespace ForkLisp.Code

/-- The index of a jump that waits for its target. -/
abbrev Label := Nat

/-- The instructions so far. -/
structure Builder where
  code : Code
  deriving DecidableEq

namespace Builder

/-- No instructions yet. -/
def empty : Builder := ⟨#[]⟩

def size (b : Builder) : Nat := b.code.size

def words (b : Builder) : Nat := Code.words b.code

/-- Appends an instruction. -/
def emit (b : Builder) (i : Inst) : Builder := ⟨b.code.push i⟩

/-- Appends a jump whose displacement is still open. -/
def emitJump (b : Builder) (i : Inst) : Builder × Label :=
  (b.emit (i.withOffset 0), b.size)

/-- Makes the jump at a label go to the next instruction to come. -/
def place (b : Builder) (label : Label) : Builder :=
  ⟨b.code.modify label (Inst.withOffset (b.size - label))⟩

@[simp] theorem size_empty : empty.size = 0 := rfl

@[simp] theorem size_emit (b : Builder) (i : Inst) : (b.emit i).size = b.size + 1 := by
  simp [emit, size]

@[simp] theorem size_place (b : Builder) (l : Label) : (b.place l).size = b.size := by
  simp [place, size]

end Builder

end ForkLisp.Code
