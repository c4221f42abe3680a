/-
Orderly code.

Code is orderly if its last instruction is the only end in it and every jump goes forward to a place
in the code. Running orderly code can neither leave it nor go on for ever.
-/
import ForkLisp.Proofs.Behaviour.Meaning

namespace ForkLisp.Code

open ForkLisp.Behaviour

/-- The end stands last and nowhere else, and jumps go forward and stay in the code. -/
structure Orderly (code : ForkLisp.Code) : Prop where
  pos : 0 < code.size
  stop_iff : ∀ pc : Nat, code[pc]? = some .stop ↔ pc + 1 = code.size
  forward : ∀ (pc : Nat) (i : Inst) (offset : Int), code[pc]? = some i → i.offset? = some offset →
    0 < offset ∧ pc + offset < code.size

namespace Orderly

variable {code : ForkLisp.Code} {pc : Nat} {i : Inst}

/-- Another instruction stands behind one that is not the end. -/
theorem next_lt (h : Orderly code) (hi : code[pc]? = some i) (hs : i ≠ .stop) :
    pc + 1 < code.size := by
  have hlt : pc < code.size := (Array.getElem?_eq_some_iff.mp hi).1
  have hne : pc + 1 ≠ code.size := by
    intro he
    rw [(h.stop_iff pc).mpr he, Option.some_inj] at hi
    exact hs hi.symm
  omega

/-- Every jump has a target, which lies behind it. -/
theorem target (h : Orderly code) (hi : code[pc]? = some i) {offset : Int}
    (ho : i.offset? = some offset) :
    ∃ t, jumpTarget pc offset = some t ∧ pc < t ∧ t < code.size := by
  obtain ⟨hpos, hlt⟩ := h.forward pc i offset hi ho
  exact ⟨(pc + offset).toNat, jumpTarget_eq_some.mpr (by omega), by omega, by omega⟩

end Orderly

end ForkLisp.Code
