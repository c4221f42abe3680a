/-
Well-formed code.

Well-formed code is orderly, its end stands right behind a return, no jump goes to the end, and
calls and tasks have room for their linkage. Only a return stands right before the end, so that
control that goes on behind any other instruction does not get to the end (`WellFormed.goes`).
-/
import ForkLisp.Proofs.Behaviour.Outline
import ForkLisp.Proofs.Code.Orderly

namespace ForkLisp.Code

open ForkLisp.Behaviour

/-- The slots below the arguments of a call or of a task lie in the frame. -/
def Inst.HasRoom : Inst → Prop
  | .call _ shift => 2 ≤ shift
  | .spawn _ shift => 3 ≤ shift
  | _ => True

/-- The end stands last and nowhere else, right behind a return. Jumps go forward to places before
it, and there is room for all linkage. -/
structure WellFormed (code : ForkLisp.Code) : Prop where
  stop_iff : ∀ pc : Nat, code[pc]? = some .stop ↔ pc + 1 = code.size
  returns : ∃ (pc : Nat) (i : Inst), pc + 2 = code.size ∧ code[pc]? = some i ∧ i.isReturn = true
  forward : ∀ (pc : Nat) (i : Inst) (offset : Int), code[pc]? = some i → i.offset? = some offset →
    0 < offset ∧ pc + offset + 1 < code.size
  room : ∀ (pc : Nat) (i : Inst), code[pc]? = some i → i.HasRoom

namespace WellFormed

variable {code : ForkLisp.Code} {pc t : Nat} {i : Inst} {offset : Int}

theorem orderly (h : WellFormed code) : Orderly code := by
  refine ⟨?_, h.stop_iff, fun pc i offset hi ho => ?_⟩
  · obtain ⟨pc, -, hpc, -⟩ := h.returns
    omega
  · have := h.forward pc i offset hi ho
    omega

/-- A return stands right before the end. -/
theorem isReturn_of_last (h : WellFormed code) (hi : code[pc]? = some i)
    (hpc : pc + 2 = code.size) :
    i.isReturn = true := by
  obtain ⟨pc', j, hpc', hj, hret⟩ := h.returns
  obtain rfl : pc' = pc := by omega
  rw [hi, Option.some_inj] at hj
  exact hj ▸ hret

/-- Behind an instruction that is neither a return nor the end, another one stands that is not the
end. -/
theorem ahead (h : WellFormed code) (hi : code[pc]? = some i) (hr : i.isReturn = false)
    (hs : i ≠ .stop) : pc + 2 < code.size := by
  have hnext := h.orderly.next_lt hi hs
  have hne : pc + 2 ≠ code.size := by
    intro hpc
    have := h.isReturn_of_last hi hpc
    rw [hr] at this
    cases this
  omega

/-- Every jump has a target, which lies behind it and before the end. -/
theorem target (h : WellFormed code) (hi : code[pc]? = some i) (ho : i.offset? = some offset)
    (ht : jumpTarget pc offset = some t) : pc < t ∧ t + 1 < code.size := by
  have hforward := h.forward pc i offset hi ho
  have htarget := jumpTarget_eq_some.mp ht
  omega

/-- Control goes forward, to places before the end. -/
theorem goes (h : WellFormed code) (hi : code[pc]? = some i) (hg : Goes i pc t) :
    pc < t ∧ t + 1 < code.size := by
  cases hg with
  | through hf =>
    have hr : i.isReturn = false := by
      cases i <;> first | rfl | cases hf
    have hs : i ≠ .stop := by
      rintro rfl
      cases hf
    exact ⟨Nat.lt_succ_self pc, h.ahead hi hr hs⟩
  | jump ho ht => exact h.target hi ho ht

end WellFormed

/-! ### Deciding -/

instance : (i : Inst) → Decidable i.HasRoom
  | .call _ shift => inferInstanceAs (Decidable (2 ≤ shift))
  | .spawn _ shift => inferInstanceAs (Decidable (3 ≤ shift))
  | .intConst .. | .boolConst .. | .floatConst .. | .move .. | .arith ..
  | .arithConst .. | .negate ..
  | .branch .. | .branchConst .. | .jump .. | .load .. | .store .. | .join ..
  | .ret .. | .retConst ..
  | .print .. | .printBool .. | .stop => .isTrue trivial

/-- Whether code is well formed, instruction by instruction. -/
theorem wellFormed_iff {code : ForkLisp.Code} :
    WellFormed code ↔
      (∃ pc, ∃ _ : pc < code.size, pc + 2 = code.size ∧ code[pc].isReturn = true) ∧
        ∀ pc, ∀ _ : pc < code.size, (code[pc] = .stop ↔ pc + 1 = code.size) ∧
          (∀ offset ∈ code[pc].offset?, 0 < offset ∧ pc + offset + 1 < code.size) ∧
            code[pc].HasRoom := by
  constructor
  · intro h
    obtain ⟨pc, i, hpc, hi, hret⟩ := h.returns
    obtain ⟨hlt, rfl⟩ := Array.getElem?_eq_some_iff.mp hi
    refine ⟨⟨pc, hlt, hpc, hret⟩, fun pc hpc => ?_⟩
    have hi : code[pc]? = some code[pc] := Array.getElem?_eq_getElem hpc
    refine ⟨?_, fun offset ho => h.forward pc _ offset hi ho, h.room pc _ hi⟩
    rw [← h.stop_iff, hi, Option.some_inj]
  · rintro ⟨⟨pc, hlt, hpc, hret⟩, hall⟩
    refine ⟨fun pc => ?_, ⟨pc, _, hpc, Array.getElem?_eq_getElem hlt, hret⟩,
      fun pc i offset hi => ?_, fun pc i hi => ?_⟩
    · by_cases hlt : pc < code.size
      · rw [Array.getElem?_eq_getElem hlt, Option.some_inj]
        exact (hall pc hlt).1
      · rw [Array.getElem?_eq_none (by omega)]
        exact ⟨fun h => (by cases h), fun h => by omega⟩
    · obtain ⟨hlt, rfl⟩ := Array.getElem?_eq_some_iff.mp hi
      exact (hall pc hlt).2.1 offset
    · obtain ⟨hlt, rfl⟩ := Array.getElem?_eq_some_iff.mp hi
      exact (hall pc hlt).2.2

instance (code : ForkLisp.Code) : Decidable (WellFormed code) :=
  decidable_of_iff _ wellFormed_iff.symm

end ForkLisp.Code
