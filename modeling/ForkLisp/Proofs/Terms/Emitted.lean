/-
Emitted code is orderly.

The jumps of a term stay inside its code or go right behind it (`Contained`), which putting pieces
of code together preserves. So the code of a body is orderly (`bodyCode_orderly`).
-/
import ForkLisp.Proofs.Code.Orderly
import ForkLisp.Proofs.Terms.Term

namespace ForkLisp.Terms

open ForkLisp.Code ForkLisp.Behaviour

/-- Jumps go forward and not past the instruction behind, and there is no end among the
instructions. -/
structure Contained (is : List Inst) : Prop where
  forward : ∀ (k : Nat) (i : Inst) (offset : Int), is[k]? = some i → i.offset? = some offset →
    0 < offset ∧ k + offset ≤ is.length
  no_stop : .stop ∉ is

namespace Contained

variable {is js : List Inst}

theorem nil : Contained [] :=
  ⟨fun _ _ _ h => absurd h (by simp), by simp⟩

theorem append (h : Contained is) (h' : Contained js) : Contained (is ++ js) := by
  refine ⟨fun k i offset hi ho => ?_, fun hm => ?_⟩
  · rw [List.length_append]
    by_cases hk : k < is.length
    · rw [List.getElem?_append_left hk] at hi
      have := h.forward k i offset hi ho
      omega
    · rw [List.getElem?_append_right (by omega)] at hi
      have := h'.forward (k - is.length) i offset hi ho
      omega
  · rcases List.mem_append.mp hm with hm | hm
    · exact h.no_stop hm
    · exact h'.no_stop hm

/-- A jump in front goes over at most all the instructions behind it. -/
theorem cons_jump {i : Inst} {offset : Int} (ho : i.offset? = some offset) (hpos : 0 < offset)
    (hle : offset ≤ is.length + 1) (h : Contained is) : Contained (i :: is) := by
  refine ⟨fun k j o hj hoj => ?_, fun hm => ?_⟩
  · cases k with
    | zero =>
      obtain rfl : i = j := Option.some.inj hj
      rw [ho, Option.some_inj] at hoj
      rw [List.length_cons]
      omega
    | succ k =>
      have := h.forward k j o hj hoj
      rw [List.length_cons]
      omega
  · rcases List.mem_cons.mp hm with rfl | hm
    · exact absurd ho (by simp [Inst.offset?])
    · exact h.no_stop hm

theorem cons {i : Inst} (ho : i.offset? = none) (hs : i ≠ .stop) (h : Contained is) :
    Contained (i :: is) := by
  refine ⟨fun k j o hj hoj => ?_, fun hm => ?_⟩
  · cases k with
    | zero =>
      obtain rfl : i = j := Option.some.inj hj
      rw [ho] at hoj
      exact absurd hoj (by simp)
    | succ k =>
      have := h.forward k j o hj hoj
      rw [List.length_cons]
      omega
  · rcases List.mem_cons.mp hm with hm | hm
    · exact hs hm.symm
    · exact h.no_stop hm

theorem single {i : Inst} (ho : i.offset? = none) (hs : i ≠ .stop) : Contained [i] :=
  cons ho hs nil

end Contained

theorem contained_joinCode (ts : List Term) (r : Nat) : Contained (joinCode ts r) := by
  induction ts generalizing r with
  | nil => exact .nil
  | cons t ts ih =>
    refine Contained.append ?_ (ih _)
    split
    · exact .single rfl (by simp)
    · exact .nil

theorem contained_foldCode (op : ArithOp) (dst : Nat) (ts : List Term) (r : Nat) :
    Contained (foldCode op dst ts r) := by
  induction ts generalizing r with
  | nil => exact .nil
  | cons t ts ih => exact .cons rfl (by simp) (ih _)

mutual

theorem Term.contained : (t : Term) → (r : Nat) → Contained (t.emit r)
  | .int _, _ => .single rfl (by simp)
  | .bool _, _ => .single rfl (by simp)
  | .float _, _ => .single rfl (by simp)
  | .param _, _ => .single rfl (by simp)
  | .global _, _ => .single rfl (by simp)
  | .call _ ts, r => (contained_arguments ts (r + 2)).append (.single rfl (by simp))
  | .task _ ts, r => (contained_arguments ts (r + 3)).append (.single rfl (by simp))
  | .negate t, r => (t.contained r).append (.single rfl (by simp))
  | .arith op first rest, r =>
    (first.contained r).append ((contained_operands rest _).append
      ((contained_joinCode (first :: rest) r).append (contained_foldCode op r rest _)))
  | .cond skip lhs rhs first second, r => by
    refine (lhs.contained r).append ((rhs.contained (r + 1)).append ?_)
    have hsecond := Contained.cons_jump (i := .jump ((second.emit r).length + 1)) rfl (by omega)
      (Int.le_refl _) (second.contained r)
    refine Contained.cons_jump rfl (by omega) ?_ ((first.contained r).append hsecond)
    rw [List.length_append, List.length_cons]
    omega
  | .assign _ t, r => (t.contained r).append (.single rfl (by simp))
  | .print truth t, r => by
    refine (t.contained r).append ?_
    cases truth
    · exact .single rfl (by simp)
    · exact .single rfl (by simp)

theorem contained_arguments : (ts : List Term) → (r : Nat) → Contained (emitArguments ts r)
  | [], _ => .nil
  | t :: ts, r => (t.contained r).append (contained_arguments ts (r + 1))

theorem contained_operands : (ts : List Term) → (r : Nat) → Contained (emitOperands ts r)
  | [], _ => .nil
  | t :: ts, r => (t.contained r).append (contained_operands ts _)

end

theorem contained_sequence (ts : List Term) (r : Nat) : Contained (emitSequence ts r) := by
  induction ts with
  | nil => exact .nil
  | cons t ts ih => exact (t.contained r).append ih

/-- Contained instructions with an end behind them are orderly. -/
theorem Contained.orderly {is : List Inst} (h : Contained is) :
    Orderly (List.toArray (is ++ [.stop])) := by
  have hsize : (List.toArray (is ++ [Inst.stop])).size = is.length + 1 := by
    rw [List.size_toArray, List.length_append]
    rfl
  refine ⟨by omega, fun pc => ?_, fun pc i offset hi ho => ?_⟩
  · rw [List.getElem?_toArray, hsize]
    by_cases hlt : pc < is.length
    · rw [List.getElem?_append_left hlt]
      exact ⟨fun hs => absurd (List.mem_of_getElem? hs) h.no_stop, fun he => by omega⟩
    · rw [List.getElem?_append_right (by omega)]
      refine ⟨fun hs => ?_, fun he => ?_⟩
      · have := (List.getElem?_eq_some_iff.mp hs).1
        simp only [List.length_singleton] at this
        omega
      · rw [show pc - is.length = 0 by omega]
        rfl
  · rw [List.getElem?_toArray] at hi
    rw [hsize]
    by_cases hlt : pc < is.length
    · rw [List.getElem?_append_left hlt] at hi
      have := h.forward pc i offset hi ho
      omega
    · rw [List.getElem?_append_right (by omega)] at hi
      obtain rfl := List.mem_singleton.mp (List.mem_of_getElem? hi)
      exact absurd ho (by simp [Inst.offset?])

/-- The code of a body is orderly. -/
theorem bodyCode_orderly (ts : List Term) (r : Nat) : Orderly (bodyCode ts r) := by
  have h : Contained (emitSequence ts r ++ [.ret r]) :=
    (contained_sequence ts r).append (.single rfl (by simp))
  have := h.orderly
  rwa [List.append_assoc] at this

end ForkLisp.Terms
