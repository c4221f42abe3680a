/-
The registers of emitted code.

The code of a term writes no register below the one for its value, and it never returns
(`Term.upward`): operands, arguments and the windows of calls lie above that register. With a return
behind it, it is code of its own, and ends as the term can (`Term.returns`).
-/
import ForkLisp.Proofs.Terms.Running

namespace ForkLisp.Terms

open ForkLisp.Code ForkLisp.Machine ForkLisp.Behaviour

/-- No instruction returns, and all of them write registers from `r` on. -/
def Upward (r : Nat) (is : List Inst) : Prop :=
  ∀ i ∈ is, i.isReturn = false ∧ ∀ d ∈ i.defs, r ≤ d

namespace Upward

variable {r r' : Nat} {is js : List Inst} {i : Inst}

theorem nil : Upward r [] :=
  fun _ hi => absurd hi List.not_mem_nil

theorem append (h : Upward r is) (h' : Upward r js) : Upward r (is ++ js) :=
  fun i hi => (List.mem_append.mp hi).elim (h i) (h' i)

theorem cons (hr : i.isReturn = false) (hd : ∀ d ∈ i.defs, r ≤ d) (h : Upward r is) :
    Upward r (i :: is) :=
  List.forall_mem_cons.mpr ⟨⟨hr, hd⟩, h⟩

/-- An instruction that writes a single register. -/
theorem single {d : Nat} (hr : i.isReturn = false) (hd : i.defs = [d])
    (hle : r ≤ d) : Upward r [i] :=
  cons hr (fun x hx => by rw [hd] at hx; rw [List.mem_singleton.mp hx]; exact hle) nil

/-- An instruction that writes no register. -/
theorem silent (hr : i.isReturn = false) (hd : i.defs = []) : Upward r [i] :=
  cons hr (fun x hx => by rw [hd] at hx; exact absurd hx List.not_mem_nil) nil

theorem mono (h : Upward r' is) (hr : r ≤ r') : Upward r is :=
  fun i hi => ⟨(h i hi).1, fun d hd => Nat.le_trans hr ((h i hi).2 d hd)⟩

end Upward

theorem upward_joinCode (ts : List Term) (r : Nat) : Upward r (joinCode ts r) := by
  induction ts generalizing r with
  | nil => exact .nil
  | cons t ts ih =>
    refine Upward.append ?_ ((ih _).mono (Nat.le_add_right r t.width))
    split
    · exact .single rfl rfl (Nat.le_refl r)
    · exact .nil

theorem upward_foldCode (op : ArithOp) {r dst : Nat} (hd : r ≤ dst) (ts : List Term) (s : Nat) :
    Upward r (foldCode op dst ts s) := by
  induction ts generalizing s with
  | nil => exact .nil
  | cons t ts ih => exact (Upward.single rfl rfl hd).append (ih _)

theorem below_add (r n : Nat) : Inst.below (r + n) n = [r] := by
  simp [Inst.below]

mutual

/-- The code of a term leaves all registers below its own alone. -/
theorem Term.upward : (t : Term) → (r : Nat) → Upward r (t.emit r)
  | .int _, r | .bool _, r | .float _, r | .param _, r | .global _, r =>
    .single rfl rfl (Nat.le_refl r)
  | .call _ ts, r =>
    -- the result is written two registers below the arguments
    ((upward_arguments ts (r + 2)).mono (Nat.le_add_right r 2)).append
      (.single rfl (below_add r 2) (Nat.le_refl r))
  | .task _ ts, r =>
    ((upward_arguments ts (r + 3)).mono (Nat.le_add_right r 3)).append
      (.single rfl (below_add r 3) (Nat.le_refl r))
  | .negate t, r => (t.upward r).append (.single rfl rfl (Nat.le_refl r))
  | .arith op first rest, r =>
    (first.upward r).append (((upward_operands rest _).mono (Nat.le_add_right r _)).append
      ((upward_joinCode (first :: rest) r).append (upward_foldCode op (Nat.le_refl r) rest _)))
  | .cond _ lhs rhs first second, r =>
    (lhs.upward r).append (((rhs.upward (r + 1)).mono (Nat.le_succ r)).append
      ((Upward.silent rfl rfl).append ((first.upward r).append
        ((Upward.silent rfl rfl).append (second.upward r)))))
  | .assign _ t, r => (t.upward r).append (.silent rfl rfl)
  | .print truth t, r => (t.upward r).append (by cases truth <;> exact .silent rfl rfl)

theorem upward_arguments : (ts : List Term) → (r : Nat) → Upward r (emitArguments ts r)
  | [], _ => .nil
  | t :: ts, r => (t.upward r).append ((upward_arguments ts (r + 1)).mono (Nat.le_succ r))

theorem upward_operands : (ts : List Term) → (r : Nat) → Upward r (emitOperands ts r)
  | [], _ => .nil
  | t :: ts, r => (t.upward r).append ((upward_operands ts _).mono (Nat.le_add_right r _))

end

/-! ### Terms with a return behind them -/

/-- The code of a term in its place, and a return of its value. -/
def Term.returning (t : Term) (pos r : Nat) : ForkLisp.Code :=
  List.toArray (List.replicate pos .stop ++ (t.emit r ++ [.ret r]))

section

variable (t : Term) (pos r : Nat)

theorem Term.at_returning : At (t.returning pos r) pos (t.emit r ++ [.ret r]) := by
  intro k _
  rw [Term.returning, List.getElem?_toArray,
    List.getElem?_append_right (by rw [List.length_replicate]; omega), List.length_replicate,
    Nat.add_sub_cancel_left]

/-- What stands from the term on is its code, or the return. -/
theorem Term.of_returning {t : Term} {pos r pc : Nat} {i : Inst} (hpc : pos ≤ pc)
    (hi : (t.returning pos r)[pc]? = some i) :
    (∃ k, k < (t.emit r).length ∧ pc = pos + k ∧ (t.emit r)[k]? = some i) ∨
      (pc = pos + (t.emit r).length ∧ i = .ret r) := by
  obtain ⟨k, rfl⟩ := Nat.exists_eq_add_of_le hpc
  rw [Term.returning, List.getElem?_toArray,
    List.getElem?_append_right (by rw [List.length_replicate]; omega), List.length_replicate,
    Nat.add_sub_cancel_left] at hi
  by_cases hk : k < (t.emit r).length
  · rw [List.getElem?_append_left hk] at hi
    exact .inl ⟨k, hk, rfl, hi⟩
  · rw [List.getElem?_append_right (by omega)] at hi
    have hlt := (List.getElem?_eq_some_iff.mp hi).1
    rw [List.length_singleton] at hlt
    obtain rfl : k = (t.emit r).length := by omega
    rw [Nat.sub_self] at hi
    exact .inr ⟨rfl, (Option.some.inj hi).symm⟩

end

/-- Started with its arguments, the code of a term ends as the term can. -/
theorem Term.returns {V H W : Type} {m : Meaning V H W} {known : Global → Prop} {args : List V}
    {t : Term} {pos r : Nat} {w : W} {o : Ending V W} (hs : t.Scoped m.arity known args.length)
    (hr : args.length ≤ r)
    (hrun : m.Runs Meaning.done (t.returning pos r) pos (Frame.enter args) w o) :
    EvalsBody m args [t] w o := by
  have hready : Ready args r (Frame.enter args : Frame V H) :=
    ⟨fun _ _ hv => hv, hr, fun _ _ => rfl, fun _ _ => rfl⟩
  refine sequence_runs (by simp) ⟨hs, trivial⟩ ?_ hready (fun _ => rfl) hrun
  show At _ pos ((t.emit r ++ []) ++ [.ret r])
  rw [List.append_nil]
  exact t.at_returning pos r

end ForkLisp.Terms
