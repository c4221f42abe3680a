/-
Equations of the reference evaluator.

What the evaluator makes of each kind of form, with the computations of its parts in sequence. A
condition is brought into the shape in which code tests it: a comparison that holds if the condition
does not.
-/
import ForkLisp.Proofs.Reference.Evaluator

namespace ForkLisp.Reference

open ForkLisp.Code ForkLisp.Compile ForkLisp.Machine ForkLisp.Reader ForkLisp.Source

/-! ### Values -/

namespace Datum

/-- A truth value. -/
def IsBool (v : Datum) : Prop := ∃ b, v = bool b

theorem compare_negate (c : Comparison) (u v : Datum) :
    u.compare c.negate v = (u.compare c v).map (!·) := by
  unfold compare
  cases u.slot.integral with
  | error e => rfl
  | ok a =>
    cases v.slot.integral with
    | error e => rfl
    | ok b =>
      show Except.ok (c.negate.holds a b) = Except.ok (!c.holds a b)
      rw [Comparison.holds_negate]

/-- A value is true if it does not compare as zero. -/
theorem isTrue_eq (v : Datum) : v.isTrue = (v.compare .eq (int 0)).map (!·) := by
  unfold isTrue compare
  cases v.slot.integral <;> rfl

theorem isTrue_bool (b : Bool) : (bool b).isTrue = .ok b := by
  cases b <;> rfl

end Datum

/-! ### Answers -/

section

variable {α β : Type}

theorem answer_map (strict : Bool) (a : Except Fault α) (g : α → β) (k : β → Eval Datum) :
    (answer strict (a.map g) >>= k) = (answer strict a >>= fun x => k (g x)) := by
  cases a <;> rfl

theorem answer_ok_bind (strict : Bool) (x : α) (k : α → Eval β) :
    (answer strict (.ok x) >>= k) = k x := rfl

/-- The values of computations, one after the other. -/
def collect : List (Eval α) → Eval (List α)
  | [] => pure []
  | y :: ys => do
    let v ← y
    let vs ← collect ys
    pure (v :: vs)

end

/-! ### Forms -/

variable {defs : FuncId → Option Closure} {names : Bindings FuncId} {env : List (String × Datum)}
  {range range' range'' : Range} {name : String}

theorem evaluateAll_eq (fs : List Form) :
    evaluateAll defs names env fs = collect (fs.map (evaluate defs names env)) := by
  induction fs with
  | nil => rw [evaluateAll, Surroundings.evaluateAll]; rfl
  | cons f fs ih => rw [List.map_cons, collect, ← ih, evaluateAll, Surroundings.evaluateAll]; rfl

theorem evaluateAll_nil : evaluateAll defs names env [] = pure [] := by
  rw [evaluateAll, Surroundings.evaluateAll]

theorem evaluateAll_cons (f : Form) (fs : List Form) :
    evaluateAll defs names env (f :: fs) = (do
      let v ← evaluate defs names env f
      let vs ← evaluateAll defs names env fs
      pure (v :: vs)) := by
  rw [evaluateAll, Surroundings.evaluateAll]
  rfl

theorem evaluate_int (n : Int64) : evaluate defs names env (.int range n) = pure (.int n) := by
  rw [evaluate, Surroundings.evaluate.eq_def]

theorem evaluate_float (x : Numeric.Binary64) :
    evaluate defs names env (.float range x) = pure (.float x) := by
  rw [evaluate, Surroundings.evaluate.eq_def]

theorem evaluate_nil : evaluate defs names env (.list range []) = pure (.bool false) := by
  rw [evaluate, Surroundings.evaluate.eq_def]

theorem evaluate_truth (h : isTruthName name = true) :
    evaluate defs names env (.symbol range name) = pure (.bool (name == "t")) := by
  rw [evaluate, Surroundings.evaluate.eq_def]
  simp only [h, if_true]

theorem evaluate_param (h : isTruthName name = false) {v : Datum} (hv : env.lookup name = some v) :
    evaluate defs names env (.symbol range name) = pure v := by
  rw [evaluate, Surroundings.evaluate.eq_def]
  simp only [h, hv, Bool.false_eq_true, if_false]

theorem evaluate_global (h : isTruthName name = false) (hv : env.lookup name = none) :
    evaluate defs names env (.symbol range name) =
      (do let mem ← get; pure (mem.globals name)) := by
  rw [evaluate, Surroundings.evaluate.eq_def]
  simp only [h, hv, Bool.false_eq_true, if_false]

theorem evaluate_call (hb : Builtin.ofName? name = none) {id : FuncId}
    (hid : names.find? name = some id) (args : List Form) :
    evaluate defs names env (.list range (.symbol range' name :: args)) =
      (evaluateAll defs names env args >>= evaluateCall defs id) := by
  rw [evaluate, Surroundings.evaluate.eq_def]
  simp only [hb, hid, Option.bind_some]
  rfl

theorem evaluate_arith {op : ArithOp} (hb : Builtin.ofName? name = some (.arith op))
    (args : List Form) : evaluate defs names env (.list range (.symbol range' name :: args)) =
      (evaluateAll defs names env args >>= combine op) := by
  rw [evaluate, Surroundings.evaluate.eq_def]
  simp only [hb]
  rfl

/-- A comparison of two values. -/
theorem evaluate_compare {c : Comparison} (hb : Builtin.ofName? name = some (.compare c))
    (lhs rhs : Form) : evaluate defs names env (.list range [.symbol range' name, lhs, rhs]) = (do
      let u ← evaluate defs names env lhs
      let v ← evaluate defs names env rhs
      let b ← answer false (u.compare c v)
      pure (.bool b)) := by
  rw [evaluate, Surroundings.evaluate.eq_def]
  simp only [hb]
  rw [← evaluateAll, evaluateAll_cons, evaluateAll_cons, evaluateAll_nil]
  simp only [bind_assoc, pure_bind]

theorem evaluate_short (hb : Builtin.ofName? name = some .conditional) (test first : Form) :
    evaluate defs names env (.list range [.symbol range' name, test, first]) = (do
      let v ← evaluate defs names env test
      let b ← answer false v.isTrue
      if b then evaluate defs names env first else pure (.bool false)) := by
  rw [evaluate, Surroundings.evaluate.eq_def]
  simp only [hb]
  rfl

theorem evaluate_full (hb : Builtin.ofName? name = some .conditional) (test first second : Form) :
    evaluate defs names env (.list range [.symbol range' name, test, first, second]) = (do
      let v ← evaluate defs names env test
      let b ← answer false v.isTrue
      if b then evaluate defs names env first else evaluate defs names env second) := by
  rw [evaluate, Surroundings.evaluate.eq_def]
  simp only [hb]
  rfl

theorem evaluate_assign (hb : Builtin.ofName? name = some .assign) (target : String)
    (value : Form) :
    evaluate defs names env (.list range [.symbol range' name, .symbol range'' target, value]) = (do
      let v ← evaluate defs names env value
      modify fun mem => mem.assign target v
      pure v) := by
  rw [evaluate, Surroundings.evaluate.eq_def]
  simp only [hb]
  rfl

theorem evaluate_print (hb : Builtin.ofName? name = some .print) (value : Form) :
    evaluate defs names env (.list range [.symbol range' name, value]) = (do
      let v ← evaluate defs names env value
      let line ← answer false v.slot.printed
      modify fun mem => mem.print line
      pure v) := by
  rw [evaluate, Surroundings.evaluate.eq_def]
  simp only [hb]
  rfl

theorem evaluateBody_last (f : Form) :
    evaluateBody defs names env [f] = evaluate defs names env f := by
  rw [evaluateBody, Surroundings.evaluateBody]
  rfl

theorem evaluateBody_more (f f' : Form) (fs : List Form) :
    evaluateBody defs names env (f :: f' :: fs) = (do
      let _ ← evaluate defs names env f
      evaluateBody defs names env (f' :: fs)) := by
  rw [evaluateBody, Surroundings.evaluateBody.eq_def]
  rfl

theorem evaluateCall_eq {id : FuncId} {c : Closure} (h : defs id = some c) (args : List Datum) :
    evaluateCall defs id args = evaluateBody defs c.names (c.params.zip args) c.body := by
  unfold evaluateCall
  rw [h]

/-! ### Conditions -/

/-- A comparison as a condition. -/
theorem isTrue_compared (c : Comparison) (x y : Eval Datum) (k : Bool → Eval Datum) :
    (do
      let v ← (do
        let u ← x
        let v ← y
        let b ← answer false (u.compare c v)
        pure (Datum.bool b))
      let b ← answer false v.isTrue
      k b) = (do
      let u ← x
      let v ← y
      let b ← answer false (u.compare c.negate v)
      k !b) := by
  simp only [bind_assoc, pure_bind, Datum.isTrue_bool, answer_ok_bind, Datum.compare_negate,
    answer_map, Bool.not_not]

/-- Any other value as a condition. -/
theorem isTrue_value (x : Eval Datum) (k : Bool → Eval Datum) :
    (do
      let v ← x
      let b ← answer false v.isTrue
      k b) = (do
      let u ← x
      let v ← pure (Datum.int 0)
      let b ← answer false (u.compare .eq v)
      k !b) := by
  simp only [pure_bind, Datum.isTrue_eq, answer_map]

/-- A comparison as a decision between truth values. -/
theorem compare_swap (c : Comparison) (u v : Datum) :
    (do
      let b ← answer false (u.compare c v)
      pure (Datum.bool b)) = (do
      let s ← answer false (u.compare c.negate v)
      if !s then pure (Datum.bool true) else pure (Datum.bool false)) := by
  rw [Datum.compare_negate, answer_map]
  refine congrArg _ (funext fun b => ?_)
  cases b <;> rfl

/-! ### Operands -/

theorem combine_same {op : ArithOp} (h : op ≠ .sub) (v : Datum) : combine op [v] = pure v := by
  rw [combine, if_neg h]

theorem combine_negate (v : Datum) : combine .sub [v] = answer false v.negate := by
  rw [combine, if_pos rfl]

/-! ### Environments -/

theorem lookup_zip_of_idxOf? {params : List String} {args : List Datum} {i : Nat} {v : Datum}
    (h : params.idxOf? name = some i) (hv : args[i]? = some v) :
    (params.zip args).lookup name = some v := by
  induction params generalizing args i with
  | nil => exact absurd h (by simp)
  | cons p params ih =>
    rw [List.idxOf?_cons] at h
    cases args with
    | nil => exact absurd hv (by simp)
    | cons u args =>
      rw [List.zip_cons_cons, List.lookup_cons]
      split at h
      · rename_i hp
        obtain rfl := Option.some.inj h
        obtain rfl := Option.some.inj hv
        rw [BEq.comm, hp]
      · rename_i hp
        obtain ⟨j, hj, rfl⟩ := Option.map_eq_some_iff.mp h
        rw [BEq.comm, Bool.eq_false_iff.mpr hp]
        exact ih hj hv

theorem lookup_zip_of_not_mem {params : List String} (args : List Datum)
    (h : params.idxOf? name = none) : (params.zip args).lookup name = none := by
  rw [List.lookup_eq_none_iff]
  intro p hp
  have hmem := List.idxOf?_eq_none_iff.mp h
  rw [bne_iff_ne]
  rintro rfl
  exact hmem (List.of_mem_zip hp).1

end ForkLisp.Reference
