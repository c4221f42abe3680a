/-
What optimized code may make of operators.

The optimizer may replace an operator by another one that agrees with it on numbers only. So a
meaning lets an operator come to what it comes to on slots, and to anything else where it
fails there with a fault that is free (`Allows`). All rewritings are justified if faults about
types are free but for those of strict operators (`Calculates.algebraic`). This holds of values
of every kind that slots can hold (`Operands`).
-/
import ForkLisp.Proofs.Optimize.Constants
import ForkLisp.Proofs.Optimize.Rewriting
import ForkLisp.Proofs.Reference.Evaluator

namespace ForkLisp.Reference

open ForkLisp.Code ForkLisp.Machine ForkLisp.Behaviour ForkLisp.Optimize

variable {α V H W : Type}

/-- An answer is the one that is asked for, or what is asked for is a free fault. -/
def Allows (free : Fault → Prop) (a b : Except Fault α) : Prop :=
  b = a ∨ ∃ e, a = .error e ∧ free e

/-- Values that slots can hold, numbers and truth values among them. -/
structure Operands (V : Type) where
  int : Int64 → V
  bool : Bool → V
  slot : V → Slot
  slot_int : ∀ n, slot (int n) = .int n
  slot_bool : ∀ b, slot (bool b) = .bool b
  eq_int : ∀ {v n}, slot v = .int n → v = int n

namespace Operands

variable (k : Operands V)

/-- An operator on two values: the left one must be a number, then the right one. -/
def arith (op : ArithOp) (u v : V) : Except Fault V := do
  let a ← (k.slot u).int64
  let b ← (k.slot v).int64
  match op.result? a b with
  | some n => .ok (k.int n)
  | none => .error .zeroDivision

/-- The negative of a number. -/
def negate (v : V) : Except Fault V :=
  (k.slot v).int64.map fun n => k.int (-n)

/-- A comparison of two values, for which truth values are one and zero. -/
def compare (c : Comparison) (u v : V) : Except Fault Bool := do
  let a ← (k.slot u).integral
  let b ← (k.slot v).integral
  .ok (c.holds a b)

end Operands

/-- The values of the language as operands. -/
def Datum.operands : Operands Datum where
  int := .int
  bool := .bool
  slot := Datum.slot
  slot_int _ := rfl
  slot_bool _ := rfl
  eq_int {v _} h := by
    cases v with
    | int n =>
      obtain rfl := Slot.int.inj h
      rfl
    | bool | float => cases h

/-- The values and operators of a meaning are those of the operands, as far as failures
are not free. -/
structure Calculates (k : Operands V) (free : Failure → Prop) (m : Meaning V H W) : Prop where
  int : m.int = k.int
  bool : m.bool = k.bool
  arith : m.arith = fun op u v =>
    Allows (fun e => free ⟨e, isStrict op (k.slot v)⟩) (k.arith op u v)
  negate : m.negate = fun v => Allows (free ∘ .lax) (k.negate v)
  test : m.test = fun c u v => Allows (free ∘ .lax) (k.compare c u v)

/-! ### Operators on values -/

namespace Operands

variable {k : Operands V}

/-- A value is a number, or using it as one fails. -/
theorem int_or_mismatch (k : Operands V) (v : V) :
    (∃ n, v = k.int n) ∨ ∃ got, (k.slot v).int64 = .error (.typeMismatch got) := by
  cases h : k.slot v with
  | int n => exact .inl ⟨n, k.eq_int h⟩
  | _ => exact .inr ⟨_, rfl⟩

theorem arith_int (op : ArithOp) (a b : Int64) :
    k.arith op (k.int a) (k.int b) =
      match op.result? a b with
      | some n => .ok (k.int n)
      | none => .error .zeroDivision := by
  unfold arith
  rw [k.slot_int, k.slot_int]
  rfl

theorem arith_left {v : V} {e : Fault} (h : (k.slot v).int64 = .error e) (op : ArithOp) (u : V) :
    k.arith op v u = .error e := by
  unfold arith
  rw [h]
  rfl

theorem arith_right {v : V} {e : Fault} (h : (k.slot v).int64 = .error e) (op : ArithOp)
    (n : Int64) :
    k.arith op (k.int n) v = .error e := by
  unfold arith
  rw [k.slot_int, h]
  rfl

theorem negate_int (n : Int64) : k.negate (k.int n) = .ok (k.int (-n)) := by
  unfold negate
  rw [k.slot_int]
  rfl

theorem compare_int (c : Comparison) (a b : Int64) :
    k.compare c (k.int a) (k.int b) = .ok (c.holds a b) := by
  unfold compare
  rw [k.slot_int, k.slot_int]
  rfl

/-- For comparisons a truth value is a number. -/
theorem integral_bool (k : Operands V) (b : Bool) :
    (k.slot (k.bool b)).integral = (k.slot (k.int (if b then 1 else 0))).integral := by
  rw [k.slot_bool, k.slot_int]
  rfl

theorem compare_reverse (c : Comparison) (v : V) (x : Int64) :
    k.compare c.reverse v (k.int x) = k.compare c (k.int x) v := by
  unfold compare
  rw [k.slot_int]
  cases (k.slot v).integral with
  | error e => rfl
  | ok a =>
    show Except.ok (c.reverse.holds a x) = Except.ok (c.holds x a)
    rw [Comparison.holds_reverse]

/-- A comparison fails only where types do not fit. -/
theorem compare_error {c : Comparison} {u v : V} {e : Fault} (h : k.compare c u v = .error e) :
    ∃ got, e = .typeMismatch got := by
  have hintegral : ∀ s : Slot, ∀ e, s.integral = .error e → ∃ got, e = .typeMismatch got := by
    intro s e hs
    cases s <;> cases hs
    all_goals exact ⟨_, rfl⟩
  unfold compare at h
  cases hu : (k.slot u).integral with
  | error e' =>
    rw [hu] at h
    cases h
    exact hintegral _ e hu
  | ok a =>
    cases hv : (k.slot v).integral with
    | error e' =>
      rw [hu, hv] at h
      cases h
      exact hintegral _ e hv
    | ok b =>
      rw [hu, hv] at h
      exact absurd h (by simp [bind, Except.bind])

end Operands

/-! ### Rewriting -/

namespace Allows

variable {free : Fault → Prop}

theorem exact (a : Except Fault α) : Allows free a a := .inl rfl

theorem of_eq {a b c : Except Fault α} (h : Allows free a c) (hab : a = b) : Allows free b c :=
  hab ▸ h

/-- Anything is allowed where types do not fit, if faults about them are free. -/
theorem of_mismatch (hfree : ∀ got, free (.typeMismatch got)) {a : Except Fault α} {got : Tag}
    (h : a = .error (.typeMismatch got)) (b : Except Fault α) : Allows free a b :=
  .inr ⟨_, h, hfree got⟩

/-- An operator on a value and a number: it is enough to look at numbers. -/
theorem arith_of_int (hfree : ∀ got, free (.typeMismatch got)) {k : Operands V} {op : ArithOp}
    {v u : V} {a : Except Fault V} (h : ∀ n, v = k.int n → Allows free (k.arith op v u) a) :
    Allows free (k.arith op v u) a := by
  rcases k.int_or_mismatch v with ⟨n, hn⟩ | ⟨got, hgot⟩
  · exact h n hn
  · exact of_mismatch hfree (Operands.arith_left hgot op u) a

end Allows

namespace Calculates

variable {k : Operands V} {free : Failure → Prop} {m : Meaning V H W}

/-- An operator that never fails on numbers is not strict. -/
theorem not_strict_of_total {op : ArithOp} (h : op.canFault = false) (v : Slot) :
    isStrict op v = false := by
  cases op with
  | add | sub | mul => rfl
  | div | mod => cases h

/-- Operators with constants become a strict one if one of them is strict. -/
theorem strict_of_merge {op op' : ArithOp} {x y z : Int64}
    (hz : mergeConstants? op op' x y = some z) :
    (isStrict op (.int x) = true → isStrict op (.int z) = true) ∧
      (isStrict op' (.int y) = true → isStrict op (.int z) = true) := by
  obtain ⟨rfl, ⟨rfl, -⟩ | ⟨rfl, -⟩ | ⟨rfl, -⟩⟩ := mergeConstants?_eq_some.mp hz
  · exact ⟨id, id⟩
  · exact ⟨id, id⟩
  · by_cases hone : z = 1
    · obtain ⟨rfl, rfl⟩ := eq_one_of_merge (hone ▸ hz)
      rw [hone]
      exact ⟨id, id⟩
    · have hstrict : isStrict .div (.int z) = true := by simp [isStrict, hone]
      exact ⟨fun _ => hstrict, fun _ => hstrict⟩

/-- Where the failures of an operator with one constant are free, they are so with each of two
constants that merge into it. -/
theorem free_of_merge {op op' : ArithOp} {x y z : Int64} {e : Fault}
    (hz : mergeConstants? op op' x y = some z) (hlax : free (.lax e))
    (h : free ⟨e, isStrict op (.int z)⟩) :
    free ⟨e, isStrict op (.int x)⟩ ∧ free ⟨e, isStrict op' (.int y)⟩ := by
  have hfree : ∀ strict, (strict = true → isStrict op (.int z) = true) → free ⟨e, strict⟩ := by
    intro strict hs
    cases strict with
    | false => exact hlax
    | true => exact hs rfl ▸ h
  exact ⟨hfree _ (strict_of_merge hz).1, hfree _ (strict_of_merge hz).2⟩

variable (hfree : ∀ got, free (.lax (.typeMismatch got)))

include hfree

/-- The mismatches of an operator that is not strict are free. -/
theorem free_of_not_strict {op : ArithOp} {v : Slot} (h : isStrict op v = false) (got : Tag) :
    free ⟨.typeMismatch got, isStrict op v⟩ := by
  rw [h]
  exact hfree got

/-- Merging two operators with constants is justified. -/
theorem merge (op op' : ArithOp) (x y z : Int64) (v : V)
    (a : Except Fault V) (hz : mergeConstants? op op' x y = some z)
    (ha : Allows (fun e => free ⟨e, isStrict op (.int z)⟩) (k.arith op v (k.int z)) a) :
    ∃ b, Allows (fun e => free ⟨e, isStrict op (.int x)⟩) (k.arith op v (k.int x)) b ∧
      match b with
      | .ok u => Allows (fun e => free ⟨e, isStrict op' (.int y)⟩) (k.arith op' u (k.int y)) a
      | .error e => a = .error e := by
  rcases k.int_or_mismatch v with ⟨n, rfl⟩ | ⟨got, hgot⟩
  · -- on numbers both ways have the same result
    obtain ⟨r, htwice, honce, -⟩ := result?_merge hz n
    obtain ⟨u, hu, hr⟩ := Option.bind_eq_some_iff.mp htwice
    rw [Operands.arith_int, honce] at ha
    rcases ha with rfl | ⟨e, he, -⟩
    · refine ⟨.ok (k.int u), .inl ?_, .inl ?_⟩
      · rw [Operands.arith_int, hu]
      · rw [Operands.arith_int, hr]
    · cases he
  · rcases ha with rfl | ⟨e, he, hfe⟩
    · -- a value that is no number lets the first operator fail
      exact ⟨.error (.typeMismatch got), .inl (Operands.arith_left hgot op _).symm,
        Operands.arith_left hgot op _⟩
    · -- if it may come to anything, it may come to the same value, and so may the second
      obtain rfl : Fault.typeMismatch got = e :=
        Except.error.inj ((Operands.arith_left hgot op _).symm.trans he)
      obtain ⟨hx, hy⟩ := free_of_merge hz (hfree got) hfe
      exact ⟨.ok v, .inr ⟨_, Operands.arith_left hgot op _, hx⟩,
        .inr ⟨_, Operands.arith_left hgot op' _, hy⟩⟩

/-- An operator that leaves its left operand alone may be left out. -/
theorem neutral (op : ArithOp) (x : Int64) (hop : ∀ n, op.result? n x = some n)
    (hstrict : isStrict op (k.slot (k.int x)) = false) (v : V) :
    Allows (fun e => free ⟨e, isStrict op (k.slot (k.int x))⟩) (k.arith op v (k.int x)) (.ok v) :=
  .arith_of_int (free_of_not_strict hfree hstrict) fun n hn =>
    .inl (by rw [hn, Operands.arith_int, hop])

/-- Rewriting is justified if faults about types are free, but for those of strict operators. -/
theorem algebraic (h : Calculates k free m) (hload : ∀ g w, ∃ v, m.load g w (.value v w)) :
    m.Algebraic where
  sub_int v x a ha := by
    rw [h.arith, h.int] at *
    refine .arith_of_int hfree fun n hn => ha.of_eq ?_
    rw [hn, Operands.arith_int, Operands.arith_int, result?_sub]
  add_zero v := by
    rw [h.arith, h.int]
    exact neutral hfree .add 0 (fun n => congrArg some (Int64.add_zero n)) rfl v
  mul_one v := by
    rw [h.arith, h.int]
    exact neutral hfree .mul 1 (fun n => congrArg some (Int64.mul_one n)) rfl v
  div_one v := by
    rw [h.arith, h.int]
    refine neutral hfree .div 1 (fun n => congrArg some Int64.div_one) ?_ v
    rw [k.slot_int]
    rfl
  mul_zero v := by
    rw [h.arith, h.int]
    refine .arith_of_int hfree fun n hn => .inl ?_
    rw [hn, Operands.arith_int]
    exact congrArg (fun r => Except.ok (k.int r)) Int64.mul_zero.symm
  arith_total op u v hop := by
    rw [h.arith]
    have hfree := free_of_not_strict hfree (not_strict_of_total hop (k.slot v))
    -- where an operand is no integer there is a mismatch, which counts as any value
    rcases k.int_or_mismatch u with ⟨n, rfl⟩ | ⟨got, hgot⟩
    · rcases k.int_or_mismatch v with ⟨n', rfl⟩ | ⟨got, hgot⟩
      · obtain ⟨r, hr⟩ := Option.isSome_iff_exists.mp (ArithOp.result?_isSome hop n n')
        refine ⟨k.int r, .inl ?_⟩
        rw [Operands.arith_int, hr]
      · exact ⟨v, .of_mismatch hfree (Operands.arith_right hgot op n) _⟩
    · exact ⟨u, .of_mismatch hfree (Operands.arith_left hgot op v) _⟩
  negate_total v := by
    rw [h.negate]
    rcases k.int_or_mismatch v with ⟨n, rfl⟩ | ⟨got, hgot⟩
    · exact ⟨k.int (-n), .inl (Operands.negate_int n).symm⟩
    · have hneg : k.negate v = .error (.typeMismatch got) := by
        unfold Operands.negate
        rw [hgot]
        rfl
      exact ⟨v, .of_mismatch hfree hneg _⟩
  fold op x y z hz := by
    rw [h.arith, h.int]
    refine .inl ?_
    rw [Operands.arith_int, hz]
  comm op v x a hop ha := by
    rw [h.arith, h.int] at *
    have hstrict : ∀ u, isStrict op u = false := by rcases hop with rfl | rfl <;> exact fun _ => rfl
    simp only [hstrict] at ha ⊢
    rcases k.int_or_mismatch v with ⟨n, rfl⟩ | ⟨got, hgot⟩
    · refine ha.of_eq ?_
      rw [Operands.arith_int, Operands.arith_int]
      rcases hop with rfl | rfl
      · exact congrArg (fun r => Except.ok (k.int r)) (Int64.add_comm n x)
      · exact congrArg (fun r => Except.ok (k.int r)) (Int64.mul_comm n x)
    · exact .of_mismatch hfree (Operands.arith_right hgot op x) a
  merge op op' x y z v a hz ha := by
    -- where the two constants merge is decided over the integers, in the lemma of that name
    simp only [h.arith, h.int, k.slot_int] at ha ⊢
    obtain ⟨b, hb, hmerge⟩ := Calculates.merge hfree op op' x y z v a hz ha
    refine ⟨b, hb, ?_⟩
    cases b <;> exact hmerge
  reverse c v x a ha := by
    rw [h.test, h.int] at *
    exact ha.of_eq (Operands.compare_reverse c v x)
  static c x y := by
    rw [h.test, h.int]
    exact .inl (Operands.compare_int c x y).symm
  bool_left c b v a ha := by
    rw [h.test, h.int, h.bool] at *
    refine ha.of_eq ?_
    unfold Operands.compare
    rw [k.integral_bool]
  bool_right c b v a ha := by
    rw [h.test, h.int, h.bool] at *
    refine ha.of_eq ?_
    unfold Operands.compare
    rw [k.integral_bool]
  test_total c u v := by
    rw [h.test]
    cases hx : k.compare c u v with
    | ok b => exact ⟨b, .inl hx.symm⟩
    | error e =>
      obtain ⟨got, rfl⟩ := Operands.compare_error hx
      exact ⟨true, .of_mismatch hfree hx _⟩
  load_total := hload

end Calculates

end ForkLisp.Reference
