/-
Operators with constants.

Over the integers nothing wraps around (`ArithOp.overInt`). An operator on 64-bit numbers comes to
the same, wrapped around, unless it divides by zero (`ArithOp.result?_eq_some`).

Subtracting a constant is adding its negative (`result?_sub`). One constant stands in for two in
sums and products, where it makes no difference when to wrap around, and in quotients by positive
numbers whose product is a number of 64 bits, where nothing wraps around at all
(`mergeConstants?_eq_some`). So both ways come to the same (`result?_merge`).
-/
import ForkLisp.Optimize.Fusion

namespace ForkLisp.Code.ArithOp

/-- What an operator comes to over the integers. Division truncates. -/
def overInt : ArithOp → Int → Int → Int
  | add, a, b => a + b
  | sub, a, b => a - b
  | mul, a, b => a * b
  | div, a, b => a.tdiv b
  | mod, a, b => a.tmod b

/-- An operator has a result unless it divides by zero. The result is the one over the integers,
wrapped around. -/
theorem result?_eq_some {op : ArithOp} {a b n : Int64} :
    op.result? a b = some n ↔
      (op.canFault = true → b ≠ 0) ∧ n.toInt = (op.overInt a.toInt b.toInt).bmod Int64.size := by
  have hmod : (a % b).toInt = (a.toInt.tmod b.toInt).bmod Int64.size := by
    rw [← Int64.toInt_mod]
    exact (Int64.toInt_bmod (a % b)).symm
  have hwraps : ∀ {m : Int64} {i : Int}, m.toInt = i → (some m = some n ↔ n.toInt = i) := by
    rintro m i rfl
    rw [Option.some_inj, ← Int64.toInt_inj, eq_comm]
  cases op with
  | add => simpa [result?, canFault, overInt] using hwraps (Int64.toInt_add a b)
  | sub => simpa [result?, canFault, overInt] using hwraps (Int64.toInt_sub a b)
  | mul => simpa [result?, canFault, overInt] using hwraps (Int64.toInt_mul a b)
  | div =>
    by_cases hb : b = 0
    · simp [result?, canFault, hb]
    · simpa [result?, canFault, overInt, hb] using hwraps (Int64.toInt_div a b)
  | mod =>
    by_cases hb : b = 0
    · simp [result?, canFault, hb]
    · simpa [result?, canFault, overInt, hb] using hwraps hmod

end ForkLisp.Code.ArithOp

namespace ForkLisp.Optimize

open ForkLisp.Code

variable {op op' : ArithOp} {x y z : Int64}

/-! ### Quotients -/

theorem tdiv_tdiv_of_pos (a : Int) {x y : Int} (hx : 0 < x) (hy : 0 < y) :
    (a.tdiv x).tdiv y = a.tdiv (x * y) := by
  have hxy : 0 ≤ x * y := Int.le_of_lt (Int.mul_pos hx hy)
  have hnonneg : ∀ b : Int, 0 ≤ b → (b.tdiv x).tdiv y = b.tdiv (x * y) := by
    intro b hb
    rw [Int.tdiv_eq_ediv_of_nonneg hb, Int.tdiv_eq_ediv_of_nonneg hb,
      Int.tdiv_eq_ediv_of_nonneg (Int.ediv_nonneg hb (Int.le_of_lt hx)),
      Int.ediv_ediv_of_nonneg (Int.le_of_lt hx)]
  rcases Int.le_total 0 a with ha | ha
  · exact hnonneg a ha
  · have h := hnonneg (-a) (Int.neg_nonneg_of_nonpos ha)
    rw [Int.neg_tdiv, Int.neg_tdiv, Int.neg_tdiv] at h
    exact Int.neg_inj.mp h

/-- No quotient by a positive number wraps around. -/
theorem div_of_pos (hx : 0 < x) (v : Int64) :
    ∃ r, ArithOp.div.result? v x = some r ∧ r.toInt = v.toInt.tdiv x.toInt := by
  have hzero : x ≠ 0 := by
    rintro rfl
    exact absurd hx (by decide)
  have hone : x ≠ -1 := by
    rintro rfl
    exact absurd hx (by decide)
  exact ⟨v / x, if_neg hzero, Int64.toInt_div_of_ne_right v x hone⟩

/-! ### Rewriting -/

/-- The product of two positive numbers, if it is a number of 64 bits. -/
theorem positiveProduct?_eq_some :
    positiveProduct? x y = some z ↔ 0 < x ∧ 0 < y ∧ z.toInt = x.toInt * y.toInt := by
  unfold positiveProduct?
  split
  · rename_i h
    obtain ⟨hx, hy, hle⟩ := h
    have hmul : (x * y).toInt = x.toInt * y.toInt := by
      have hpos := Int.mul_pos (Int64.lt_iff_toInt_lt.mp hx) (Int64.lt_iff_toInt_lt.mp hy)
      rw [Int64.toInt_mul]
      refine Int.bmod_eq_of_le ?_ ?_
      · exact Int.le_trans (by decide) (Int.le_of_lt hpos)
      · exact Int.lt_of_le_of_lt hle (by decide)
    rw [Option.some_inj, ← Int64.toInt_inj, hmul, eq_comm]
    exact ⟨fun h => ⟨hx, hy, h⟩, fun h => h.2.2⟩
  · rename_i h
    refine ⟨fun h' => absurd h' (by simp), fun ⟨hx, hy, hz⟩ => absurd ⟨hx, hy, ?_⟩ h⟩
    rw [← hz]
    exact z.toInt_le

/-- Which constants become one, and which one that is. -/
theorem mergeConstants?_eq_some :
    mergeConstants? op op' x y = some z ↔
      op' = op ∧ (op = .add ∧ z = x + y ∨ op = .mul ∧ z = x * y ∨
        op = .div ∧ 0 < x ∧ 0 < y ∧ z.toInt = x.toInt * y.toInt) := by
  rw [← positiveProduct?_eq_some]
  cases op <;> cases op' <;> simp [mergeConstants?, eq_comm]

/-- Subtracting a number is adding its negative, which is the number itself if it is
the least one. -/
theorem result?_sub (v x : Int64) : ArithOp.sub.result? v x = ArithOp.add.result? v (-x) :=
  congrArg some (Int64.sub_eq_add_neg v x)

/-- Two operators with constants come to what the one does that takes their place, and this is what
they come to over the integers, wrapped around at the end. -/
theorem result?_merge (h : mergeConstants? op op' x y = some z) (v : Int64) :
    ∃ r, (op.result? v x).bind (op'.result? · y) = some r ∧ op.result? v z = some r ∧
      r.toInt = (op'.overInt (op.overInt v.toInt x.toInt) y.toInt).bmod Int64.size := by
  obtain ⟨rfl, ⟨rfl, rfl⟩ | ⟨rfl, rfl⟩ | ⟨rfl, hx, hy, hmul⟩⟩ := mergeConstants?_eq_some.mp h
  · -- it makes no difference when sums and products wrap around
    refine ⟨v + x + y, rfl, congrArg some (Int64.add_assoc v x y).symm, ?_⟩
    rw [Int64.toInt_add, Int64.toInt_add, Int.bmod_add_bmod]
    rfl
  · refine ⟨v * x * y, rfl, congrArg some (Int64.mul_assoc v x y).symm, ?_⟩
    rw [Int64.toInt_mul, Int64.toInt_mul, Int.bmod_mul_bmod]
    rfl
  · -- quotients by positive numbers do not wrap around, and truncate twice where they truncate once
    have hx' := Int64.lt_iff_toInt_lt.mp hx
    have hy' := Int64.lt_iff_toInt_lt.mp hy
    have hz : 0 < z := by
      rw [Int64.lt_iff_toInt_lt, hmul]
      exact Int.mul_pos hx' hy'
    obtain ⟨u, hu, huv⟩ := div_of_pos hx v
    obtain ⟨r, hr, hru⟩ := div_of_pos hy u
    obtain ⟨r', hr', hrv⟩ := div_of_pos hz v
    have htwice : r.toInt = (v.toInt.tdiv x.toInt).tdiv y.toInt := by rw [hru, huv]
    have honce : r' = r := by
      rw [← Int64.toInt_inj, hrv, htwice, hmul, tdiv_tdiv_of_pos _ hx' hy']
    refine ⟨r, ?_, ?_, ?_⟩
    · rw [hu, Option.bind_some, hr]
    · rw [hr', honce]
    · rw [ArithOp.overInt, ArithOp.overInt, ← htwice]
      exact (Int64.toInt_bmod r).symm

/-- Two divisions become one by one only if both are by one. -/
theorem eq_one_of_merge (h : mergeConstants? .div .div x y = some 1) : x = 1 ∧ y = 1 := by
  obtain ⟨-, ⟨hop, -⟩ | ⟨hop, -⟩ | ⟨-, hx, hy, hmul⟩⟩ := mergeConstants?_eq_some.mp h
  · cases hop
  · cases hop
  · have hprod : x.toInt * y.toInt = 1 := hmul.symm
    exact ⟨Int64.toInt_inj.mp
        (Int.eq_one_of_mul_eq_one_right (Int.le_of_lt (Int64.lt_iff_toInt_lt.mp hx)) hprod),
      Int64.toInt_inj.mp
        (Int.eq_one_of_mul_eq_one_left (Int.le_of_lt (Int64.lt_iff_toInt_lt.mp hy)) hprod)⟩

/-- Operators that are made one do not divide by zero. -/
theorem ne_zero_of_merge (h : mergeConstants? op op' x y = some z) :
    (op.canFault = true → x ≠ 0) ∧ (op'.canFault = true → y ≠ 0) := by
  obtain ⟨r, htwice, -, -⟩ := result?_merge h 0
  obtain ⟨u, hu, hr⟩ := Option.bind_eq_some_iff.mp htwice
  exact ⟨(ArithOp.result?_eq_some.mp hu).1, (ArithOp.result?_eq_some.mp hr).1⟩

/-- Operators with constants are rewritten exactly on numbers of 64 bits. To subtract a number its
negative is added, which comes to the same. Two operators become one where both are sums, both are
products, or both are quotients by positive numbers whose product does not overflow. Every number
then comes to the same result both ways, and to the one over the integers, wrapped around. Operators
one of which divides by zero never become one. -/
theorem constants_exact (v x y : Int64) :
    (∀ dst, normalize (.arithConst .sub dst x) = .arithConst .add dst (-x)) ∧
    (∃ r, ArithOp.sub.result? v x = some r ∧ ArithOp.add.result? v (-x) = some r ∧
      r.toInt = (v.toInt - x.toInt).bmod Int64.size) ∧
    ∀ op op' : ArithOp,
      (∀ z, mergeConstants? op op' x y = some z ↔
        op' = op ∧ (op = .add ∧ z = x + y ∨ op = .mul ∧ z = x * y ∨
          op = .div ∧ 0 < x ∧ 0 < y ∧ z.toInt = x.toInt * y.toInt)) ∧
      (∀ z, mergeConstants? op op' x y = some z →
        ∃ r, (op.result? v x).bind (op'.result? · y) = some r ∧ op.result? v z = some r ∧
          r.toInt = (op'.overInt (op.overInt v.toInt x.toInt) y.toInt).bmod Int64.size) ∧
      (op.canFault = true ∧ x = 0 ∨ op'.canFault = true ∧ y = 0 →
        mergeConstants? op op' x y = none) := by
  refine ⟨fun dst => rfl, ⟨v - x, rfl, (result?_sub v x).symm, Int64.toInt_sub v x⟩, ?_⟩
  intro op op'
  refine ⟨fun z => mergeConstants?_eq_some, fun z h => result?_merge h v, fun hzero => ?_⟩
  rw [Option.eq_none_iff_forall_ne_some]
  intro z h
  obtain ⟨hx, hy⟩ := ne_zero_of_merge h
  rcases hzero with ⟨hop, hx0⟩ | ⟨hop, hy0⟩
  · exact hx hop hx0
  · exact hy hop hy0

/-- Dividing by two numbers whose product is the greatest one takes the least number to -1, as
dividing by their product does. To subtract the least number it is added, and dividing by it and
then by zero stays as it is. -/
theorem constants_exact_extreme :
    (mergeConstants? .div .div 7 1317624576693539401 = some Int64.maxValue ∧
      (ArithOp.div.result? Int64.minValue 7).bind (ArithOp.div.result? · 1317624576693539401) =
        some (-1) ∧
      ArithOp.div.result? Int64.minValue Int64.maxValue = some (-1)) ∧
    (ArithOp.sub.result? (-1) Int64.minValue = some Int64.maxValue ∧
      normalize (.arithConst .sub 0 Int64.minValue) = .arithConst .add 0 Int64.minValue ∧
      ArithOp.add.result? (-1) Int64.minValue = some Int64.maxValue) ∧
    mergeConstants? .div .div Int64.minValue 0 = none := by
  constructor
  · obtain ⟨-, -, hmerges⟩ := constants_exact Int64.minValue 7 1317624576693539401
    obtain ⟨hwhich, hexact, -⟩ := hmerges .div .div
    have hmerge : mergeConstants? .div .div 7 1317624576693539401 = some Int64.maxValue :=
      (hwhich _).mpr (by decide)
    obtain ⟨r, htwice, honce, hr⟩ := hexact _ hmerge
    obtain rfl : r = -1 := Int64.toInt_inj.mp (hr.trans (by decide))
    exact ⟨hmerge, htwice, honce⟩
  · obtain ⟨hnormal, ⟨r, hsub, hadd, hr⟩, hmerges⟩ := constants_exact (-1) Int64.minValue 0
    obtain ⟨-, -, hzero⟩ := hmerges .div .div
    obtain rfl : r = Int64.maxValue := Int64.toInt_inj.mp (hr.trans (by decide))
    exact ⟨⟨hsub, hnormal 0, hadd⟩, hzero (.inr ⟨rfl, rfl⟩)⟩

end ForkLisp.Optimize
