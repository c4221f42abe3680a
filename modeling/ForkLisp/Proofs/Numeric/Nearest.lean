/-
The number nearest to a ratio.

Which number is nearest depends on the value of a ratio only (`nearestCode_congr`), and nearest to
the exact value of a number is the number itself (`nearestCode_ratio`). So it does not matter for a
decimal how many zeros are moved from its digits into its exponent (`toBinary64_shift`), and the
shortest decimal of a finite number is read back as this number (`toBinary64_shortest`).
-/
import Mathlib
import ForkLisp.Numeric.Shortest

namespace ForkLisp.Numeric

namespace Binary64

variable {num den num' den' : Nat}

/-! ### Rounding -/

theorem roundHalfEven_mul (num den : Nat) {k : Nat} (hk : 0 < k) :
    roundHalfEven (num * k) (den * k) = roundHalfEven num den := by
  have hlt : 2 * (num % den * k) < den * k ↔ 2 * (num % den) < den := by
    rw [← Nat.mul_assoc, Nat.mul_lt_mul_right hk]
  have heq : 2 * (num % den * k) = den * k ↔ 2 * (num % den) = den := by
    rw [← Nat.mul_assoc, Nat.mul_left_inj hk.ne']
  simp only [roundHalfEven, Nat.mul_div_mul_right _ _ hk, Nat.mul_mod_mul_right, hlt,
    Bool.beq_eq_decide_eq, heq]

theorem roundHalfEven_congr (hden : 0 < den) (hden' : 0 < den') (h : num * den' = num' * den) :
    roundHalfEven num den = roundHalfEven num' den' := by
  rw [← roundHalfEven_mul num den hden', ← roundHalfEven_mul num' den' hden, h,
    Nat.mul_comm den den']

/-- An integer is not rounded. -/
theorem roundHalfEven_exact (n : Nat) (hden : 0 < den) : roundHalfEven (n * den) den = n := by
  have hmod : n * den % den = 0 := Nat.mul_mod_left n den
  have hdiv : n * den / den = n := Nat.mul_div_cancel n hden
  unfold roundHalfEven
  simp [hmod, hdiv, hden]

/-! ### The unit in the last place -/

theorem le_log_iff {r : ℚ} (hr : 0 < r) (e : Int) : e ≤ Int.log 2 r ↔ (2 : ℚ) ^ e ≤ r :=
  (Int.zpow_le_iff_le_log (b := 2) Nat.one_lt_two hr).symm

theorem log_lt_iff {r : ℚ} (hr : 0 < r) (e : Int) : Int.log 2 r < e ↔ r < (2 : ℚ) ^ e :=
  (Int.lt_zpow_iff_log_lt (b := 2) Nat.one_lt_two hr).symm

/-- A ratio lies below a power of two. -/
theorem below_iff (hden : den ≠ 0) (e : Int) :
    (if 0 ≤ e then num < den * Nat.pow 2 e.toNat else num * Nat.pow 2 (-e).toNat < den) ↔
      (num : ℚ) / den < 2 ^ e := by
  have hpos : (0 : ℚ) < den := by exact_mod_cast Nat.pos_of_ne_zero hden
  rw [div_lt_iff₀ hpos]
  by_cases he : 0 ≤ e
  · obtain ⟨k, rfl⟩ := Int.eq_ofNat_of_zero_le he
    rw [if_pos he, Int.toNat_natCast, zpow_natCast, mul_comm]
    exact_mod_cast Iff.rfl
  · obtain ⟨k, hk⟩ := Int.eq_ofNat_of_zero_le (show 0 ≤ -e by omega)
    have hinv : (2 : ℚ) ^ e = (2 ^ k)⁻¹ := by rw [← zpow_natCast, ← zpow_neg, ← hk, neg_neg]
    have hpow : (0 : ℚ) < 2 ^ k := by positivity
    rw [if_neg he, hk, Int.toNat_natCast, hinv, inv_mul_eq_div, lt_div_iff₀ hpow]
    exact_mod_cast Iff.rfl

theorem unitExponent_eq (hnum : num ≠ 0) (hden : den ≠ 0) :
    unitExponent num den = max (Int.log 2 ((num : ℚ) / den) - 52) minExponent := by
  have hdenpos : (0 : ℚ) < den := by exact_mod_cast Nat.pos_of_ne_zero hden
  have hpos : (0 : ℚ) < num / den := div_pos (by exact_mod_cast Nat.pos_of_ne_zero hnum) hdenpos
  -- the ratio lies between the neighbours of the power that its parts suggest
  have hlow : (2 : ℚ) ^ ((num.log2 : Int) - den.log2 - 1) ≤ num / den := by
    have hn : (2 : ℚ) ^ num.log2 ≤ num := by exact_mod_cast Nat.log2_self_le hnum
    have hd : (den : ℚ) ≤ 2 ^ (den.log2 + 1) := by exact_mod_cast Nat.lt_log2_self.le
    have hexp : ((num.log2 : Int) - den.log2 - 1) = (num.log2 : Int) - (den.log2 + 1 : Nat) := by
      push_cast
      ring
    rw [hexp, zpow_sub₀ two_ne_zero, zpow_natCast, zpow_natCast]
    exact div_le_div₀ (by positivity) hn hdenpos hd
  have hhigh : (num : ℚ) / den < 2 ^ ((num.log2 : Int) - den.log2 + 1) := by
    have hn : (num : ℚ) < 2 ^ (num.log2 + 1) := by exact_mod_cast Nat.lt_log2_self
    have hd : (2 : ℚ) ^ den.log2 ≤ den := by exact_mod_cast Nat.log2_self_le hden
    have hexp : ((num.log2 : Int) - den.log2 + 1) = ((num.log2 + 1 : Nat) : Int) - den.log2 := by
      push_cast
      ring
    rw [hexp, zpow_sub₀ two_ne_zero, zpow_natCast, zpow_natCast]
    exact div_lt_div₀ hn hd (by positivity) (by positivity)
  have hlog := (le_log_iff hpos _).mpr hlow
  have hlog' := (log_lt_iff hpos _).mpr hhigh
  unfold unitExponent
  simp only [below_iff hden]
  split
  · rename_i hbelow
    have hlt := (log_lt_iff hpos _).mpr hbelow
    rw [show Int.log 2 ((num : ℚ) / den) = (num.log2 : Int) - den.log2 - 1 by omega]
  · rename_i hbelow
    have hle := (le_log_iff hpos _).mpr (not_lt.mp hbelow)
    rw [show Int.log 2 ((num : ℚ) / den) = (num.log2 : Int) - den.log2 by omega]

/-- The nearest number depends on the value only. -/
theorem nearestCode_congr (hden : den ≠ 0) (hden' : den' ≠ 0) (h : num * den' = num' * den) :
    nearestCode num den = nearestCode num' den' := by
  have hpos := Nat.pos_of_ne_zero hden
  have hpos' := Nat.pos_of_ne_zero hden'
  by_cases hnum : num = 0
  · obtain rfl : num' = 0 := by
      rw [hnum, Nat.zero_mul] at h
      exact (Nat.mul_eq_zero.mp h.symm).resolve_right hden
    unfold nearestCode
    rw [if_pos hnum, if_pos rfl]
  · have hnum' : num' ≠ 0 := by
      rintro rfl
      rw [Nat.zero_mul] at h
      exact (Nat.mul_ne_zero hnum hden') h
    have hvalue : (num : ℚ) / den = num' / den' := by
      rw [div_eq_div_iff (by exact_mod_cast hden) (by exact_mod_cast hden')]
      exact_mod_cast h
    have hunit : unitExponent num den = unitExponent num' den' := by
      rw [unitExponent_eq hnum hden, unitExponent_eq hnum' hden', hvalue]
    unfold nearestCode
    rw [if_neg hnum, if_neg hnum', hunit]
    generalize unitExponent num' den' = q
    have hround : ∀ k, roundHalfEven num (den * 2 ^ k) = roundHalfEven num' (den' * 2 ^ k) :=
      fun k => roundHalfEven_congr (by positivity) (by positivity)
        (by rw [← Nat.mul_assoc, h, Nat.mul_assoc])
    have hround' : ∀ k, roundHalfEven (num * 2 ^ k) den = roundHalfEven (num' * 2 ^ k) den' :=
      fun k => roundHalfEven_congr hpos hpos'
        (by rw [Nat.mul_right_comm, h, Nat.mul_right_comm])
    simp only [Nat.pow_eq, hround, hround']

/-! ### The exact value -/

theorem mantissa_lt (x : Binary64) : x.mantissa < 2 ^ 53 := by
  unfold mantissa leadingBit
  simp only [Nat.pow_eq]
  split <;> omega

/-- The leading bit is there, or the exponent is the least one. -/
theorem normal_or_least (x : Binary64) : 2 ^ 52 ≤ x.mantissa ∨ x.exponent = minExponent := by
  unfold mantissa exponent leadingBit
  simp only [Nat.pow_eq]
  split
  · exact .inr rfl
  · exact .inl (Nat.le_add_right _ _)

theorem minExponent_le (x : Binary64) : minExponent ≤ x.exponent := by
  unfold exponent leadingBit
  simp only [Nat.pow_eq]
  split <;> omega

theorem code_eq (x : Binary64) :
    (x.exponent - minExponent).toNat * 2 ^ 52 + x.mantissa = x.code := by
  unfold mantissa exponent leadingBit
  simp only [Nat.pow_eq]
  split <;> omega

theorem exponent_le {x : Binary64} (h : x.isFinite = true) : x.exponent ≤ 971 := by
  have hcode : x.code < infinityCode := by simpa [isFinite] using h
  unfold exponent
  unfold infinityCode leadingBit at *
  unfold minExponent
  simp only [Nat.pow_eq] at *
  split <;> omega

theorem mantissa_ne_zero {x : Binary64} (h : x.code ≠ 0) : x.mantissa ≠ 0 := by
  unfold mantissa leadingBit
  simp only [Nat.pow_eq]
  split <;> omega

theorem ratio_den (x : Binary64) : x.ratio.2 ≠ 0 := by
  unfold ratio
  split <;> simp [Nat.pow_eq]

theorem ratio_value (x : Binary64) : (x.ratio.1 : ℚ) / x.ratio.2 = x.mantissa * 2 ^ x.exponent := by
  unfold ratio
  by_cases he : 0 ≤ x.exponent
  · obtain ⟨k, hk⟩ := Int.eq_ofNat_of_zero_le he
    rw [if_pos he, hk, Int.toNat_natCast, zpow_natCast]
    simp [Nat.pow_eq]
  · obtain ⟨k, hk⟩ := Int.eq_ofNat_of_zero_le (show 0 ≤ -x.exponent by omega)
    have hinv : (2 : ℚ) ^ x.exponent = (2 ^ k)⁻¹ := by
      rw [← zpow_natCast, ← zpow_neg, ← hk, neg_neg]
    rw [if_neg he, hk, Int.toNat_natCast, hinv]
    simp [Nat.pow_eq, div_eq_mul_inv]

theorem unitExponent_ratio {x : Binary64} (h : x.code ≠ 0) :
    unitExponent x.ratio.1 x.ratio.2 = x.exponent := by
  have hmantissa := Nat.pos_of_ne_zero (mantissa_ne_zero h)
  have hpow : (0 : ℚ) < 2 ^ x.exponent := by positivity
  have hpos : (0 : ℚ) < x.mantissa * 2 ^ x.exponent := mul_pos (by exact_mod_cast hmantissa) hpow
  have hnum : x.ratio.1 ≠ 0 := by
    intro hzero
    have hvalue := x.ratio_value
    rw [hzero, Nat.cast_zero, zero_div] at hvalue
    exact hpos.ne hvalue
  have hlt : (x.mantissa : ℚ) * 2 ^ x.exponent < 2 ^ (53 + x.exponent) := by
    rw [zpow_add₀ two_ne_zero]
    exact mul_lt_mul_of_pos_right (by exact_mod_cast x.mantissa_lt) hpow
  have hlog := (log_lt_iff hpos _).mpr hlt
  have hleast := x.minExponent_le
  rw [unitExponent_eq hnum x.ratio_den, ratio_value]
  rcases x.normal_or_least with hnormal | hexp
  · have hle : (2 : ℚ) ^ (52 + x.exponent) ≤ x.mantissa * 2 ^ x.exponent := by
      rw [zpow_add₀ two_ne_zero]
      exact mul_le_mul_of_nonneg_right (by exact_mod_cast hnormal) hpow.le
    have hlog' := (le_log_iff hpos _).mpr hle
    omega
  · omega

/-- Nearest to the exact value of a number is the number itself. -/
theorem nearestCode_ratio {x : Binary64} (hfinite : x.isFinite = true) (h : x.code ≠ 0) :
    nearestCode x.ratio.1 x.ratio.2 = x.code := by
  have hround : (if 0 ≤ x.exponent then roundHalfEven x.ratio.1 (x.ratio.2 * 2 ^ x.exponent.toNat)
      else roundHalfEven (x.ratio.1 * 2 ^ (-x.exponent).toNat) x.ratio.2) = x.mantissa := by
    unfold ratio
    by_cases he : 0 ≤ x.exponent
    · rw [if_pos he, if_pos he, Nat.one_mul]
      exact roundHalfEven_exact _ (Nat.two_pow_pos _)
    · rw [if_neg he, if_neg he]
      exact roundHalfEven_exact _ (Nat.two_pow_pos _)
  have hnum : x.ratio.1 ≠ 0 := by
    have hmantissa := mantissa_ne_zero h
    unfold ratio
    split <;> simp [Nat.pow_eq, hmantissa]
  have hcode : x.code < infinityCode := by simpa [isFinite] using hfinite
  unfold nearestCode
  simp only [if_neg hnum, unitExponent_ratio h, Nat.pow_eq]
  rw [hround]
  show min ((x.exponent - minExponent).toNat * 2 ^ 52 + x.mantissa) infinityCode = x.code
  rw [code_eq]
  omega

end Binary64

/-! ### Decimals of one value -/

theorem natDigits_ten {n : Nat} (h : 0 < n) : natDigits (10 * n) = natDigits n ++ ['0'] :=
  (Nat.toDigits_append_toDigits (b := 10) (d := 0) (by omega) h (by omega)).symm

namespace Decimal

theorem toBinary64_zero {d : Decimal} (h : d.digits = 0) : d.toBinary64 = ⟨d.negative, 0⟩ := by
  simp [toBinary64, h]

theorem toBinary64_ten (negative : Bool) (v : Nat) (e : Int) :
    (⟨negative, 10 * v, e⟩ : Decimal).toBinary64 = (⟨negative, v, e + 1⟩ : Decimal).toBinary64 := by
  by_cases hv : v = 0
  · subst hv
    rw [toBinary64_zero rfl, toBinary64_zero (Nat.mul_zero 10)]
  · have hten : 10 * v ≠ 0 := by omega
    have hwidth : (⟨negative, 10 * v, e⟩ : Decimal).width =
      (⟨negative, v, e + 1⟩ : Decimal).width + 1 := by
      simp only [width, hv, hten, if_false, natDigits_ten (Nat.pos_of_ne_zero hv),
        List.length_append]
      rfl
    have hpoint : e + ((⟨negative, 10 * v, e⟩ : Decimal).width : Int) =
        e + 1 + ((⟨negative, v, e + 1⟩ : Decimal).width : Int) := by
      rw [hwidth]
      push_cast
      ring
    have hrange : (if 0 ≤ e then Binary64.ofRatio negative (10 * v * Nat.pow 10 e.toNat) 1
        else .ofRatio negative (10 * v) (Nat.pow 10 (-e).toNat)) =
        if 0 ≤ e + 1 then .ofRatio negative (v * Nat.pow 10 (e + 1).toNat) 1
        else .ofRatio negative v (Nat.pow 10 (-(e + 1)).toNat) := by
      simp only [Nat.pow_eq, Binary64.ofRatio]
      -- the power of ten goes from one side of the ratio to the other between `-1` and `0`
      by_cases he : 0 ≤ e
      · obtain ⟨k, rfl⟩ := Int.eq_ofNat_of_zero_le he
        rw [if_pos he, if_pos (by omega), Int.toNat_natCast,
          show ((k : Int) + 1).toNat = k + 1 by omega,
          pow_succ]
        exact congrArg _ (congrArg (Binary64.nearestCode · 1) (by ring))
      · obtain ⟨k, hk⟩ := Int.eq_ofNat_of_zero_le (show 0 ≤ -e - 1 by omega)
        have hneg : (-e).toNat = k + 1 := by omega
        rw [if_neg he, hneg]
        by_cases hzero : k = 0
        · subst hzero
          rw [if_pos (by omega), show (e + 1).toNat = 0 by omega]
          exact congrArg _ (Binary64.nearestCode_congr (by positivity) one_ne_zero (by ring))
        · rw [if_neg (by omega), show (-(e + 1)).toNat = k by omega]
          exact congrArg _ (Binary64.nearestCode_congr (by positivity) (by positivity) (by ring))
    unfold toBinary64
    simp only [hpoint, hrange, hten, hv, decide_false]

/-- Zeros at the end of the digits may go into the exponent. -/
theorem toBinary64_shift (negative : Bool) (v k : Nat) (e : Int) :
    (⟨negative, v * 10 ^ k, e⟩ : Decimal).toBinary64 =
    (⟨negative, v, e + k⟩ : Decimal).toBinary64 := by
  induction k generalizing e with
  | zero => rw [pow_zero, Nat.mul_one, Nat.cast_zero, add_zero]
  | succ k ih =>
    have hpow : v * 10 ^ (k + 1) = 10 * (v * 10 ^ k) := by ring
    have hexp : e + ((k + 1 : Nat) : Int) = e + 1 + k := by
      push_cast
      ring
    rw [hpow, toBinary64_ten, ih, hexp]

/-- The cases in which no power of ten is computed. -/
theorem toBinary64_eq {d : Decimal} (hdigits : d.digits ≠ 0) (hlow : -400 ≤ d.exponent + d.width)
    (hhigh : d.exponent + d.width ≤ 400) :
    d.toBinary64 = if 0 ≤ d.exponent then .ofRatio d.negative (d.digits * 10 ^ d.exponent.toNat) 1
      else .ofRatio d.negative d.digits (10 ^ (-d.exponent).toNat) := by
  have hno : ¬ (d.digits = 0 ∨ d.exponent + (d.width : Int) < -400) := by omega
  unfold toBinary64
  simp only [Bool.or_eq_true, decide_eq_true_eq, if_neg hno, if_neg (not_lt.mpr hhigh), Nat.pow_eq]

theorem width_le_iff {d : Decimal} (hdigits : d.digits ≠ 0) {k : Nat} (hk : 0 < k) :
    d.width ≤ k ↔ d.digits < 10 ^ k := by
  unfold width
  rw [if_neg hdigits]
  exact Nat.length_toDigits_le_iff (by omega) hk

end Decimal

namespace Binary64

/-- The decimal with every digit of a number is read as the number. -/
theorem toBinary64_exact {x : Binary64} (hfinite : x.isFinite = true) (h : x.code ≠ 0) :
    x.exact.toBinary64 = x := by
  have hmantissa := mantissa_ne_zero h
  have hlt := x.mantissa_lt
  have hnearest := nearestCode_ratio hfinite h
  unfold exact
  unfold ratio at hnearest
  simp only [Nat.pow_eq] at hnearest ⊢
  -- below zero the exponent is that of a five, since 2⁻ᵏ is 5ᵏ tenths to the k
  by_cases he : 0 ≤ x.exponent
  · obtain ⟨k, hk⟩ := Int.eq_ofNat_of_zero_le he
    have hle := exponent_le hfinite
    rw [if_pos he] at hnearest ⊢
    rw [hk, Int.toNat_natCast] at hnearest ⊢
    have hdigits : x.mantissa * 2 ^ k ≠ 0 := by positivity
    have hwidth : (⟨x.negative, x.mantissa * 2 ^ k, 0⟩ : Decimal).width ≤ 400 := by
      refine (Decimal.width_le_iff hdigits (by omega)).mpr ?_
      calc x.mantissa * 2 ^ k
        _ < 2 ^ 53 * 2 ^ k := Nat.mul_lt_mul_of_pos_right hlt (Nat.two_pow_pos k)
        _ ≤ 2 ^ 53 * 2 ^ 971 := Nat.mul_le_mul_left _ (Nat.pow_le_pow_right (by omega) (by omega))
        _ ≤ 10 ^ 400 := by decide +kernel
    rw [Decimal.toBinary64_eq hdigits (by show -400 ≤ (0 : Int) + _; omega)
      (by show (0 : Int) + _ ≤ 400; omega), if_pos (Int.le_refl 0)]
    exact congrArg _ ((congrArg (nearestCode · 1) (Nat.mul_one _)).trans hnearest)
  · obtain ⟨k, hk⟩ := Int.eq_ofNat_of_zero_le (show 0 ≤ -x.exponent by omega)
    have hle : k ≤ 1074 := by
      have hleast := x.minExponent_le
      unfold minExponent at hleast
      omega
    rw [if_neg he] at hnearest ⊢
    rw [hk, Int.toNat_natCast] at hnearest ⊢
    have hdigits : x.mantissa * 5 ^ k ≠ 0 := by positivity
    have hhigh : (⟨x.negative, x.mantissa * 5 ^ k, x.exponent⟩ : Decimal).width ≤ k + 400 := by
      refine (Decimal.width_le_iff hdigits (by omega)).mpr ?_
      calc x.mantissa * 5 ^ k
        _ ≤ x.mantissa * 10 ^ k := Nat.mul_le_mul_left _ (Nat.pow_le_pow_left (by omega) k)
        _ < 10 ^ 400 * 10 ^ k :=
        Nat.mul_lt_mul_of_pos_right (hlt.trans (by decide +kernel)) (by positivity)
        _ = 10 ^ (k + 400) := by rw [← pow_add, Nat.add_comm]
    -- the powers of five alone have almost as many digits as are behind the point
    have hlow : k ≤ (⟨x.negative, x.mantissa * 5 ^ k, x.exponent⟩ : Decimal).width + 400 := by
      by_contra hshort
      have hwidth :
          (⟨x.negative, x.mantissa * 5 ^ k, x.exponent⟩ : Decimal).width ≤ k - 401 + 1 := by
        omega
      have hfew := (Decimal.width_le_iff hdigits (Nat.succ_pos (k - 401))).mp hwidth
      have hmany : 10 ^ (k - 401 + 1) ≤ x.mantissa * 5 ^ k := by
        calc 10 ^ (k - 401 + 1)
          _ = 2 ^ (k - 401 + 1) * 5 ^ (k - 401 + 1) := Nat.mul_pow 2 5 _
          _ ≤ 5 ^ 400 * 5 ^ (k - 401 + 1) := by
            refine Nat.mul_le_mul_right _ ?_
            exact (Nat.pow_le_pow_right (by omega) (by omega : k - 401 + 1 ≤ 674)).trans
              (by decide +kernel)
          _ = 5 ^ k := by rw [← pow_add]; congr 1; omega
          _ ≤ x.mantissa * 5 ^ k := Nat.le_mul_of_pos_left _ (Nat.pos_of_ne_zero hmantissa)
      exact absurd hfew (Nat.not_lt.mpr hmany)
    rw [Decimal.toBinary64_eq hdigits (by show -400 ≤ x.exponent + _; omega)
      (by show x.exponent + _ ≤ 400; omega), if_neg he]
    have hsame : nearestCode (x.mantissa * 5 ^ k) (10 ^ k) = nearestCode x.mantissa (2 ^ k) := by
      refine nearestCode_congr (by positivity) (by positivity) ?_
      rw [Nat.mul_assoc, ← Nat.mul_pow 5 2 k]
    show (⟨x.negative, nearestCode (x.mantissa * 5 ^ k) (10 ^ (-x.exponent).toNat)⟩ : Binary64) = x
    rw [hk, Int.toNat_natCast, hsame, hnearest]

/-- The shortest decimal of a number is read as the number. -/
theorem toBinary64_shortest {x : Binary64} (hfinite : x.isFinite = true) :
    x.shortest.toBinary64 = x := by
  unfold shortest
  split
  · rename_i hzero
    rw [Decimal.toBinary64_zero rfl, ← hzero]
  · rename_i hzero
    cases hfind : (List.range 17).findSome? fun n => x.hit? (n + 1) with
    | none => exact toBinary64_exact hfinite hzero
    | some d =>
      obtain ⟨n, -, hhit⟩ := List.exists_of_findSome?_eq_some hfind
      exact toBinary64_of_hit hhit

end Binary64

end ForkLisp.Numeric
