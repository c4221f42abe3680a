/-
Reading what was written.

Integers are read as they were written (`writesInt_intDigits`). The text of a floating-point number
is read as this number if it has a point in it (`text_cases`); what has none is the name of
infinity, or one digit with an exponent.
-/
import ForkLisp.Numeric.Layout
import ForkLisp.Proofs.Numeric.Nearest
import ForkLisp.Proofs.Reader.Tokens

namespace ForkLisp.Numeric

/-! ### Digits -/

theorem digitsValue_append (cs ds : List Char) :
    digitsValue (cs ++ ds) = digitsValue cs * 10 ^ ds.length + digitsValue ds := by
  show Nat.ofDigitChars 10 (cs ++ ds) 0 = Nat.ofDigitChars 10 cs 0 * _ + Nat.ofDigitChars 10 ds 0
  rw [Nat.ofDigitChars_append, Nat.ofDigitChars_eq_ofDigitChars_zero, Nat.mul_comm]

theorem digitsValue_zeros (n : Nat) : digitsValue (List.replicate n '0') = 0 :=
  Nat.ofDigitChars_replicate_zero

theorem digitsValue_natDigits (n : Nat) : digitsValue (natDigits n) = n :=
  Nat.ofDigitChars_ten_toDigits

theorem isDigit_natDigits {n : Nat} {c : Char} (h : c ∈ natDigits n) : c.isDigit = true :=
  Nat.isDigit_of_mem_toDigits (by omega) (by omega) h

theorem natDigits_ne_nil (n : Nat) : natDigits n ≠ [] := Nat.toDigits_ne_nil

/-- An integer is written as text that writes it. -/
theorem writesInt_intDigits (n : Int) : WritesInt (intDigits n) n := by
  unfold intDigits
  split
  · rename_i hneg
    have hwrites := WritesInt.minus (natDigits_ne_nil n.natAbs) fun c hc => isDigit_natDigits hc
    rw [digitsValue_natDigits] at hwrites
    rwa [show n = -(n.natAbs : Int) by omega, Int.natAbs_neg, Int.natAbs_natCast]
  · rename_i hpos
    have hwrites := WritesInt.plain (natDigits_ne_nil n.natAbs) fun c hc => isDigit_natDigits hc
    rw [digitsValue_natDigits] at hwrites
    rwa [show n = (n.natAbs : Int) by omega, Int.natAbs_natCast]

/-! ### Reading a decimal -/

namespace Decimal

variable {cs tail : List Char}

/-- A decimal with a point behind its first digits. -/
theorem ofChars?_of_point (h : (splitSign cs).2.dropWhile Char.isDigit = '.' :: tail) :
    ofChars? cs =
      if ((splitSign cs).2.takeWhile Char.isDigit).isEmpty &&
        (tail.takeWhile Char.isDigit).isEmpty then none
      else (readExponent? (tail.dropWhile Char.isDigit)).map fun e => ⟨(splitSign cs).1,
        digitsValue ((splitSign cs).2.takeWhile Char.isDigit ++ tail.takeWhile Char.isDigit),
        e - (tail.takeWhile Char.isDigit).length⟩ := by
  unfold ofChars?
  simp only [h]

/-- A decimal without a point. -/
theorem ofChars?_of_no_point (h : ∀ tail, (splitSign cs).2.dropWhile Char.isDigit ≠ '.' :: tail) :
    ofChars? cs =
      if ((splitSign cs).2.takeWhile Char.isDigit).isEmpty then none
      else (readExponent? ((splitSign cs).2.dropWhile Char.isDigit)).map fun e =>
        ⟨(splitSign cs).1, digitsValue ((splitSign cs).2.takeWhile Char.isDigit), e⟩ := by
  unfold ofChars?
  dsimp only
  generalize (splitSign cs).2.dropWhile Char.isDigit = rest at h ⊢
  cases rest with
  | nil => simp
  | cons c cs =>
    simp

end Decimal

/-- The exponent of a written number: none, or a mark and an integer. -/
inductive WritesExponent : List Char → Int → Prop where
  | none : WritesExponent [] 0
  | mark {cs : List Char} {e : Int} (h : WritesInt cs e) : WritesExponent ('e' :: cs) e

/-- A text writes `digits · 10 ^ exponent` with a point: digits in front of the point, digits behind
it and an exponent. -/
inductive Pointed : List Char → Nat → Int → Prop where
  | point {whole fraction tail : List Char} {e : Int} (hne : whole ≠ [])
      (hwhole : ∀ c ∈ whole, c.isDigit = true) (hfraction : ∀ c ∈ fraction, c.isDigit = true)
      (htail : WritesExponent tail e) :
      Pointed (whole ++ '.' :: (fraction ++ tail)) (digitsValue (whole ++ fraction))
        (e - fraction.length)

theorem WritesExponent.readExponent? {cs : List Char} {e : Int} (h : WritesExponent cs e) :
    Decimal.readExponent? cs = some e := by
  cases h with
  | none => rfl
  | mark h => exact readInt?_eq_some.mpr h

theorem WritesExponent.head_not_digit {cs : List Char} {e : Int} (h : WritesExponent cs e) :
    ∀ c ds, cs = c :: ds → c.isDigit = false := by
  rintro c ds rfl
  cases h
  rfl

theorem takeWhile_digits {cs : List Char} (h : ∀ c ∈ cs, c.isDigit = true) {rest : List Char}
    (hrest : ∀ c ds, rest = c :: ds → c.isDigit = false) :
    (cs ++ rest).takeWhile Char.isDigit = cs ∧ (cs ++ rest).dropWhile Char.isDigit = rest := by
  rw [List.takeWhile_append_of_pos h, List.dropWhile_append_of_pos h]
  cases rest with
  | nil => simp
  | cons c ds => simp [hrest c ds rfl]

/-- The sign in front of digits is told apart from them. -/
theorem splitSign_sign (negative : Bool) {cs : List Char} (hne : cs ≠ [])
    (h : ∀ c ∈ cs, c.isDigit = true) (rest : List Char) :
    splitSign ((if negative then ['-'] else []) ++ (cs ++ rest)) = (negative, cs ++ rest) := by
  cases negative with
  | true => rfl
  | false =>
    obtain ⟨c, cs, rfl⟩ := List.exists_cons_of_ne_nil hne
    exact splitSign_of_digit (h c List.mem_cons_self)

theorem Pointed.ofChars? {cs : List Char} {v : Nat} {e : Int} (h : Pointed cs v e)
    (negative : Bool) :
    Decimal.ofChars? ((if negative then ['-'] else []) ++ cs) = some ⟨negative, v, e⟩ := by
  cases h with
  | @point whole fraction tail e hne hwhole hfraction htail =>
    have hsign := splitSign_sign negative hne hwhole ('.' :: (fraction ++ tail))
    have hpoint : ∀ c ds, '.' :: (fraction ++ tail) = c :: ds → c.isDigit = false := by
      intro c ds hcons
      obtain ⟨rfl, -⟩ := List.cons.inj hcons
      rfl
    obtain ⟨htake, hdrop⟩ := takeWhile_digits hwhole hpoint
    obtain ⟨htake', hdrop'⟩ := takeWhile_digits hfraction htail.head_not_digit
    rw [Decimal.ofChars?_of_point (by rw [hsign]; exact hdrop), hsign, htake, htake', hdrop',
      htail.readExponent?]
    simp [hne]

/-! ### The layout of a decimal -/

namespace Layout

variable {ds : List Char}

theorem trimZeros_append (ds : List Char) : ∃ n, ds = trimZeros ds ++ List.replicate n '0' := by
  have hsplit := List.takeWhile_append_dropWhile (p := (· == '0')) (l := ds.reverse)
  have hzeros : ds.reverse.takeWhile (· == '0') = List.replicate
    (ds.reverse.takeWhile (· == '0')).length '0' :=
    List.eq_replicate_of_mem fun c hc => by simpa using List.mem_takeWhile_imp hc
  refine ⟨(ds.reverse.takeWhile (· == '0')).length, ?_⟩
  have hreverse := congrArg List.reverse hsplit
  rw [List.reverse_append, List.reverse_reverse, hzeros, List.reverse_replicate] at hreverse
  exact hreverse.symm

/-- The digits of a number without the zeros at the end. -/
theorem trimZeros_natDigits {n : Nat} (h : n ≠ 0) : trimZeros (natDigits n) ≠ [] ∧
    (∀ c ∈ trimZeros (natDigits n), c.isDigit = true) ∧
    ∃ k, n = digitsValue (trimZeros (natDigits n)) * 10 ^ k ∧
      (natDigits n).length = (trimZeros (natDigits n)).length + k := by
  obtain ⟨k, hk⟩ := trimZeros_append (natDigits n)
  have hvalue : n = digitsValue (trimZeros (natDigits n)) * 10 ^ k := by
    have hdigits := digitsValue_natDigits n
    rw [hk, digitsValue_append, digitsValue_zeros, List.length_replicate, Nat.add_zero] at hdigits
    exact hdigits.symm
  refine ⟨fun hnil => h ?_, fun c hc => ?_, k, hvalue, ?_⟩
  · rw [hvalue, hnil, digitsValue_nil, Nat.zero_mul]
  · refine isDigit_natDigits (n := n) ?_
    rw [hk]
    exact List.mem_append_left _ hc
  · have hlength := congrArg List.length hk
    rwa [List.length_append, List.length_replicate] at hlength

/-- A text writes a decimal of the same value, whatever its sign is. -/
def Amounts (cs : List Char) (v : Nat) (e : Int) : Prop :=
  ∃ v' e', Pointed cs v' e' ∧
    ∀ negative, (⟨negative, v', e'⟩ : Decimal).toBinary64 = (⟨negative, v, e⟩ : Decimal).toBinary64

theorem amounts_of_eq {cs : List Char} {v v' : Nat} {e e' : Int} (h : Pointed cs v' e')
    (hv : v' = v) (he : e' = e) : Amounts cs v e :=
  ⟨v', e', h, fun negative => by rw [hv, he]⟩

theorem isDigit_zeros (n : Nat) : ∀ c ∈ List.replicate n '0', c.isDigit = true := by
  intro c hc
  rw [List.eq_of_mem_replicate hc]
  rfl

theorem isDigit_append {cs ds : List Char} (hcs : ∀ c ∈ cs, c.isDigit = true)
    (hds : ∀ c ∈ ds, c.isDigit = true) : ∀ c ∈ cs ++ ds, c.isDigit = true :=
  fun c hc => (List.mem_append.mp hc).elim (hcs c) (hds c)

theorem positional_amounts (point : Int) (hne : ds ≠ []) (hds : ∀ c ∈ ds, c.isDigit = true) :
    Amounts (exact.positionalText ds point) (digitsValue ds) (point - ds.length) := by
  unfold positionalText
  by_cases hpoint : point ≤ 0
  · -- zeros between the point and the digits
    have hwrites := Pointed.point (List.cons_ne_nil _ _) (isDigit_zeros 1)
      (isDigit_append (isDigit_zeros (-point).toNat) hds) .none
    rw [List.append_nil] at hwrites
    rw [if_pos hpoint]
    refine amounts_of_eq hwrites ?_ ?_
    · show digitsValue (List.replicate 1 '0' ++ _) = _
      rw [← List.append_assoc, ← List.replicate_add, digitsValue_append,
        digitsValue_zeros, Nat.zero_mul, Nat.zero_add]
    · rw [List.length_append, List.length_replicate]
      omega
  · rw [if_neg hpoint]
    by_cases hlength : ds.length ≤ point.toNat
    · -- zeros between the digits and the point
      have hwrites := Pointed.point (List.append_ne_nil_of_left_ne_nil hne _)
        (isDigit_append hds (isDigit_zeros (point.toNat - ds.length))) (isDigit_zeros 1) .none
      have hvalue : digitsValue (ds ++ List.replicate (point.toNat - ds.length) '0' ++
        List.replicate 1 '0') =
          digitsValue ds * 10 ^ (point.toNat - ds.length + 1) := by
        rw [List.append_assoc, ← List.replicate_add, digitsValue_append, digitsValue_zeros,
          List.length_replicate, Nat.add_zero]
      rw [if_pos hlength]
      refine ⟨_, _, hwrites, fun negative => ?_⟩
      rw [hvalue, Decimal.toBinary64_shift, List.length_replicate]
      congr 2
      omega
    · -- the point between two digits
      have htake : ds.take point.toNat ≠ [] := by
        rw [Ne, List.take_eq_nil_iff, not_or]
        exact ⟨by omega, hne⟩
      have hwrites := Pointed.point htake (fun c hc => hds c (List.mem_of_mem_take hc))
        (fun c hc => hds c (List.mem_of_mem_drop (i := point.toNat) hc)) .none
      rw [List.append_nil] at hwrites
      rw [if_neg hlength]
      refine amounts_of_eq hwrites (by rw [List.take_append_drop]) ?_
      rw [List.length_drop]
      omega

theorem scientific_amounts (point : Int) (hds : ∀ c ∈ ds, c.isDigit = true)
    (hlength : 1 < ds.length) :
    Amounts (scientificText ds point) (digitsValue ds) (point - ds.length) := by
  have htake : ds.take 1 ≠ [] := by
    rw [Ne, List.take_eq_nil_iff, not_or]
    refine ⟨by omega, ?_⟩
    rintro rfl
    exact absurd hlength (by simp)
  have hwrites := Pointed.point htake (fun c hc => hds c (List.mem_of_mem_take hc))
    (fun c hc => hds c (List.mem_of_mem_drop (i := 1) hc)) (.mark (writesInt_intDigits (point - 1)))
  unfold scientificText
  rw [if_neg (by omega), List.append_assoc]
  refine amounts_of_eq hwrites (by rw [List.take_append_drop]) ?_
  rw [List.length_drop]
  omega

/-- The text of a decimal has a point, or is one digit with an exponent. -/
theorem decimalText_cases {d : Decimal} (h : d.digits ≠ 0) :
    (∃ v e, Pointed (exact.decimalText d) v e ∧ (⟨d.negative, v, e⟩ : Decimal).toBinary64 =
      d.toBinary64) ∨
    ∃ c e, c.isDigit = true ∧ exact.decimalText d = c :: 'e' :: intDigits e := by
  obtain ⟨hne, hds, k, hvalue, hlength⟩ := trimZeros_natDigits h
  -- the zeros at the end have gone into the exponent
  have hsame : (⟨d.negative, digitsValue (trimZeros (natDigits d.digits)),
      d.exponent + (natDigits d.digits).length - (trimZeros (natDigits d.digits)).length⟩ :
      Decimal).toBinary64 =
        d.toBinary64 := by
    have hshift := Decimal.toBinary64_shift d.negative
      (digitsValue (trimZeros (natDigits d.digits))) k d.exponent
    rw [← hvalue] at hshift
    refine Eq.trans ?_ hshift.symm
    congr 2
    omega
  unfold decimalText
  dsimp only
  split
  · obtain ⟨v, e, hpointed, hamount⟩ :=
      positional_amounts (d.exponent + (natDigits d.digits).length) hne hds
    exact .inl ⟨v, e, hpointed, (hamount d.negative).trans hsame⟩
  · by_cases hone : 1 < (trimZeros (natDigits d.digits)).length
    · obtain ⟨v, e, hpointed, hamount⟩ :=
        scientific_amounts (d.exponent + (natDigits d.digits).length) hds hone
      exact .inl ⟨v, e, hpointed, (hamount d.negative).trans hsame⟩
    · have hpos := List.length_pos_iff.mpr hne
      obtain ⟨c, hc⟩ := List.length_eq_one_iff.mp (Nat.le_antisymm (Nat.not_lt.mp hone) hpos)
      rw [hc] at hds ⊢
      exact .inr ⟨c, _, hds c List.mem_cons_self, rfl⟩

end Layout

/-! ### The text of a number -/

/-- What is read as a number has a sign and a magnitude that is no more than infinity. -/
theorem code_toBinary64 (d : Decimal) : d.toBinary64.code ≤ Binary64.infinityCode := by
  have hratio : ∀ negative num den, (Binary64.ofRatio negative num den).code ≤
    Binary64.infinityCode := by
    intro negative num den
    unfold Binary64.ofRatio Binary64.nearestCode
    split
    · exact Nat.zero_le _
    · exact Nat.min_le_right _ _
  unfold Decimal.toBinary64
  dsimp only
  split
  · exact Nat.zero_le _
  · split
    · exact Nat.le_refl _
    · split <;> exact hratio _ _ _

theorem negative_toBinary64 (d : Decimal) : d.toBinary64.negative = d.negative := by
  unfold Decimal.toBinary64
  dsimp only
  split
  · rfl
  · split
    · rfl
    · split <;> rfl

/-- The text of a number is read as this number if it has a point in it. Otherwise it is the name of
infinity or one digit with an exponent. -/
theorem text_cases {x : Binary64} (h : x.code ≤ Binary64.infinityCode) :
    ∃ cs, (x.text .exact).toList = (if x.negative then ['-'] else []) ++ cs ∧
      ((∃ v e, Pointed cs v e ∧ (⟨x.negative, v, e⟩ : Decimal).toBinary64 = x) ∨
        cs = ['i', 'n', 'f'] ∨ ∃ c e, c.isDigit = true ∧ cs = c :: 'e' :: intDigits e) := by
  have hnan : x.isNaN = false := by simpa [Binary64.isNaN] using h
  refine ⟨Layout.exact.magnitudeText x, ?_, ?_⟩
  · unfold Binary64.text
    rw [hnan, if_neg Bool.false_ne_true, String.toList_ofList]
  · unfold Layout.magnitudeText
    by_cases hinfinite : x.isInfinite = true
    · rw [if_pos hinfinite]
      exact .inr (.inl rfl)
    · rw [if_neg hinfinite]
      have hfinite : x.isFinite = true := by
        have hne : x.code ≠ Binary64.infinityCode := by simpa [Binary64.isInfinite] using hinfinite
        simpa [Binary64.isFinite] using Nat.lt_of_le_of_ne h hne
      by_cases hzero : x.code = 0
      · rw [if_pos hzero]
        refine .inl ⟨0, -1, ?_, ?_⟩
        · exact Pointed.point (List.cons_ne_nil '0' []) (Layout.isDigit_zeros 1)
            (Layout.isDigit_zeros 1) .none
        · rw [Decimal.toBinary64_zero rfl, ← hzero]
      · rw [if_neg hzero]
        have hread := Binary64.toBinary64_shortest hfinite
        have hdigits : x.shortest.digits ≠ 0 := by
          intro hno
          rw [Decimal.toBinary64_zero hno] at hread
          exact hzero (congrArg Binary64.code hread).symm
        have hsign : x.shortest.negative = x.negative := by
          rw [← negative_toBinary64, hread]
        rcases Layout.decimalText_cases hdigits with ⟨v, e, hpointed, hvalue⟩ | hone
        · rw [hsign, hread] at hvalue
          exact .inl ⟨v, e, hpointed, hvalue⟩
        · exact .inr (.inr hone)

end ForkLisp.Numeric
