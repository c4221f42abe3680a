/-
Lower case.

The characters of a lowercase form have no lowercase forms of their own (`Lowers.isLower`), so lower
case is not changed by lowering it again (`lowercase_lowercase`). Outside ASCII a character is
lowered to a letter, in code ranges without blanks, punctuation and digits, or stays as it is.
-/
import Mathlib
import ForkLisp.Text.Lowercase

namespace ForkLisp.Text

/-! ### The table of lowercase characters -/

/-- The lowercase character of the last character of a run. -/
def CaseRun.targetLast (r : CaseRun) : Nat := r.target + (r.last - r.first)

/-- The runs of characters outside ASCII that have a lowercase form of their own. -/
def capitalRuns : List CaseRun :=
  ⟨0x130, 0x130, 1, 0x69⟩ :: ⟨0x3A3, 0x3A3, 1, 0x3C3⟩ :: lowercaseRuns

/-- No lowercase character of the run `r` belongs to the run `s`. -/
def CaseRun.apart (r s : CaseRun) : Bool :=
  r.targetLast < s.first || s.last < r.target ||
    (List.range (r.last - r.first + 1)).all fun k => k % r.step != 0 || !s.contains (r.target + k)

theorem runs_apart : (lowercaseRuns.all fun r => capitalRuns.all fun s => r.apart s) = true := by
  decide +kernel

/-- Ranges of code points that hold no blank, no punctuation of the language and no character of a
number, and of ASCII only lowercase letters. -/
def letterRanges : List (Nat × Nat) :=
  [(0x66, 0x7A), (0xA1, 0x167F), (0x1681, 0x1FFF), (0x2030, 0x205E),
    (0x2060, 0x2FFF), (0x3001, 0xD7FF), (0xE000, 0x10FFFF)]

/-- A code point lies in one of these ranges. -/
def IsLetter (n : Nat) : Prop := inRanges letterRanges n = true

instance (n : Nat) : Decidable (IsLetter n) := inferInstanceAs (Decidable (_ = true))

theorem runs_letters : (lowercaseRuns.all fun r => letterRanges.any fun range =>
    decide (range.1 ≤ r.target) && decide (r.targetLast ≤ range.2)) = true := by
  decide +kernel

/-- A character without a lowercase form of its own. -/
structure IsLower (c : Char) : Prop where
  ne_sigma : c.toNat ≠ 0x3A3
  lowercaseChar : lowercaseChar c = [c]

theorem CaseRun.contains_iff {r : CaseRun} {n : Nat} :
    r.contains n = true ↔ r.first ≤ n ∧ n ≤ r.last ∧ (n - r.first) % r.step = 0 := by
  simp [contains, and_assoc]

theorem inRanges_iff {ranges : List (Nat × Nat)} {n : Nat} :
    inRanges ranges n = true ↔ ∃ range ∈ ranges, range.1 ≤ n ∧ n ≤ range.2 := by
  simp [inRanges]

namespace IsLetter

variable {n : Nat} {c : Char}

theorem cases (h : IsLetter n) : (0x66 ≤ n ∧ n ≤ 0x7A) ∨ (0xA1 ≤ n ∧ n ≤ 0x167F) ∨
    (0x1681 ≤ n ∧ n ≤ 0x1FFF) ∨ (0x2030 ≤ n ∧ n ≤ 0x205E) ∨ (0x2060 ≤ n ∧ n ≤ 0x2FFF) ∨
    (0x3001 ≤ n ∧ n ≤ 0xD7FF) ∨ (0xE000 ≤ n ∧ n ≤ 0x10FFFF) := by
  simpa [letterRanges] using inRanges_iff.mp h

theorem toNat_ofNat (h : IsLetter n) : (Char.ofNat n).toNat = n := by
  have hvalid : n.isValidChar := by
    have hcases := h.cases
    unfold Nat.isValidChar
    omega
  rw [Char.ofNat, dif_pos hvalid]
  rfl

/-- Outside of the runs a letter has no lowercase form of its own. -/
theorem isLower (h : IsLetter n) (hfree : ∀ s ∈ capitalRuns, s.contains n = false) :
    IsLower (Char.ofNat n) := by
  have hcode := h.toNat_ofNat
  have hnot : ∀ m, ⟨m, m, 1, 0x69⟩ ∈ capitalRuns ∨ ⟨m, m, 1, 0x3C3⟩ ∈ capitalRuns → n ≠ m := by
    rintro m (hm | hm) rfl
    · exact absurd (hfree _ hm) (by simp [CaseRun.contains])
    · exact absurd (hfree _ hm) (by simp [CaseRun.contains])
  refine ⟨?_, ?_⟩
  · rw [hcode]
    exact hnot 0x3A3 (.inr (List.mem_cons_of_mem _ List.mem_cons_self))
  · unfold lowercaseChar
    rw [hcode]
    by_cases hascii : n < 0x80
    · have hsmall : ∀ m < 0x80, 0x66 ≤ m → (Char.ofNat m).toLower = Char.ofNat m := by decide
      have hcases := h.cases
      rw [if_pos hascii, hsmall n hascii (by omega)]
    · have hnone : lowercaseRuns.find? (·.contains n) = none := by
        refine List.find?_eq_none.mpr fun s hs => ?_
        rw [hfree s (List.mem_cons_of_mem _ (List.mem_cons_of_mem _ hs))]
        exact Bool.false_ne_true
      rw [if_neg hascii, if_neg (hnot 0x130 (.inl List.mem_cons_self)), hnone]

end IsLetter

/-- The lowercase character of a run is a letter, and has no lowercase form of its own. -/
theorem isLower_of_run {r : CaseRun} {n : Nat} (hr : r ∈ lowercaseRuns) (hn : r.contains n = true) :
    IsLetter (r.target + (n - r.first)) ∧ IsLower (Char.ofNat (r.target + (n - r.first))) := by
  obtain ⟨hfirst, hlast, hstep⟩ := CaseRun.contains_iff.mp hn
  have hletter : IsLetter (r.target + (n - r.first)) := by
    obtain ⟨range, hmem, hrange⟩ := List.any_eq_true.mp (List.all_eq_true.mp runs_letters r hr)
    rw [Bool.and_eq_true, decide_eq_true_eq, decide_eq_true_eq, CaseRun.targetLast] at hrange
    exact inRanges_iff.mpr ⟨range, hmem, by omega, by omega⟩
  refine ⟨hletter, hletter.isLower fun s hs => ?_⟩
  have hapart := List.all_eq_true.mp (List.all_eq_true.mp runs_apart r hr) s hs
  unfold CaseRun.apart CaseRun.targetLast at hapart
  rw [Bool.or_eq_true, Bool.or_eq_true, decide_eq_true_eq, decide_eq_true_eq] at hapart
  rw [← Bool.not_eq_true, CaseRun.contains_iff]
  rcases hapart with (hbelow | habove) | hall
  · omega
  · omega
  · have hk := List.all_eq_true.mp hall (n - r.first) (List.mem_range.mpr (by omega))
    rw [← CaseRun.contains_iff, Bool.not_eq_true]
    simpa [hstep] using hk

/-! ### The characters of a lowercase form -/

/-- The lowercase form of the first character may hold the second. -/
def Lowers (c c' : Char) : Prop :=
  c.toNat < 0x80 ∧ c' = c.toLower ∨ 0x80 ≤ c.toNat ∧ IsLower c' ∧ (c' = c ∨ IsLetter c'.toNat)

theorem of_ascii {P : Char → Prop} (h : ∀ n < 0x80, P (Char.ofNat n)) {c : Char}
    (hc : c.toNat < 0x80) :
    P c := by
  have hcode := h c.toNat hc
  rwa [Char.ofNat_toNat] at hcode

theorem Lowers.isLower {c c' : Char} (h : Lowers c c') : IsLower c' := by
  rcases h with ⟨hascii, rfl⟩ | ⟨-, hlower, -⟩
  · obtain ⟨hlt, hlow⟩ : c.toLower.toNat < 0x80 ∧ c.toLower.toLower = c.toLower :=
      of_ascii (P := fun c => c.toLower.toNat < 0x80 ∧ c.toLower.toLower = c.toLower)
        (by decide) hascii
    refine ⟨by omega, ?_⟩
    unfold lowercaseChar
    rw [if_pos hlt, hlow]
  · exact hlower

theorem lowers_letter {n : Nat} {c : Char} (hc : 0x80 ≤ c.toNat) (h : IsLetter n)
    (hlower : IsLower (Char.ofNat n)) : Lowers c (Char.ofNat n) :=
  .inr ⟨hc, hlower, .inr (h.toNat_ofNat.symm ▸ h)⟩

theorem mem_lowercaseChar {c c' : Char} (hsigma : c.toNat ≠ 0x3A3) (h : c' ∈ lowercaseChar c) :
    Lowers c c' := by
  by_cases hascii : c.toNat < 0x80
  · unfold lowercaseChar at h
    rw [if_pos hascii] at h
    exact .inl ⟨hascii, List.mem_singleton.mp h⟩
  · have hc : 0x80 ≤ c.toNat := by omega
    have hform := h
    unfold lowercaseChar at hform
    rw [if_neg hascii] at hform
    split at hform
    · -- the one character with two
      rcases List.mem_pair.mp hform with rfl | rfl
      · exact lowers_letter (n := 0x69) hc (by decide) ⟨by decide, by decide +kernel⟩
      · exact lowers_letter hc (by decide) ⟨by decide, by decide +kernel⟩
    · rename_i hdot
      cases hfind : lowercaseRuns.find? (·.contains c.toNat) with
      | some r =>
        rw [hfind] at hform
        obtain rfl := List.mem_singleton.mp hform
        have hcontains := List.find?_some (p := fun r : CaseRun => r.contains c.toNat) hfind
        obtain ⟨hletter, hlower⟩ := isLower_of_run (List.mem_of_find?_eq_some hfind) hcontains
        exact lowers_letter hc hletter hlower
      | none =>
        rw [hfind] at hform
        obtain rfl := List.mem_singleton.mp hform
        refine .inr ⟨hc, ⟨hsigma, ?_⟩, .inl rfl⟩
        unfold lowercaseChar
        rw [if_neg hascii, if_neg hdot, hfind]

/-- The lowercase form of a text is that of its first character, in front of the rest. -/
theorem lowercaseAfter_cons (before : List Char) (c : Char) (cs : List Char) :
    ∃ form, form ≠ [] ∧ (∀ c' ∈ form, Lowers c c') ∧ (c.toNat < 0x80 → form = [c.toLower]) ∧
      lowercaseAfter before (c :: cs) = form ++ lowercaseAfter (c :: before) cs := by
  by_cases hsigma : c.toNat = 0x3A3
  · refine ⟨[Char.ofNat (if endsWord before cs then 0x3C2 else 0x3C3)],
      List.cons_ne_nil _ _, ?_, ?_, ?_⟩
    · intro c' hc'
      obtain rfl := List.mem_singleton.mp hc'
      split
      · exact lowers_letter (by omega) (by decide) ⟨by decide, by decide +kernel⟩
      · exact lowers_letter (by omega) (by decide) ⟨by decide, by decide +kernel⟩
    · intro hascii
      omega
    · rw [lowercaseAfter, if_pos hsigma]
  · refine ⟨lowercaseChar c, ?_, fun c' => mem_lowercaseChar hsigma,
      fun hascii => if_pos hascii, ?_⟩
    · unfold lowercaseChar
      split
      · exact List.cons_ne_nil _ _
      · split
        · exact List.cons_ne_nil _ _
        · split <;> exact List.cons_ne_nil _ _
    · rw [lowercaseAfter, if_neg hsigma]

theorem mem_lowercaseAfter {before cs : List Char} {c' : Char} (h : c' ∈ lowercaseAfter before cs) :
    ∃ c ∈ cs, Lowers c c' := by
  induction cs generalizing before with
  | nil => exact absurd h List.not_mem_nil
  | cons c cs ih =>
    obtain ⟨form, -, hform, -, heq⟩ := lowercaseAfter_cons before c cs
    rw [heq, List.mem_append] at h
    rcases h with h | h
    · exact ⟨c, List.mem_cons_self, hform c' h⟩
    · obtain ⟨d, hd, hlowers⟩ := ih h
      exact ⟨d, List.mem_cons_of_mem c hd, hlowers⟩

theorem lowercaseAfter_ne_nil {before cs : List Char} (h : cs ≠ []) :
    lowercaseAfter before cs ≠ [] := by
  obtain ⟨c, cs, rfl⟩ := List.exists_cons_of_ne_nil h
  obtain ⟨form, hform, -, -, heq⟩ := lowercaseAfter_cons before c cs
  rw [heq]
  exact List.append_ne_nil_of_left_ne_nil hform _

/-- Text that is in lower case stays as it is. -/
theorem lowercaseAfter_of_isLower {cs : List Char} (h : ∀ c ∈ cs, IsLower c) (before : List Char) :
    lowercaseAfter before cs = cs := by
  induction cs generalizing before with
  | nil => rfl
  | cons c cs ih =>
    have hc := h c List.mem_cons_self
    rw [lowercaseAfter, if_neg hc.ne_sigma, hc.lowercaseChar, ih fun d hd =>
      h d (List.mem_cons_of_mem c hd)]
    rfl

/-- Lower case is not changed by lowering it. -/
theorem lowercase_lowercase (s : String) : lowercase (lowercase s) = lowercase s := by
  unfold lowercase
  rw [String.toList_ofList, lowercaseAfter_of_isLower]
  intro c hc
  obtain ⟨d, -, hlowers⟩ := mem_lowercaseAfter hc
  exact hlowers.isLower

end ForkLisp.Text
