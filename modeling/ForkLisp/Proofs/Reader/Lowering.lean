/-
Symbols in lower case.

A symbol is spelled by an atom in lower case. Lowering makes no number of what was none
(`IsName.lowercase`), so the name of a symbol, read as an atom, spells this symbol (`ofAtom?_name`).
-/
import ForkLisp.Reader.Tokenize
import ForkLisp.Proofs.Numeric.Written
import ForkLisp.Proofs.Text.Lowercase

namespace ForkLisp.Reader

open ForkLisp.Numeric ForkLisp.Text

variable {c c' : Char} {cs : List Char}

/-! ### Lowercase forms as atoms -/

theorem isAtomChar_of_letter (h : IsLetter c.toNat) : isAtomChar c = true := by
  have hcases := h.cases
  have hne : ∀ d : Char, d.toNat < 0x66 → c ≠ d := by
    rintro d hd rfl
    omega
  have hblank : isBlank c = false := by
    simp only [isBlank, Bool.or_eq_false_iff, Bool.and_eq_false_iff,
      decide_eq_false_iff_not, beq_eq_false_iff_ne]
    omega
  simp [isAtomChar, hblank, hne]

theorem isDecimalChar_lt (h : TokenKind.isDecimalChar c = true) : c.toNat < 0x66 := by
  simp only [TokenKind.isDecimalChar, Bool.or_eq_true, beq_iff_eq] at h
  rcases h with ((((h | rfl) | rfl) | rfl) | rfl) | rfl
  · simp only [Char.isDigit, Bool.and_eq_true, decide_eq_true_eq] at h
    have hle : c.toNat ≤ 57 := h.2
    omega
  all_goals decide

theorem isAtomChar_lowers (h : Lowers c c') (hc : isAtomChar c = true) : isAtomChar c' = true := by
  rcases h with ⟨hascii, rfl⟩ | ⟨-, -, rfl | hletter⟩
  · have hall : isAtomChar c = true → isAtomChar c.toLower = true :=
      of_ascii (P := fun c => isAtomChar c = true → isAtomChar c.toLower = true) (by decide) hascii
    exact hall hc
  · exact hc
  · exact isAtomChar_of_letter hletter

/-- Only a character of a number is lowered to one. -/
theorem isDecimalChar_lowers (h : Lowers c c') (hc' : TokenKind.isDecimalChar c' = true) :
    c.toNat < 0x80 ∧ TokenKind.isDecimalChar c = true := by
  have hlt := isDecimalChar_lt hc'
  rcases h with ⟨hascii, rfl⟩ | ⟨hc, -, rfl | hletter⟩
  · have hall : TokenKind.isDecimalChar c.toLower = true → TokenKind.isDecimalChar c = true :=
      of_ascii (P := fun c => TokenKind.isDecimalChar c.toLower = true →
        TokenKind.isDecimalChar c = true) (by decide) hascii
    exact ⟨hascii, hall hc'⟩
  · omega
  · have hcases := hletter.cases
    omega

/-- A lowercase form that may be a number comes from a text that may be one. -/
theorem lowercaseAfter_decimal {before : List Char}
    (h : ∀ c ∈ lowercaseAfter before cs, TokenKind.isDecimalChar c = true) :
    (∀ c ∈ cs, TokenKind.isDecimalChar c = true) ∧
      lowercaseAfter before cs = cs.map Char.toLower := by
  induction cs generalizing before with
  | nil => exact ⟨fun c hc => absurd hc List.not_mem_nil, rfl⟩
  | cons c cs ih =>
    obtain ⟨form, hne, hform, hascii, heq⟩ := lowercaseAfter_cons before c cs
    rw [heq] at h ⊢
    obtain ⟨d, hd⟩ := List.exists_mem_of_ne_nil form hne
    obtain ⟨hlt, hdecimal⟩ := isDecimalChar_lowers (hform d hd) (h d (List.mem_append_left _ hd))
    obtain ⟨hall, hmap⟩ := ih fun d hd => h d (List.mem_append_right _ hd)
    refine ⟨?_, ?_⟩
    · intro d hd
      rcases List.mem_cons.mp hd with rfl | hd
      · exact hdecimal
      · exact hall d hd
    · rw [hascii hlt, hmap]
      rfl

/-! ### Capital letters in numbers -/

/-- What holds of lowercase ASCII, and of what does not change, holds of every character. -/
theorem of_toLower {P : Char → Char → Prop}
    (hascii : ∀ n < 0x80, P (Char.ofNat n) (Char.ofNat n).toLower) (hrefl : ∀ c, P c c)
    (c : Char) : P c c.toLower := by
  by_cases hc : c.toNat < 0x80
  · exact of_ascii (P := fun c => P c c.toLower) hascii hc
  · have hsame : c.toLower = c := by
      unfold Char.toLower
      refine dif_neg fun hupper => hc ?_
      have hle : c.toNat ≤ 0x5A := hupper.2
      omega
    rw [hsame]
    exact hrefl c

theorem isDigit_toLower (c : Char) : c.toLower.isDigit = c.isDigit :=
  of_toLower (P := fun c d => d.isDigit = c.isDigit) (by decide) (fun _ => rfl) c

theorem isDecimalChar_toLower (c : Char) :
    TokenKind.isDecimalChar c.toLower = TokenKind.isDecimalChar c :=
  of_toLower (P := fun c d => TokenKind.isDecimalChar d = TokenKind.isDecimalChar c) (by decide)
    (fun _ => rfl) c

theorem toLower_eq_iff (c : Char) {d : Char} (hd : d = '.' ∨ d = '+' ∨ d = '-') :
    c.toLower = d ↔ c = d := by
  rcases hd with rfl | rfl | rfl
  · exact of_toLower (P := fun c e => e = '.' ↔ c = '.') (by decide) (fun _ => Iff.rfl) c
  · exact of_toLower (P := fun c e => e = '+' ↔ c = '+') (by decide) (fun _ => Iff.rfl) c
  · exact of_toLower (P := fun c e => e = '-' ↔ c = '-') (by decide) (fun _ => Iff.rfl) c

theorem toLower_of_isDigit (h : c.isDigit = true) : c.toLower = c :=
  of_toLower (P := fun c d => c.isDigit = true → d = c) (by decide) (fun _ _ => rfl) c h

theorem map_toLower_of_isDigit (h : ∀ c ∈ cs, c.isDigit = true) : cs.map Char.toLower = cs :=
  (List.map_congr_left fun c hc => toLower_of_isDigit (h c hc)).trans (List.map_id cs)

theorem splitSign_toLower (cs : List Char) :
    splitSign (cs.map Char.toLower) = ((splitSign cs).1, (splitSign cs).2.map Char.toLower) := by
  cases cs with
  | nil => rfl
  | cons c cs =>
    by_cases hminus : c = '-'
    · subst hminus
      rfl
    · by_cases hplus : c = '+'
      · subst hplus
        rfl
      · have hminus' : c.toLower ≠ '-' := fun h => hminus ((toLower_eq_iff c (by simp)).mp h)
        have hplus' : c.toLower ≠ '+' := fun h => hplus ((toLower_eq_iff c (by simp)).mp h)
        simp [splitSign, hminus, hplus, hminus', hplus']

theorem takeWhile_toLower (cs : List Char) :
    (cs.map Char.toLower).takeWhile Char.isDigit = cs.takeWhile Char.isDigit := by
  induction cs with
  | nil => rfl
  | cons c cs ih =>
    rw [List.map_cons, List.takeWhile_cons, List.takeWhile_cons, isDigit_toLower, ih]
    split
    · rename_i hdigit
      rw [toLower_of_isDigit hdigit]
    · rfl

theorem dropWhile_toLower (cs : List Char) :
    (cs.map Char.toLower).dropWhile Char.isDigit =
    (cs.dropWhile Char.isDigit).map Char.toLower := by
  have hcomp : Char.isDigit ∘ Char.toLower = Char.isDigit := funext isDigit_toLower
  rw [List.dropWhile_map, hcomp]

theorem all_isDigit_toLower (cs : List Char) :
    (cs.map Char.toLower).all Char.isDigit = cs.all Char.isDigit := by
  have hcomp : Char.isDigit ∘ Char.toLower = Char.isDigit := funext isDigit_toLower
  rw [List.all_map, hcomp]

theorem readInt?_toLower (cs : List Char) : readInt? (cs.map Char.toLower) = readInt? cs := by
  unfold readInt?
  rw [splitSign_toLower]
  dsimp only
  rw [all_isDigit_toLower, List.isEmpty_map]
  split
  · rfl
  · rename_i hdigits
    rw [map_toLower_of_isDigit]
    simp only [Bool.or_eq_true, not_or, Bool.not_eq_true', Bool.not_eq_false,
      List.all_eq_true] at hdigits
    exact hdigits.2

theorem readExponent?_toLower (cs : List Char) :
    Decimal.readExponent? (cs.map Char.toLower) = Decimal.readExponent? cs := by
  cases cs with
  | nil => rfl
  | cons c cs =>
    have hmark : (c.toLower == 'e' || c.toLower == 'E') = (c == 'e' || c == 'E') :=
      of_toLower (P := fun c d => (d == 'e' || d == 'E') = (c == 'e' || c == 'E')) (by decide)
        (fun _ => rfl) c
    rw [List.map_cons, Decimal.readExponent?, Decimal.readExponent?, hmark, readInt?_toLower]

theorem ofChars?_toLower (cs : List Char) :
    Decimal.ofChars? (cs.map Char.toLower) = Decimal.ofChars? cs := by
  have hsplit := splitSign_toLower cs
  by_cases hpoint : ∃ tail, (splitSign cs).2.dropWhile Char.isDigit = '.' :: tail
  · obtain ⟨tail, htail⟩ := hpoint
    have htail' : (splitSign (cs.map Char.toLower)).2.dropWhile Char.isDigit =
        '.' :: tail.map Char.toLower := by
      rw [hsplit, dropWhile_toLower, htail]
      rfl
    rw [Decimal.ofChars?_of_point htail, Decimal.ofChars?_of_point htail', hsplit]
    simp only [takeWhile_toLower, dropWhile_toLower, readExponent?_toLower]
  · have hnone : ∀ tail, (splitSign cs).2.dropWhile Char.isDigit ≠ '.' :: tail := fun tail htail =>
      hpoint ⟨tail, htail⟩
    have hnone' : ∀ tail, (splitSign (cs.map Char.toLower)).2.dropWhile Char.isDigit ≠
      '.' :: tail := by
      intro tail htail
      rw [hsplit, dropWhile_toLower] at htail
      obtain ⟨c, ds, heq, hc, -⟩ := List.map_eq_cons_iff.mp htail
      rw [(toLower_eq_iff c (.inl rfl)).mp hc] at heq
      exact hnone ds heq
    rw [Decimal.ofChars?_of_no_point hnone, Decimal.ofChars?_of_no_point hnone', hsplit]
    simp only [takeWhile_toLower, dropWhile_toLower, readExponent?_toLower]

/-! ### Symbols -/

/-- An atom is read as no number. -/
structure IsName (cs : List Char) : Prop where
  or_else : TokenKind.looksNumeric cs = false ∨ (splitSign cs).2.all Char.isDigit = false ∧
    (((splitSign cs).2.contains '.' && (splitSign cs).2.all TokenKind.isDecimalChar) = false ∨
      Decimal.ofChars? cs = none)

theorem IsName.ofAtom? (h : IsName cs) :
    TokenKind.ofAtom? cs = some (TokenKind.foldedSymbol cs) := by
  unfold TokenKind.ofAtom?
  dsimp only
  rcases h.or_else with hlooks | ⟨hdigits, hdecimal | hnone⟩
  · rw [hlooks]
    rfl
  · rw [hdigits, hdecimal]
    simp
  · rw [hdigits, hnone]
    simp

/-- A symbol is spelled by an atom that is read as no number. -/
theorem isName_of_symbol {name : String}
    (h : TokenKind.ofAtom? cs = some (.symbol name)) : IsName cs := by
  refine ⟨?_⟩
  by_contra hno
  obtain ⟨hlooks, hrest⟩ := not_or.mp hno
  rw [Bool.not_eq_false] at hlooks
  unfold TokenKind.ofAtom? at h
  simp only [hlooks, Bool.not_true, Bool.false_eq_true, if_false] at h
  by_cases hdigits : (splitSign cs).2.all Char.isDigit = true
  · rw [if_pos hdigits] at h
    obtain ⟨v, -, hv⟩ := Option.map_eq_some_iff.mp h
    cases hv
  · rw [if_neg hdigits] at h
    obtain ⟨hdecimal, hsome⟩ := not_or.mp fun hor => hrest ⟨Bool.eq_false_iff.mpr hdigits, hor⟩
    obtain ⟨d, hd⟩ := Option.ne_none_iff_exists'.mp hsome
    rw [Bool.not_eq_false] at hdecimal
    rw [if_pos hdecimal, hd] at h
    cases h

theorem eq_of_ofAtom? {name : String} (h : TokenKind.ofAtom? cs = some (.symbol name)) :
    name = lowercase (String.ofList cs) := by
  rw [(isName_of_symbol h).ofAtom?] at h
  exact (TokenKind.symbol.inj (Option.some.inj h)).symm

/-- An atom that holds anything but the characters of a number is a name. -/
theorem isName_of_mem (hc : c ∈ cs) (h : TokenKind.isDecimalChar c = false) : IsName cs := by
  have hbody : c ∈ (splitSign cs).2 := by
    unfold splitSign
    split
    · exact (List.mem_cons.mp hc).resolve_left fun heq => by subst heq; exact absurd h (by decide)
    · exact (List.mem_cons.mp hc).resolve_left fun heq => by subst heq; exact absurd h (by decide)
    · exact hc
  refine ⟨.inr ⟨List.all_eq_false.mpr ⟨c, hbody, ?_⟩, .inl ?_⟩⟩
  · intro hdigit
    unfold TokenKind.isDecimalChar at h
    rw [hdigit] at h
    exact absurd h (by simp)
  · rw [Bool.and_eq_false_iff]
    exact .inr (List.all_eq_false.mpr ⟨c, hbody, by rw [h]; exact Bool.false_ne_true⟩)

/-- Lower case makes no number of a name. -/
theorem IsName.toLower (h : IsName cs) : IsName (cs.map Char.toLower) := by
  have hlooks : TokenKind.looksNumeric (cs.map Char.toLower) = TokenKind.looksNumeric cs := by
    unfold TokenKind.looksNumeric
    rw [splitSign_toLower]
    cases (splitSign cs).2 with
    | nil => rfl
    | cons c cs => exact isDigit_toLower c
  have hpoint : ((splitSign cs).2.map Char.toLower).contains '.' =
    (splitSign cs).2.contains '.' := by
    rw [Bool.eq_iff_iff, List.contains_iff_mem, List.contains_iff_mem, List.mem_map]
    constructor
    · rintro ⟨c, hc, hlow⟩
      rwa [← (toLower_eq_iff c (.inl rfl)).mp hlow]
    · intro hc
      exact ⟨'.', hc, rfl⟩
  have hdecimal : ((splitSign cs).2.map Char.toLower).all TokenKind.isDecimalChar =
      (splitSign cs).2.all TokenKind.isDecimalChar := by
    have hcomp : TokenKind.isDecimalChar ∘ Char.toLower = TokenKind.isDecimalChar :=
      funext isDecimalChar_toLower
    rw [List.all_map, hcomp]
  refine ⟨?_⟩
  rw [hlooks, splitSign_toLower, all_isDigit_toLower, hpoint, hdecimal, ofChars?_toLower]
  exact h.or_else

/-- The lowercase form of a name is a name. -/
theorem IsName.lowercase (h : IsName cs) (before : List Char) :
    IsName (lowercaseAfter before cs) := by
  by_cases hdecimal : ∀ c ∈ lowercaseAfter before cs, TokenKind.isDecimalChar c = true
  · rw [(lowercaseAfter_decimal hdecimal).2]
    exact h.toLower
  · obtain ⟨c, hc, hno⟩ : ∃ c ∈ lowercaseAfter before cs, ¬ TokenKind.isDecimalChar c = true := by
      simpa only [not_forall, exists_prop] using hdecimal
    exact isName_of_mem hc (Bool.eq_false_iff.mpr hno)

/-- The symbol that an atom spells is spelled by its own name. -/
theorem ofAtom?_name {name : String} (h : TokenKind.ofAtom? cs = some (.symbol name)) :
    TokenKind.ofAtom? name.toList = some (.symbol name) := by
  have hname := eq_of_ofAtom? h
  have hlow : name.toList = lowercaseAfter [] cs := by
    rw [hname, Text.lowercase, String.toList_ofList, String.toList_ofList]
  rw [hlow, ((isName_of_symbol h).lowercase []).ofAtom?, ← hlow,
    TokenKind.foldedSymbol, String.ofList_toList,
    hname, lowercase_lowercase]

end ForkLisp.Reader
