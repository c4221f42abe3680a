/-
The tokens of a text.

A text splits into tokens if it has no strange blank outside of comments and every atom that writes
an integer writes one of 64 bits (`tokenize_ok_iff`). Its tokens are its pieces then, each with its
place and what it spells (`tokenize_ok`). Otherwise the first strange blank is refused with all that
follows it, or an atom whose number is too large (`tokenize_tokenized`).
-/
import Mathlib
import ForkLisp.Proofs.Pairing
import ForkLisp.Proofs.Reader.Pieces

namespace ForkLisp.Numeric

/-! ### Integers -/

/-- A text writes an integer: digits, with or without a sign in front. -/
inductive WritesInt : List Char → Int → Prop where
  | plain {ds : List Char} (hne : ds ≠ []) (hd : ∀ c ∈ ds, c.isDigit = true) :
      WritesInt ds (digitsValue ds)
  | plus {ds : List Char} (hne : ds ≠ []) (hd : ∀ c ∈ ds, c.isDigit = true) :
      WritesInt ('+' :: ds) (digitsValue ds)
  | minus {ds : List Char} (hne : ds ≠ []) (hd : ∀ c ∈ ds, c.isDigit = true) :
      WritesInt ('-' :: ds) (-digitsValue ds)

/-- An integer has 64 bits. -/
def Fits (v : Int) : Prop := -2 ^ 63 ≤ v ∧ v < 2 ^ 63

instance (v : Int) : Decidable (Fits v) := inferInstanceAs (Decidable (_ ∧ _))

theorem splitSign_of_digit {c : Char} {cs : List Char} (hc : c.isDigit = true) :
    splitSign (c :: cs) = (false, c :: cs) := by
  unfold splitSign
  split
  · rename_i h
    obtain ⟨rfl, -⟩ := List.cons.inj h
    cases hc
  · rename_i h
    obtain ⟨rfl, -⟩ := List.cons.inj h
    cases hc
  · rfl

theorem readInt?_eq_some {cs : List Char} {v : Int} : readInt? cs = some v ↔ WritesInt cs v := by
  constructor
  · intro h
    unfold readInt? splitSign at h
    split at h
    rename_i negative digits hsplit
    split at h
    · cases h
    · rename_i hdigits
      obtain rfl := Option.some.inj h
      obtain ⟨hne, hall⟩ : digits ≠ [] ∧ ∀ c ∈ digits, c.isDigit = true := by
        simpa [not_or] using hdigits
      split at hsplit
      · obtain ⟨rfl, rfl⟩ := Prod.mk.inj hsplit
        exact .minus hne hall
      · obtain ⟨rfl, rfl⟩ := Prod.mk.inj hsplit
        exact .plus hne hall
      · obtain ⟨rfl, rfl⟩ := Prod.mk.inj hsplit
        exact .plain hne hall
  · intro h
    -- the test that `readInt?` makes, passed
    have hdigits : ∀ {ds : List Char}, ds ≠ [] → (∀ c ∈ ds, c.isDigit = true) →
        (ds.isEmpty || !ds.all Char.isDigit) = false := by
      intro ds hne hd
      simpa [hne] using hd
    cases h with
    | @plain _ hne hd =>
      obtain ⟨c, ds, rfl⟩ := List.exists_cons_of_ne_nil hne
      unfold readInt?
      rw [splitSign_of_digit (hd c List.mem_cons_self)]
      simp only [hdigits hne hd]
      rfl
    | plus hne hd =>
      simp only [readInt?, splitSign, hdigits hne hd]
      rfl
    | minus hne hd =>
      simp only [readInt?, splitSign, hdigits hne hd]
      rfl

theorem int64?_eq (v : Int) : int64? v = if Fits v then some (Int64.ofInt v) else none := by
  have hmin : Int64.minValue.toInt = -2 ^ 63 := by decide
  have hmax : Int64.maxValue.toInt = 2 ^ 63 - 1 := by decide
  unfold int64? Fits
  rw [hmin, hmax]
  exact if_congr (by omega) rfl rfl

theorem int64?_eq_none {v : Int} : int64? v = none ↔ ¬ Fits v := by
  rw [int64?_eq]
  simp

theorem int64?_eq_some {v : Int} {n : Int64} : int64? v = some n ↔ n.toInt = v := by
  rw [int64?_eq]
  constructor
  · intro h
    split at h
    · rename_i hfits
      obtain rfl := Option.some.inj h
      exact Int64.toInt_ofInt_of_le hfits.1 hfits.2
    · cases h
  · rintro rfl
    rw [if_pos ⟨Int64.le_toInt n, Int64.toInt_lt n⟩, Int64.ofInt_toInt]

end ForkLisp.Numeric

namespace ForkLisp.Reader

open ForkLisp.Numeric ForkLisp.Source

/-! ### What tokens spell -/

/-- An atom that is read as an integer, if it is small enough, is one that writes an integer. -/
theorem ofAtom?_of_readInt? {atom : List Char} {v : Int} (h : readInt? atom = some v) :
    TokenKind.ofAtom? atom = (int64? v).map TokenKind.int := by
  have hread : readInt64? atom = int64? v := by rw [readInt64?, h, Option.bind_some]
  unfold readInt? at h
  dsimp only at h
  split at h
  · cases h
  · rename_i hdigits
    obtain ⟨hne, hall⟩ : (splitSign atom).2 ≠ [] ∧ (splitSign atom).2.all Char.isDigit = true := by
      simpa [not_or] using hdigits
    have hlooks : TokenKind.looksNumeric atom = true := by
      unfold TokenKind.looksNumeric
      obtain ⟨c, ds, hbody⟩ := List.exists_cons_of_ne_nil hne
      rw [hbody, List.all_cons, Bool.and_eq_true] at hall
      rw [hbody]
      exact hall.1
    unfold TokenKind.ofAtom?
    simp only [hlooks, hall, hread, Bool.not_true, Bool.false_eq_true, if_false, if_true]

/-- Other atoms are floating-point numbers or symbols. -/
theorem ofAtom?_of_readInt?_none {atom : List Char} (h : readInt? atom = none) :
    (∃ x, TokenKind.ofAtom? atom = some (.float x)) ∨
      ∃ name, TokenKind.ofAtom? atom = some (.symbol name) := by
  unfold TokenKind.ofAtom?
  dsimp only
  split
  · exact .inr ⟨_, rfl⟩
  · rename_i hlooks
    split
    · -- the atom would write an integer
      rename_i hall
      exfalso
      have hne : (splitSign atom).2 ≠ [] := by
        intro hnil
        simp [TokenKind.looksNumeric, hnil] at hlooks
      unfold readInt? at h
      dsimp only at h
      split at h
      · rename_i hno
        simp [hne, hall] at hno
      · cases h
    · split
      · split
        · exact .inl ⟨_, rfl⟩
        · exact .inr ⟨_, rfl⟩
      · exact .inr ⟨_, rfl⟩

/-- Only an atom that writes an integer can be refused, and it is if the integer is too large. -/
theorem ofAtom?_eq_none {atom : List Char} :
    TokenKind.ofAtom? atom = none ↔ ∃ v, WritesInt atom v ∧ ¬ Fits v := by
  cases h : readInt? atom with
  | none =>
    constructor
    · intro hno
      rcases ofAtom?_of_readInt?_none h with ⟨x, hx⟩ | ⟨name, hname⟩
      · cases hx.symm.trans hno
      · cases hname.symm.trans hno
    · rintro ⟨v, hv, -⟩
      cases h.symm.trans (readInt?_eq_some.mpr hv)
  | some v =>
    rw [ofAtom?_of_readInt? h, Option.map_eq_none_iff, int64?_eq_none]
    refine ⟨fun hno => ⟨v, readInt?_eq_some.mp h, hno⟩, ?_⟩
    rintro ⟨u, hu, hno⟩
    obtain rfl := Option.some.inj (h.symm.trans (readInt?_eq_some.mpr hu))
    exact hno

/-- An atom is an integer token if it writes the value of the token. -/
theorem ofAtom?_eq_int {atom : List Char} {v : Int64} :
    TokenKind.ofAtom? atom = some (.int v) ↔ WritesInt atom v.toInt := by
  constructor
  · intro h
    cases hread : readInt? atom with
    | none =>
      rcases ofAtom?_of_readInt?_none hread with ⟨x, hx⟩ | ⟨name, hname⟩
      · cases hx.symm.trans h
      · cases hname.symm.trans h
    | some u =>
      rw [ofAtom?_of_readInt? hread] at h
      obtain ⟨w, hw, heq⟩ := Option.map_eq_some_iff.mp h
      obtain rfl := TokenKind.int.inj heq
      rw [int64?_eq_some.mp hw]
      exact readInt?_eq_some.mp hread
  · intro h
    rw [ofAtom?_of_readInt? (readInt?_eq_some.mpr h), int64?_eq_some.mpr rfl]
    rfl

/-- What a text spells: a parenthesis, or what its characters are as an atom. -/
inductive Spells : List Char → TokenKind → Prop where
  | openParen : Spells ['('] .openParen
  | closeParen : Spells [')'] .closeParen
  | atom {text : List Char} {kind : TokenKind} (hatom : ∀ c ∈ text, isAtomChar c = true)
      (h : TokenKind.ofAtom? text = some kind) : Spells text kind

/-! ### Places -/

/-- The place of the character at `i`. -/
def place (cs : List Char) (i : Nat) : Position := Position.start.advance (cs.take i)

theorem advance_line {p : Position} {cs : List Char} (h : ∀ c ∈ cs, c ≠ '\n') :
    p.advance cs = ⟨p.line, p.column + cs.length⟩ := by
  induction cs generalizing p with
  | nil => rfl
  | cons c cs ih =>
    rw [Position.advance_cons, ih fun b hb => h b (List.mem_cons_of_mem _ hb), Position.next,
      if_neg (h c List.mem_cons_self), List.length_cons]
    exact congrArg (Position.mk p.line) (Nat.add_right_comm p.column 1 cs.length)

section

variable {cs : List Char} {i j : Nat} {c : Char}

theorem take_append_slice (hij : i ≤ j) : cs.take i ++ slice cs i j = cs.take j := by
  have htake : cs.take i = (cs.take j).take i := by rw [List.take_take, Nat.min_eq_left hij]
  rw [htake]
  exact List.take_append_drop i _

theorem place_slice (hij : i ≤ j) : (place cs i).advance (slice cs i j) = place cs j := by
  unfold place
  rw [← Position.advance_append, take_append_slice hij]

theorem length_slice (hj : j ≤ cs.length) : (slice cs i j).length = j - i := by
  rw [slice, List.length_drop, List.length_take, Nat.min_eq_left hj]

theorem getElem?_slice {k : Nat} : (slice cs i j)[k]? = if i + k < j then cs[i + k]? else none := by
  rw [slice, List.getElem?_drop, List.getElem?_take]

theorem mem_slice (h : c ∈ slice cs i j) : ∃ k, i ≤ k ∧ k < j ∧ cs[k]? = some c := by
  obtain ⟨k, hk⟩ := List.mem_iff_getElem?.mp h
  rw [getElem?_slice] at hk
  split at hk
  · exact ⟨i + k, Nat.le_add_right _ _, ‹_›, hk⟩
  · cases hk

theorem IsAtom.mem_slice (h : IsAtom cs i j) : ∀ c ∈ slice cs i j, isAtomChar c = true := by
  intro c hc
  obtain ⟨k, hik, hkj, hk⟩ := Reader.mem_slice hc
  obtain ⟨b, hb, hatom⟩ := h.inside k hik hkj
  obtain rfl := Option.some.inj (hk.symm.trans hb.1)
  exact hatom

theorem PlainAt.slice (h : PlainAt cs i c) : Reader.slice cs i (i + 1) = [c] := by
  obtain ⟨hi, hc⟩ := List.getElem?_eq_some_iff.mp h.1
  rw [Reader.slice, List.take_add_one, h.1, Option.toList_some, List.drop_append_of_le_length,
    List.drop_take]
  · simp
  · rw [List.length_take]
    omega

theorem IsPiece.le_length (h : IsPiece cs i j) : j ≤ cs.length := by
  cases h with
  | paren h => exact (List.getElem?_eq_some_iff.mp h.1).1
  | atom h =>
    have hlt := h.lt
    obtain ⟨c, hc, -⟩ := h.inside (j - 1) (by omega) (by omega)
    have := (List.getElem?_eq_some_iff.mp hc.1).1
    omega

theorem ne_newline_of_isAtomChar (h : isAtomChar c = true) : c ≠ '\n' := by
  rintro rfl
  exact absurd (isAtomChar_eq.mp h).1 (by decide)

/-- A piece is on one line. -/
theorem IsPiece.ne_newline (h : IsPiece cs i j) : ∀ c ∈ slice cs i j, c ≠ '\n' := by
  intro c hc
  cases h with
  | paren h hparen =>
    rw [h.slice] at hc
    obtain rfl := List.mem_singleton.mp hc
    rcases hparen with rfl | rfl <;> decide
  | atom h => exact ne_newline_of_isAtomChar (h.mem_slice c hc)

/-- The range of a piece goes from the place of its first character to the place behind
its last one. -/
theorem IsPiece.range (h : IsPiece cs i j) :
    Range.onLine (place cs i) (slice cs i j).length = ⟨place cs i, place cs j⟩ := by
  rw [← place_slice (Nat.le_of_lt h.lt), advance_line h.ne_newline]
  rfl

end

/-! ### Tokens -/

/-- A token has the range of some characters and is what they spell. -/
structure Covers (cs : List Char) (span : Nat × Nat) (t : Token) : Prop where
  range : t.range = ⟨place cs span.1, place cs span.2⟩
  kind : Spells (slice cs span.1 span.2) t.kind

/-- Some tokens are the pieces of a text, in their order. -/
structure TokensOf (cs : List Char) (spans : List (Nat × Nat)) (ts : List Token) : Prop where
  ordered : spans.Pairwise fun a b => a.2 ≤ b.1
  pieces : ∀ i j, (i, j) ∈ spans ↔ IsPiece cs i j
  covers : List.Forall₂ (Covers cs) spans ts

/-- An atom is too large for an integer of 64 bits. -/
def TooLarge (cs : List Char) (i j : Nat) : Prop :=
  IsAtom cs i j ∧ ∃ v, WritesInt (slice cs i j) v ∧ ¬ Fits v

/-- An atom that is no token, as it is named by errors. -/
def refusedAt (cs : List Char) (i j : Nat) : Token :=
  ⟨⟨place cs i, place cs j⟩, .symbol (String.ofList (slice cs i j))⟩

section

variable {cs : List Char} {i j : Nat} {l : Lexeme} {ts : List Token} {spans : List (Nat × Nat)}

/-- The token of a piece, unless that is too large an integer. -/
theorem Finds.token (h : Finds .start cs (i, j) l) (hp : IsPiece cs i j) :
    (∃ t, l.token = .ok t ∧ Covers cs (i, j) t) ∨
      TooLarge cs i j ∧ l.token = .error (.outOfRange (refusedAt cs i j)) := by
  have hrange : l.range = ⟨place cs i, place cs j⟩ := by
    unfold Lexeme.range
    rw [h.position, h.text]
    exact hp.range
  unfold Lexeme.token
  rw [hrange]
  have htext : l.text = slice cs i j := h.text
  cases hp with
  | paren hc hparen =>
    rw [hc.slice] at htext
    rw [htext]
    rcases hparen with rfl | rfl
    · exact .inl ⟨_, rfl, rfl, by rw [hc.slice]; exact .openParen⟩
    · exact .inl ⟨_, rfl, rfl, by rw [hc.slice]; exact .closeParen⟩
  | atom hatom =>
    have hchars := hatom.mem_slice
    have hother : ∀ c, isAtomChar c = false → l.text ≠ [c] := by
      intro c hc heq
      have hmem := hchars c (by rw [← htext, heq]; exact List.mem_cons_self)
      cases hmem.symm.trans hc
    have hopen := hother '(' (by decide)
    have hclose := hother ')' (by decide)
    rw [if_neg hopen, if_neg hclose, htext]
    cases hkind : TokenKind.ofAtom? (slice cs i j) with
    | some kind => exact .inl ⟨_, rfl, rfl, .atom hchars hkind⟩
    | none => exact .inr ⟨⟨hatom, ofAtom?_eq_none.mp hkind⟩, rfl⟩

/-- Atom characters spell what they are read as. -/
theorem Spells.of_atom {text : List Char} {kind : TokenKind} (h : Spells text kind)
    (hatom : ∀ c ∈ text, isAtomChar c = true) : TokenKind.ofAtom? text = some kind := by
  cases h with
  | openParen => exact absurd (hatom '(' List.mem_cons_self) (by decide)
  | closeParen => exact absurd (hatom ')' List.mem_cons_self) (by decide)
  | atom _ h => exact h

/-- Tokens have no atom that is too large. -/
theorem TokensOf.not_tooLarge (h : TokensOf cs spans ts) (i j : Nat) : ¬ TooLarge cs i j := by
  rintro ⟨hatom, hwrites⟩
  obtain ⟨t, -, hcovers⟩ := exists_of_mem_left h.covers ((h.pieces i j).mpr (.atom hatom))
  cases (ofAtom?_eq_none.mpr hwrites).symm.trans (hcovers.kind.of_atom hatom.mem_slice)

/-- Lexemes have tokens, or one of them is an integer that is too large. -/
theorem mapM_token {found : List Lexeme} (h : List.Forall₂ (Finds .start cs) spans found)
    (hp : ∀ span ∈ spans, IsPiece cs span.1 span.2) :
    (∃ ts, found.mapM Lexeme.token = .ok ts ∧ List.Forall₂ (Covers cs) spans ts) ∨
      ∃ i j, TooLarge cs i j ∧ found.mapM Lexeme.token = .error
        (.outOfRange (refusedAt cs i j)) := by
  induction h with
  | nil => exact .inl ⟨[], rfl, .nil⟩
  | @cons span l spans found hfinds _ ih =>
    rw [List.mapM_cons]
    rcases hfinds.token (hp _ List.mem_cons_self) with ⟨t, ht, hcovers⟩ | ⟨hlarge, ht⟩
    · rw [ht]
      rcases ih fun s hs => hp s (List.mem_cons_of_mem _ hs) with ⟨ts, hts, hall⟩ | ⟨i, j, h, hu⟩
      · rw [hts]
        exact .inl ⟨t :: ts, rfl, .cons hcovers hall⟩
      · rw [hu]
        exact .inr ⟨i, j, h, rfl⟩
    · rw [ht]
      exact .inr ⟨_, _, hlarge, rfl⟩

end

/-- A lexeme has a token. -/
def HasToken (l : Lexeme) (t : Token) : Prop := l.token = .ok t

/-- A text splits into tokens if nothing is left of it and each of its lexemes has one. -/
theorem tokenize_eq_ok {source : String} {ts : List Token} : tokenize source = .ok ts ↔
    (lexemes .start source.toList).rest = [] ∧
      List.Forall₂ HasToken (lexemes .start source.toList).found ts := by
  unfold tokenize
  dsimp only
  have hmap : (lexemes .start source.toList).found.mapM Lexeme.token = .ok ts ↔
      List.Forall₂ HasToken (lexemes .start source.toList).found ts := mapM_eq_ok
  rw [← hmap, ← List.isEmpty_iff]
  by_cases hrest : (lexemes .start source.toList).rest.isEmpty = true
  · rw [if_pos hrest]
    exact (and_iff_right hrest).symm
  · rw [if_neg hrest]
    exact ⟨nofun, fun h => absurd h.1 hrest⟩

/-- What splitting a text into tokens comes to. -/
inductive Tokenized (cs : List Char) : Except LexicalError (List Token) → Prop where
  | tokens {spans : List (Nat × Nat)} {ts : List Token} (hplain : ∀ i, ¬ StrangeAt cs i)
      (h : TokensOf cs spans ts) : Tokenized cs (.ok ts)
  | strange {n : Nat} (hfirst : ∀ i, i < n → ¬ StrangeAt cs i) (h : StrangeAt cs n) :
      Tokenized cs (.error (.unexpected ⟨.onLine (place cs n) (cs.length - n), .endOfInput⟩))
  | tooLarge {i j : Nat} (hplain : ∀ i, ¬ StrangeAt cs i) (h : TooLarge cs i j) :
      Tokenized cs (.error (.outOfRange (refusedAt cs i j)))

theorem StrangeAt.lt {cs : List Char} {n : Nat} (h : StrangeAt cs n) : n < cs.length := by
  obtain ⟨c, hc, -⟩ := h
  exact (List.getElem?_eq_some_iff.mp hc.1).1

theorem tokenize_tokenized (source : String) : Tokenized source.toList (tokenize source) := by
  obtain ⟨n, spans, h⟩ := lexemes_scanned .start source.toList
  unfold tokenize
  generalize lexemes .start source.toList = ls at h
  dsimp only
  by_cases hn : n < source.toList.length
  · have hrest : ls.rest.isEmpty = false := by
      rw [h.rest, List.isEmpty_eq_false_iff]
      exact List.ne_nil_of_length_pos (by rw [List.length_drop]; omega)
    rw [hrest, if_neg Bool.false_ne_true, h.stop, h.rest, List.length_drop]
    exact .strange h.before (h.strange hn)
  · have hrest : ls.rest.isEmpty = true := by
      rw [h.rest, List.drop_eq_nil_of_le (Nat.le_of_not_lt hn)]
      rfl
    have hplain : ∀ i, ¬ StrangeAt source.toList i := fun i hat =>
      h.before i (Nat.lt_of_lt_of_le hat.lt (Nat.le_of_not_lt hn)) hat
    have hpieces : ∀ i j, (i, j) ∈ spans ↔ IsPiece source.toList i j := fun i j =>
      (h.pieces i j).trans (and_iff_left_of_imp fun hp =>
        Nat.lt_of_lt_of_le (Nat.lt_of_lt_of_le hp.lt hp.le_length) (Nat.le_of_not_lt hn))
    rw [hrest, if_pos rfl]
    rcases mapM_token h.found fun span hs => (hpieces _ _).mp hs with
      ⟨ts, hts, hall⟩ | ⟨i, j, hl, ht⟩
    · rw [hts]
      exact .tokens hplain ⟨h.ordered, hpieces, hall⟩
    · rw [ht]
      exact .tooLarge hplain hl

section

variable {source : String} {ts : List Token}

/-- The tokens of a text are its pieces. -/
theorem tokenize_ok (h : tokenize source = .ok ts) : ∃ spans, TokensOf source.toList spans ts := by
  have htokenized := tokenize_tokenized source
  rw [h] at htokenized
  cases htokenized with
  | tokens _ h => exact ⟨_, h⟩

/-- A text splits into tokens if it has no strange blank and no integer that is too large. -/
theorem tokenize_ok_iff : (∃ ts, tokenize source = .ok ts) ↔
    (∀ i, ¬ StrangeAt source.toList i) ∧ ∀ i j, ¬ TooLarge source.toList i j := by
  have htokenized := tokenize_tokenized source
  generalize tokenize source = r at htokenized
  constructor
  · rintro ⟨ts, rfl⟩
    cases htokenized with
    | tokens hplain h => exact ⟨hplain, h.not_tooLarge⟩
  · rintro ⟨hplain, hsmall⟩
    cases htokenized with
    | tokens _ h => exact ⟨_, rfl⟩
    | strange _ h => exact absurd h (hplain _)
    | tooLarge _ h => exact absurd h (hsmall _ _)

end

end ForkLisp.Reader
