/-
Reading the text of forms.

What was read is written so that its text splits into the same tokens again (`splits_items`), and
each of them is read as what it was (`ofAtom?_written`), but for one kind of numbers: a
floating-point number whose text has no point, such as `1e16` or `inf`, is read as a symbol with
this name. So reading the text of forms always succeeds and gives the same forms, with these numbers
replaced (`read_itemsText`).
-/
import ForkLisp.Proofs.Reader.Lowering
import ForkLisp.Proofs.Reader.Extents

namespace ForkLisp.Numeric

/-- The text of a number has a point in it. -/
def Binary64.HasPoint (x : Binary64) : Prop := '.' ∈ (x.text .exact).toList

instance (x : Binary64) : Decidable x.HasPoint := inferInstanceAs (Decidable (_ ∈ _))

end ForkLisp.Numeric

namespace ForkLisp.Reader

open ForkLisp.Numeric ForkLisp.Source ForkLisp.Text

namespace TokenKind

/-- A token as it is written in a form. -/
def written : TokenKind → String
  | float x => x.text .exact
  | kind => kind.text

/-- What a token is read as when it is written. -/
def echo : TokenKind → TokenKind
  | float x => if x.HasPoint then float x else symbol (x.text .exact)
  | kind => kind

/-- A token that can stand in a text: a number, or a name in lower case that is no number. -/
def Legible : TokenKind → Prop
  | float x => x.code ≤ Binary64.infinityCode
  | symbol name => name.toList ≠ [] ∧ (∀ c ∈ name.toList, isAtomChar c = true) ∧
      ofAtom? name.toList = some (symbol name)
  | endOfInput => False
  | _ => True

end TokenKind

variable {cs : List Char} {c : Char} {kind : TokenKind} {x : Binary64}

/-! ### Atoms -/

theorem ofAtom?_eq_float (h : TokenKind.ofAtom? cs = some (.float x)) :
    x.code ≤ Binary64.infinityCode := by
  unfold TokenKind.ofAtom? at h
  dsimp only at h
  split at h
  · cases h
  · split at h
    · obtain ⟨v, -, hv⟩ := Option.map_eq_some_iff.mp h
      cases hv
    · split at h
      · split at h
        · rename_i d hd
          obtain rfl := TokenKind.float.inj (Option.some.inj h)
          exact code_toBinary64 d
        · cases h
      · cases h

/-- What is read can be written. -/
theorem legible_of_spells {text : List Char} (h : Spells text kind)
    (hne : text ≠ []) : kind.Legible := by
  have hend := h.ne_endOfInput
  cases h with
  | openParen | closeParen => trivial
  | atom hatom h =>
    cases kind with
    | symbol name =>
      have hname : name.toList = lowercaseAfter [] text := by
        rw [eq_of_ofAtom? h, lowercase, String.toList_ofList, String.toList_ofList]
      refine ⟨?_, ?_, ofAtom?_name h⟩
      · rw [hname]
        exact lowercaseAfter_ne_nil hne
      · intro c hc
        rw [hname] at hc
        obtain ⟨d, hd, hlowers⟩ := mem_lowercaseAfter hc
        exact isAtomChar_lowers hlowers (hatom d hd)
    | float x => exact ofAtom?_eq_float h
    | endOfInput => exact hend rfl
    | _ => trivial

theorem isAtomChar_of_decimal (h : TokenKind.isDecimalChar c = true) : isAtomChar c = true := by
  have hlt := isDecimalChar_lt h
  exact of_ascii (P := fun c => TokenKind.isDecimalChar c = true → isAtomChar c = true) (by decide)
    (by omega) h

theorem isDecimalChar_of_digit (h : c.isDigit = true) : TokenKind.isDecimalChar c = true := by
  unfold TokenKind.isDecimalChar
  rw [h]
  rfl

/-- The digits of an integer, with or without a sign. -/
theorem mem_intDigits {n : Int} (h : c ∈ intDigits n) : c = '-' ∨ c.isDigit = true := by
  unfold intDigits at h
  split at h
  · rcases List.mem_cons.mp h with rfl | h
    · exact .inl rfl
    · exact .inr (isDigit_natDigits h)
  · exact .inr (isDigit_natDigits h)

theorem isDecimalChar_of_writesInt {v : Int} (h : WritesInt cs v) :
    ∀ c ∈ cs, TokenKind.isDecimalChar c = true := by
  intro c hc
  cases h with
  | plain hne hd => exact isDecimalChar_of_digit (hd c hc)
  | plus hne hd =>
    rcases List.mem_cons.mp hc with rfl | hc
    · rfl
    · exact isDecimalChar_of_digit (hd c hc)
  | minus hne hd =>
    rcases List.mem_cons.mp hc with rfl | hc
    · rfl
    · exact isDecimalChar_of_digit (hd c hc)

/-- The parts of a number with a point are a first digit, a point and characters of a number. -/
theorem pointed_parts {v : Nat} {e : Int} (h : Pointed cs v e) :
    (∃ c ds, cs = c :: ds ∧ c.isDigit = true) ∧ '.' ∈ cs ∧
      ∀ c ∈ cs, TokenKind.isDecimalChar c = true := by
  cases h with
  | @point whole fraction tail e hne hwhole hfraction htail =>
    refine ⟨?_, by simp, ?_⟩
    · obtain ⟨c, ds, rfl⟩ := List.exists_cons_of_ne_nil hne
      exact ⟨c, _, rfl, hwhole c List.mem_cons_self⟩
    · intro c hc
      rcases List.mem_append.mp hc with hc | hc
      · exact isDecimalChar_of_digit (hwhole c hc)
      · rcases List.mem_cons.mp hc with rfl | hc
        · rfl
        · rcases List.mem_append.mp hc with hc | hc
          · exact isDecimalChar_of_digit (hfraction c hc)
          · cases htail with
            | none => exact absurd hc List.not_mem_nil
            | mark h =>
              rcases List.mem_cons.mp hc with rfl | hc
              · rfl
              · exact isDecimalChar_of_writesInt h c hc

theorem ne_sign_of_digit (h : c.isDigit = true) : c ≠ '-' ∧ c ≠ '+' := by
  constructor
  · rintro rfl
    exact absurd h (by decide)
  · rintro rfl
    exact absurd h (by decide)

theorem splitSign_unsigned (negative : Bool) (h : c ≠ '-' ∧ c ≠ '+') (ds : List Char) :
    splitSign ((if negative then ['-'] else []) ++ c :: ds) = (negative, c :: ds) := by
  cases negative with
  | true => rfl
  | false => simp [splitSign, h]

/-- A number with a point is read as a number. -/
theorem ofAtom?_pointed {v : Nat} {e : Int} (h : Pointed cs v e) (negative : Bool) :
    TokenKind.ofAtom? ((if negative then ['-'] else []) ++ cs) =
      some (.float (⟨negative, v, e⟩ : Decimal).toBinary64) := by
  have hread := h.ofChars? negative
  obtain ⟨⟨c, ds, rfl, hc⟩, hpoint, hdecimal⟩ := pointed_parts h
  have hsplit := splitSign_unsigned negative (ne_sign_of_digit hc) ds
  have hdigits : (c :: ds).all Char.isDigit = false :=
    List.all_eq_false.mpr ⟨'.', hpoint, by decide⟩
  have hall : ((c :: ds).contains '.' && (c :: ds).all TokenKind.isDecimalChar) = true := by
    rw [Bool.and_eq_true, List.contains_iff_mem, List.all_eq_true]
    exact ⟨hpoint, hdecimal⟩
  unfold TokenKind.ofAtom? TokenKind.looksNumeric
  rw [hsplit, hread]
  simp only [hc, hdigits, hall]
  rfl

/-- A character of ASCII that is in lower case. -/
theorem isLower_of_ascii (hc : c.toNat < 0x80) (h : c.toLower = c) : IsLower c := by
  refine ⟨by omega, ?_⟩
  unfold lowercaseChar
  rw [if_pos hc, h]

/-- The characters of the names that numbers without a point are read as. -/
theorem mem_pointless (negative : Bool) (h : cs = ['i', 'n', 'f'] ∨
    ∃ c e, c.isDigit = true ∧ cs = c :: 'e' :: intDigits e) :
    ∀ c ∈ (if negative then ['-'] else []) ++ cs, c.isDigit = true ∨
    c ∈ ['-', 'i', 'n', 'f', 'e'] := by
  intro c hc
  rcases List.mem_append.mp hc with hc | hc
  · cases negative with
    | true => exact .inr (by simp_all)
    | false => exact absurd hc List.not_mem_nil
  · rcases h with rfl | ⟨d, e, hd, rfl⟩
    · have hsub : ['i', 'n', 'f'] ⊆ ['-', 'i', 'n', 'f', 'e'] := by simp
      exact .inr (hsub hc)
    · rcases List.mem_cons.mp hc with rfl | hc
      · exact .inl hd
      · rcases List.mem_cons.mp hc with rfl | hc
        · exact .inr (by simp)
        · rcases mem_intDigits hc with rfl | hc
          · exact .inr (by simp)
          · exact .inl hc

theorem pointless_char (h : c.isDigit = true ∨ c ∈ ['-', 'i', 'n', 'f', 'e']) :
    isAtomChar c = true ∧ c ≠ '.' ∧ IsLower c := by
  rcases h with h | h
  · have hdecimal := isDecimalChar_of_digit h
    have hlt := isDecimalChar_lt hdecimal
    refine ⟨isAtomChar_of_decimal hdecimal, ?_, isLower_of_ascii (by omega) (toLower_of_isDigit h)⟩
    rintro rfl
    exact absurd h (by decide)
  · simp only [List.mem_cons, List.not_mem_nil, or_false] at h
    rcases h with rfl | rfl | rfl | rfl | rfl
    all_goals exact ⟨by decide, by decide, isLower_of_ascii (by decide) (by decide)⟩

/-- The text of a number without a point is a name. -/
theorem isName_pointless (negative : Bool) (h : cs = ['i', 'n', 'f'] ∨
    ∃ c e, c.isDigit = true ∧ cs = c :: 'e' :: intDigits e) :
    IsName ((if negative then ['-'] else []) ++ cs) := by
  rcases h with rfl | ⟨d, e, hd, rfl⟩
  · exact isName_of_mem (c := 'i') (by simp) (by decide)
  · have hsplit := splitSign_unsigned negative (ne_sign_of_digit hd) ('e' :: intDigits e)
    refine ⟨.inr ?_⟩
    rw [hsplit]
    refine ⟨List.all_eq_false.mpr ⟨'e', by simp, by decide⟩, .inl ?_⟩
    have hno : '.' ∉ d :: 'e' :: intDigits e := fun hmem =>
      (pointless_char (mem_pointless false (.inr ⟨d, e, hd, rfl⟩) '.' hmem)).2.1 rfl
    rw [Bool.and_eq_false_iff]
    exact .inl (by simpa using hno)

/-- A number is written as an atom, and the atom is read as the number if it has a point. -/
theorem ofAtom?_text (h : x.code ≤ Binary64.infinityCode) :
    (x.text .exact).toList ≠ [] ∧ (∀ c ∈ (x.text .exact).toList, isAtomChar c = true) ∧
      TokenKind.ofAtom? (x.text .exact).toList = some (TokenKind.echo (.float x)) := by
  obtain ⟨cs, htext, hcases⟩ := text_cases h
  rcases hcases with ⟨v, e, hpointed, hvalue⟩ | hpointless
  · have hread := ofAtom?_pointed hpointed x.negative
    obtain ⟨⟨c, ds, rfl, hc⟩, hpoint, hdecimal⟩ := pointed_parts hpointed
    have hmem : x.HasPoint := by
      unfold Binary64.HasPoint
      rw [htext]
      exact List.mem_append_right _ hpoint
    refine ⟨by rw [htext]; simp, ?_, ?_⟩
    · intro d hd
      rw [htext] at hd
      rcases List.mem_append.mp hd with hd | hd
      · obtain rfl : d = '-' := by
          cases hx : x.negative <;> simp_all
        rfl
      · exact isAtomChar_of_decimal (hdecimal d hd)
    · rw [htext, hread, hvalue, TokenKind.echo, if_pos hmem]
  · -- without a point the text is a name, and it is in lower case already
    have hchars := mem_pointless x.negative hpointless
    rw [← htext] at hchars
    have hno : ¬ x.HasPoint := fun hmem => (pointless_char (hchars '.' hmem)).2.1 rfl
    have hname := isName_pointless x.negative hpointless
    rw [← htext] at hname
    refine ⟨?_, fun c hc => (pointless_char (hchars c hc)).1, ?_⟩
    · rw [htext]
      rcases hpointless with rfl | ⟨d, e, hd, rfl⟩
      · simp
      · simp
    · rw [hname.ofAtom?, TokenKind.echo, if_neg hno, TokenKind.foldedSymbol,
        String.ofList_toList, lowercase,
        lowercaseAfter_of_isLower (fun c hc => (pointless_char (hchars c hc)).2.2),
        String.ofList_toList]

/-- A token is written as an atom that is read as its echo. -/
theorem ofAtom?_written (h : kind.Legible) (hopen : kind ≠ .openParen)
    (hclose : kind ≠ .closeParen) :
    kind.written.toList ≠ [] ∧ (∀ c ∈ kind.written.toList, isAtomChar c = true) ∧
      TokenKind.ofAtom? kind.written.toList = some kind.echo := by
  cases kind with
  | openParen => exact absurd rfl hopen
  | closeParen => exact absurd rfl hclose
  | endOfInput => exact h.elim
  | symbol name => exact h
  | float x => exact ofAtom?_text h
  | int v =>
    have hwrites := writesInt_intDigits v.toInt
    have htext : (TokenKind.written (.int v)).toList = intDigits v.toInt := String.toList_ofList
    rw [htext]
    refine ⟨?_, ?_, ofAtom?_eq_int.mpr hwrites⟩
    · unfold intDigits
      split
      · exact List.cons_ne_nil _ _
      · exact natDigits_ne_nil _
    · intro c hc
      exact isAtomChar_of_decimal (isDecimalChar_of_writesInt hwrites c hc)

/-! ### Texts and their lexemes -/

/-- A text splits into some lexemes, wherever it stands and whatever follows that goes on
with no atom. -/
def Splits (cs : List Char) (words : List (List Char)) : Prop :=
  ∀ here rest, (∀ c ds, rest = c :: ds → isAtomChar c = false) → ∃ front here',
    front.map Lexeme.text = words ∧ lexemes here (cs ++ rest) =
      ⟨front ++ (lexemes here' rest).found, (lexemes here' rest).stop, (lexemes here' rest).rest⟩

namespace Splits

variable {ds : List Char} {words words' : List (List Char)}

theorem nil : Splits [] [] := fun here _ _ => ⟨[], here, rfl, rfl⟩

/-- An atom is one lexeme. -/
theorem atom (hne : cs ≠ []) (hcs : ∀ c ∈ cs, isAtomChar c = true) : Splits cs [cs] := by
  intro here rest hrest
  obtain ⟨c, cs, rfl⟩ := List.exists_cons_of_ne_nil hne
  have hc := hcs c List.mem_cons_self
  obtain ⟨hblank, hopen, hclose, hsemi⟩ := isAtomChar_eq.mp hc
  have hlayout : ¬ isLayout c = true := fun hl => by
    rw [isBlank_of_isLayout hl] at hblank
    exact absurd hblank (by simp)
  have htail : ∀ d ∈ cs, isAtomChar d = true := fun d hd => hcs d (List.mem_cons_of_mem c hd)
  -- what follows goes on with no atom, so the lexeme ends there
  have hstop : rest.takeWhile isAtomChar = [] ∧ rest.dropWhile isAtomChar = rest := by
    cases rest with
    | nil => exact ⟨rfl, rfl⟩
    | cons d ds => simp [hrest d ds rfl]
  have htake : (cs ++ rest).takeWhile isAtomChar = cs := by
    rw [List.takeWhile_append_of_pos htail, hstop.1, List.append_nil]
  have hdrop : (cs ++ rest).dropWhile isAtomChar = rest := by
    rw [List.dropWhile_append_of_pos htail, hstop.2]
  refine ⟨[⟨here, c :: cs⟩], (here.next c).advance cs, rfl, ?_⟩
  rw [List.cons_append, lexemes, if_neg hlayout, if_neg hsemi,
    if_neg (by simp [hopen, hclose]), if_pos hc,
    htake, hdrop]
  rfl

/-- Two texts with a space between them split one after the other. -/
theorem append (h : Splits cs words) (h' : Splits ds words') :
    Splits (cs ++ ' ' :: ds) (words ++ words') := by
  intro here rest hrest
  obtain ⟨front, here', hfront, heq⟩ := h here (' ' :: (ds ++ rest)) (by
    intro c es hcons
    obtain ⟨rfl, -⟩ := List.cons.inj hcons
    rfl)
  obtain ⟨front', here'', hfront', heq'⟩ := h' (here'.next ' ') rest hrest
  have hspace : lexemes here' (' ' :: (ds ++ rest)) = lexemes (here'.next ' ') (ds ++ rest) := by
    rw [lexemes, if_pos (by decide)]
  refine ⟨front ++ front', here'', by rw [List.map_append, hfront, hfront'], ?_⟩
  rw [List.append_assoc, List.cons_append, heq, hspace, heq', List.append_assoc]

/-- A text in parentheses has two lexemes more. -/
theorem parens (h : Splits cs words) :
    Splits ('(' :: (cs ++ [')'])) (['('] :: (words ++ [[')']])) := by
  intro here rest hrest
  obtain ⟨front, here', hfront, heq⟩ := h (here.next '(') (')' :: rest) (by
    intro c es hcons
    obtain ⟨rfl, -⟩ := List.cons.inj hcons
    rfl)
  have hopen : lexemes here ('(' :: (cs ++ ')' :: rest)) =
      (lexemes (here.next '(') (cs ++ ')' :: rest)).push ⟨here, ['(']⟩ := by
    rw [lexemes, if_neg (by decide), if_neg (by decide), if_pos (by decide)]
  have hclose : lexemes here' (')' :: rest) =
      (lexemes (here'.next ')') rest).push ⟨here', [')']⟩ := by
    rw [lexemes, if_neg (by decide), if_neg (by decide), if_pos (by decide)]
  refine ⟨⟨here, ['(']⟩ :: (front ++ [⟨here', [')']⟩]), here'.next ')', ?_, ?_⟩
  · rw [List.map_cons, List.map_append, hfront]
    rfl
  · have htext : '(' :: (cs ++ [')']) ++ rest = '(' :: (cs ++ ')' :: rest) := by simp
    rw [htext, hopen, heq, hclose]
    simp [Lexemes.push]

end Splits

/-- The words of tokens as they are written. -/
def wordsOf (ts : List Token) : List (List Char) := ts.map fun t => t.kind.written.toList

mutual

/-- The text of a form splits into the words of its tokens. -/
theorem splits_text :
    ∀ f : Form, (∀ t ∈ f.tokens, t.kind.Legible) → Splits f.text.toList (wordsOf f.tokens)
  | .int r v, h => by
    obtain ⟨hne, hatom, -⟩ := ofAtom?_written (h _ List.mem_cons_self) nofun nofun
    exact .atom hne hatom
  | .float r x, h => by
    obtain ⟨hne, hatom, -⟩ := ofAtom?_written (h _ List.mem_cons_self) nofun nofun
    exact .atom hne hatom
  | .symbol r name, h => by
    obtain ⟨hne, hatom, -⟩ := ofAtom?_written (h _ List.mem_cons_self) nofun nofun
    exact .atom hne hatom
  | .list r items, h => by
    have hitems := splits_items items fun t ht => h t (by rw [Form.tokens]; simp [ht])
    have htext : (Form.text (.list r items)).toList = '(' ::
      ((Form.itemsText items).toList ++ [')']) := by
      simp [Form.text]
    have hwords : wordsOf (Form.tokens (.list r items)) = ['('] ::
      (wordsOf (tokensAll items) ++ [[')']]) := by
      simp [wordsOf, Form.tokens, openingOf, closingOf, TokenKind.written, TokenKind.text]
    rw [htext, hwords]
    exact hitems.parens

/-- The text of some forms splits into the words of their tokens. -/
theorem splits_items : ∀ fs : List Form, (∀ t ∈ tokensAll fs, t.kind.Legible) →
    Splits (Form.itemsText fs).toList (wordsOf (tokensAll fs))
  | [], _ => .nil
  | [f], h => by
    have hf := splits_text f fun t ht => h t (by simp [ht])
    rw [tokensAll_cons, tokensAll_nil, List.append_nil]
    exact hf
  | f :: g :: fs, h => by
    have hf :=
      splits_text f fun t ht => h t (by rw [tokensAll_cons]; exact List.mem_append_left _ ht)
    have hfs := splits_items (g :: fs) fun t ht =>
      h t (by rw [tokensAll_cons]; exact List.mem_append_right _ ht)
    have htext : (Form.itemsText (f :: g :: fs)).toList =
        f.text.toList ++ ' ' :: (Form.itemsText (g :: fs)).toList := by
      simp [Form.itemsText]
    rw [htext, tokensAll_cons, wordsOf, List.map_append]
    exact hf.append hfs

end

/-! ### Reading again -/

mutual

/-- A form as it is read when it was written. -/
def Form.echo : Form → Form
  | .float r x => if x.HasPoint then .float r x else .symbol r (x.text .exact)
  | .list r items => .list r (echoAll items)
  | f => f

/-- Forms as they are read when they were written. -/
def echoAll : List Form → List Form
  | [] => []
  | f :: fs => f.echo :: echoAll fs

end

mutual

theorem kinds_echo : ∀ f : Form, f.echo.tokens.map Token.kind = f.tokens.map fun t => t.kind.echo
  | .int _ _ | .symbol _ _ => rfl
  | .float r x => by
    by_cases h : x.HasPoint
    · simp [Form.echo, Form.tokens, TokenKind.echo, h]
    · simp [Form.echo, Form.tokens, TokenKind.echo, h]
  | .list r items => by
    rw [Form.echo, Form.tokens, Form.tokens, List.map_cons, List.map_append, kinds_echoAll items]
    simp [openingOf, closingOf, TokenKind.echo]

theorem kinds_echoAll : ∀ fs : List Form,
    (tokensAll (echoAll fs)).map Token.kind = (tokensAll fs).map fun t => t.kind.echo
  | [] => rfl
  | f :: fs => by
    rw [echoAll, tokensAll_cons, tokensAll_cons, List.map_append, List.map_append, kinds_echo f,
      kinds_echoAll fs]

end

mutual

/-- A form is read as it was exactly if every number in it has a point. -/
theorem echo_bare : ∀ f : Form, f.echo.bare = f.bare ↔ ∀ r x, Subform (.float r x) f → x.HasPoint
  | .int _ _ | .symbol _ _ => ⟨fun _ _ _ h => (nomatch h), fun _ => rfl⟩
  | .float r x => by
    constructor
    · intro h r' x' hsub
      cases hsub
      by_contra hno
      rw [Form.echo, if_neg hno] at h
      cases h
    · intro h
      rw [Form.echo, if_pos (h r x (.refl _))]
  | .list r items => by
    rw [Form.echo, Form.bare, Form.bare, Form.list.injEq, echoAll_bare items]
    constructor
    · rintro ⟨-, h⟩ r' x hsub
      cases hsub with
      | item hg hsub => exact h _ hg r' x hsub
    · intro h
      exact ⟨rfl, fun g hg r' x hsub => h r' x (.item hg hsub)⟩

theorem echoAll_bare : ∀ fs : List Form, bareAll (echoAll fs) = bareAll fs ↔
    ∀ f ∈ fs, ∀ r x, Subform (.float r x) f → x.HasPoint
  | [] => ⟨fun _ f hf => absurd hf List.not_mem_nil, fun _ => rfl⟩
  | f :: fs => by
    rw [echoAll, bareAll, bareAll, List.cons.injEq, echo_bare f,
      echoAll_bare fs, List.forall_mem_cons]

end

/-- A word is read as the echo of the token that it writes. -/
theorem token_written {l : Lexeme} (h : kind.Legible) (htext : l.text = kind.written.toList) :
    l.token = .ok ⟨l.range, kind.echo⟩ := by
  by_cases hopen : kind = .openParen
  · subst hopen
    unfold Lexeme.token
    rw [if_pos (by rw [htext]; rfl)]
    rfl
  · by_cases hclose : kind = .closeParen
    · subst hclose
      unfold Lexeme.token
      rw [if_neg (by rw [htext]; decide), if_pos (by rw [htext]; rfl)]
      rfl
    · obtain ⟨-, hatom, hread⟩ := ofAtom?_written h hopen hclose
      rw [← htext] at hatom hread
      have hother : ∀ d, isAtomChar d = false → l.text ≠ [d] := by
        intro d hd heq
        rw [hatom d (heq ▸ List.mem_cons_self)] at hd
        exact absurd hd (by simp)
      unfold Lexeme.token
      rw [if_neg (hother '(' (by decide)), if_neg (hother ')' (by decide)), hread]

/-- Words are read as the echo of the tokens that they write. -/
theorem tokens_written {ls : List Lexeme} {ts : List Token} (hts : ∀ t ∈ ts, t.kind.Legible)
    (h : ls.map Lexeme.text = wordsOf ts) :
    ∃ us, List.Forall₂ HasToken ls us ∧ us.map Token.kind = ts.map fun t => t.kind.echo := by
  induction ts generalizing ls with
  | nil =>
    obtain rfl := List.map_eq_nil_iff.mp h
    exact ⟨[], .nil, rfl⟩
  | cons t ts ih =>
    obtain ⟨l, ls, rfl, hl, hls⟩ := List.map_eq_cons_iff.mp h
    obtain ⟨us, hus, hkinds⟩ := ih (fun u hu => hts u (List.mem_cons_of_mem t hu)) hls
    refine ⟨⟨l.range, t.kind.echo⟩ :: us,
      .cons (token_written (hts t List.mem_cons_self) hl) hus, ?_⟩
    rw [List.map_cons, hkinds, List.map_cons]

/-- A text that is lexemes to its end is read as the forms that their tokens make. -/
theorem read_of_lexemes {source : String} {found : List Lexeme} {stop : Position} {ts : List Token}
    {fs : List Form} (hl : lexemes .start source.toList = ⟨found, stop, []⟩)
    (ht : List.Forall₂ HasToken found ts) (hb : build ts = .ok fs) : read source = .ok fs := by
  refine read_eq_ok.mpr ⟨ts, tokenize_eq_ok.mpr ?_, hb⟩
  rw [hl]
  exact ⟨rfl, ht⟩

/-- The text of forms that were read is read, and what is read are the same forms, but for numbers
whose text has no point: these are symbols then. -/
theorem read_itemsText {source : String} {fs : List Form} (h : read source = .ok fs) :
    ∃ gs, read (Form.itemsText fs) = .ok gs ∧ bareAll gs = bareAll (echoAll fs) ∧
      (bareAll gs = bareAll fs ↔ ∀ f ∈ fs, ∀ r x, Subform (.float r x) f → x.HasPoint) := by
  obtain ⟨spans, htokens⟩ := tokenize_ok (tokenize_of_read h)
  -- a token that was read spells a piece of the source, and no piece is empty
  have hlegible : ∀ t ∈ tokensAll fs, t.kind.Legible := by
    intro t ht
    obtain ⟨span, hspan, hcovers⟩ := exists_of_mem_right htokens.covers ht
    have hpiece := (htokens.pieces span.1 span.2).mp hspan
    refine legible_of_spells hcovers.kind (List.ne_nil_of_length_pos ?_)
    have hlt := hpiece.lt
    rw [length_slice hpiece.le_length]
    omega
  -- the text splits into the words of the tokens, and these are read as tokens that nest as the old
  -- ones did
  obtain ⟨ls, here, hwords, hlexemes⟩ := splits_items fs hlegible .start [] nofun
  obtain ⟨ts, hts, hkinds⟩ := tokens_written hlegible hwords
  obtain ⟨gs, hgs, hbuild⟩ := build_of_kinds (hkinds.trans (kinds_echoAll fs).symm)
  have hnil : lexemes here [] = ⟨[], here, []⟩ := by rw [lexemes]
  rw [hnil, List.append_nil, List.append_nil] at hlexemes
  refine ⟨gs, read_of_lexemes hlexemes hts hbuild, hgs, ?_⟩
  rw [hgs]
  exact echoAll_bare fs

/-- Some forms with a comment between them. The name is read in lower case and the number `10 ^ 16`
as a symbol, for it is written without a point. -/
theorem read_itemsText_nested : ∃ fs gs, read "(Foo -7 2.50 ; two\n) 1.0e16" = .ok fs ∧
    Form.itemsText fs = "(foo -7 2.5) 1e16" ∧ read (Form.itemsText fs) = .ok gs ∧
    bareAll gs = [.list .front [.symbol .front "foo", .int .front (-7),
      .float .front ⟨false, 0x4004000000000000⟩],
      .symbol .front "1e16"] := by
  have hlexemes : lexemes .start "(Foo -7 2.50 ; two\n) 1.0e16".toList =
      ⟨[⟨⟨1, 1⟩, ['(']⟩, ⟨⟨1, 2⟩, ['F', 'o', 'o']⟩, ⟨⟨1, 6⟩, ['-', '7']⟩,
        ⟨⟨1, 9⟩, ['2', '.', '5', '0']⟩,
        ⟨⟨2, 1⟩, [')']⟩, ⟨⟨2, 3⟩, ['1', '.', '0', 'e', '1', '6']⟩], ⟨2, 9⟩, []⟩ := by
    cbv
  have htokens : [⟨⟨1, 1⟩, ['(']⟩, ⟨⟨1, 2⟩, ['F', 'o', 'o']⟩, ⟨⟨1, 6⟩, ['-', '7']⟩,
      ⟨⟨1, 9⟩, ['2', '.', '5', '0']⟩, ⟨⟨2, 1⟩, [')']⟩,
      ⟨⟨2, 3⟩, ['1', '.', '0', 'e', '1', '6']⟩].mapM
        Lexeme.token =
      .ok [⟨⟨⟨1, 1⟩, ⟨1, 2⟩⟩, .openParen⟩, ⟨⟨⟨1, 2⟩, ⟨1, 5⟩⟩, .symbol "foo"⟩,
        ⟨⟨⟨1, 6⟩, ⟨1, 8⟩⟩, .int (-7)⟩,
        ⟨⟨⟨1, 9⟩, ⟨1, 13⟩⟩, .float ⟨false, 0x4004000000000000⟩⟩, ⟨⟨⟨2, 1⟩, ⟨2, 2⟩⟩, .closeParen⟩,
        ⟨⟨⟨2, 3⟩, ⟨2, 9⟩⟩, .float ⟨false, 0x4341C37937E08000⟩⟩] := by
    decide +kernel
  have hread : read "(Foo -7 2.50 ; two\n) 1.0e16" = .ok [.list ⟨⟨1, 1⟩, ⟨2, 2⟩⟩
      [.symbol ⟨⟨1, 2⟩, ⟨1, 5⟩⟩ "foo", .int ⟨⟨1, 6⟩, ⟨1, 8⟩⟩ (-7),
        .float ⟨⟨1, 9⟩, ⟨1, 13⟩⟩ ⟨false, 0x4004000000000000⟩],
      .float ⟨⟨2, 3⟩, ⟨2, 9⟩⟩ ⟨false, 0x4341C37937E08000⟩] := by
    exact read_of_lexemes hlexemes (mapM_eq_ok.mp htokens) rfl
  have hpoint : Binary64.HasPoint ⟨false, 0x4004000000000000⟩ := by decide +kernel
  have hnone : ¬ Binary64.HasPoint ⟨false, 0x4341C37937E08000⟩ := by decide +kernel
  have htext : Binary64.text .exact ⟨false, 0x4341C37937E08000⟩ = "1e16" := by decide +kernel
  obtain ⟨gs, hgs, hbare, -⟩ := read_itemsText hread
  refine ⟨_, gs, hread, by decide +kernel, hgs, hbare.trans ?_⟩
  simp only [echoAll, Form.echo, if_pos hpoint, if_neg hnone, htext, bareAll, Form.bare]

/-- A number that becomes a symbol when it is written and read again. -/
theorem reread_loses_number : ∃ fs gs, read "1.0e16" = .ok fs ∧ read (Form.itemsText fs) = .ok gs ∧
    bareAll fs = [.float .front ⟨false, 0x4341C37937E08000⟩] ∧
    bareAll gs = [.symbol .front "1e16"] := by
  have hlexemes : lexemes .start "1.0e16".toList =
      ⟨[⟨⟨1, 1⟩, ['1', '.', '0', 'e', '1', '6']⟩], ⟨1, 7⟩, []⟩ := by
    cbv
  have htokens : [⟨⟨1, 1⟩, ['1', '.', '0', 'e', '1', '6']⟩].mapM Lexeme.token =
      .ok [⟨⟨⟨1, 1⟩, ⟨1, 7⟩⟩, .float ⟨false, 0x4341C37937E08000⟩⟩] := by
    decide +kernel
  have htext : Binary64.text .exact ⟨false, 0x4341C37937E08000⟩ = "1e16" := by decide +kernel
  have hlexemes' : lexemes .start "1e16".toList =
    ⟨[⟨⟨1, 1⟩, ['1', 'e', '1', '6']⟩], ⟨1, 5⟩, []⟩ := by cbv
  have htokens' : [⟨⟨1, 1⟩, ['1', 'e', '1', '6']⟩].mapM Lexeme.token =
      .ok [⟨⟨⟨1, 1⟩, ⟨1, 5⟩⟩, .symbol "1e16"⟩] := by
    decide +kernel
  refine ⟨[.float ⟨⟨1, 1⟩, ⟨1, 7⟩⟩ ⟨false, 0x4341C37937E08000⟩],
    [.symbol ⟨⟨1, 1⟩, ⟨1, 5⟩⟩ "1e16"], ?_, ?_,
    rfl, rfl⟩
  · exact read_of_lexemes hlexemes (mapM_eq_ok.mp htokens) rfl
  · show read (Binary64.text .exact ⟨false, 0x4341C37937E08000⟩) = _
    rw [htext]
    exact read_of_lexemes hlexemes' (mapM_eq_ok.mp htokens') rfl

end ForkLisp.Reader
