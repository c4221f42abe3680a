/-
The grammar of the reader.

A text splits into its parentheses and atoms unless it has a strange blank or too large an integer,
and these make forms if the parentheses balance. The forms that come of it are the only ones that
have just these tokens, and what is wrong otherwise is named by the first parenthesis that closes
nothing or the last one that is not closed (`reader_accepts`).
-/
import Mathlib
import ForkLisp.Proofs.Reader.Balance
import ForkLisp.Proofs.Reader.Tokens
import ForkLisp.Proofs.Source.Offsets

namespace ForkLisp.Reader

open ForkLisp.Numeric ForkLisp.Source

/-! ### The tokens of a text are arranged -/

section

variable {cs : List Char} {i j : Nat} {text : List Char} {kind : TokenKind} {t : Token}
  {spans : List (Nat × Nat)} {ts : List Token}

/-- An atom is no parenthesis. -/
theorem kind_of_ofAtom? (h : TokenKind.ofAtom? text = some kind) :
    kind ≠ .openParen ∧ kind ≠ .closeParen ∧ kind ≠ .endOfInput := by
  cases hread : readInt? text with
  | some v =>
    rw [ofAtom?_of_readInt? hread] at h
    obtain ⟨n, -, rfl⟩ := Option.map_eq_some_iff.mp h
    exact ⟨nofun, nofun, nofun⟩
  | none =>
    rcases ofAtom?_of_readInt?_none hread with ⟨x, hx⟩ | ⟨name, hname⟩
    · obtain rfl := Option.some.inj (hx.symm.trans h)
      exact ⟨nofun, nofun, nofun⟩
    · obtain rfl := Option.some.inj (hname.symm.trans h)
      exact ⟨nofun, nofun, nofun⟩

theorem Spells.ne_endOfInput (h : Spells text kind) : kind ≠ .endOfInput := by
  cases h with
  | openParen | closeParen => exact nofun
  | atom _ h => exact (kind_of_ofAtom? h).2.2

/-- Only a parenthesis spells one. -/
theorem Spells.length_of_paren (h : Spells text kind)
    (hk : kind = .openParen ∨ kind = .closeParen) :
    text.length = 1 := by
  cases h with
  | openParen | closeParen => rfl
  | atom _ h =>
    obtain ⟨hopen, hclose, -⟩ := kind_of_ofAtom? h
    rcases hk with hk | hk
    · exact absurd hk hopen
    · exact absurd hk hclose

theorem place_before (hij : i < j) (hj : j ≤ cs.length) : (place cs i).Before (place cs j) := by
  have hslice : slice cs i j ≠ [] :=
    List.ne_nil_of_length_pos (by rw [length_slice hj]; omega)
  rw [← place_slice (Nat.le_of_lt hij)]
  exact Position.before_advance _ hslice

/-- A place does not come before one that it is behind. -/
theorem compare_place_ne_lt (hij : i ≤ j) (hj : j ≤ cs.length) :
    (place cs j).compare (place cs i) ≠ .lt := by
  intro hlt
  have hback := Position.compare_eq_lt.mp hlt
  rcases Nat.lt_or_eq_of_le hij with hij | rfl
  · have hbefore := place_before hij hj
    unfold Position.Before at hback hbefore
    omega
  · unfold Position.Before at hback
    omega

/-- A parenthesis is one character wide. -/
theorem Covers.paren {span : Nat × Nat} (h : Covers cs span t) (hp : IsPiece cs span.1 span.2)
    (hk : t.kind = .openParen ∨ t.kind = .closeParen) : t.range = .onLine t.range.start 1 := by
  have hrange := hp.range
  rw [h.kind.length_of_paren hk] at hrange
  rw [h.range, hrange]

theorem TokensOf.arranged (h : TokensOf cs spans ts) : Arranged ts := by
  have hcovers : ∀ t ∈ ts, ∃ span ∈ spans, Covers cs span t := fun t ht =>
    exists_of_mem_right h.covers ht
  have hpiece : ∀ span ∈ spans, IsPiece cs span.1 span.2 := fun span hs => (h.pieces _ _).mp hs
  refine ⟨fun t ht => ?_, fun t ht hk => ?_, ?_⟩
  · obtain ⟨span, -, hspan⟩ := hcovers t ht
    exact hspan.kind.ne_endOfInput
  · obtain ⟨span, hmem, hspan⟩ := hcovers t ht
    exact hspan.paren (hpiece span hmem) hk
  · have hordered := h.ordered.imp_of_mem (S := fun a b =>
      a.2 ≤ b.1 ∧ IsPiece cs a.1 a.2 ∧ IsPiece cs b.1 b.2) fun ha hb hab =>
        ⟨hab, hpiece _ ha, hpiece _ hb⟩
    refine pairwise_of_forall₂ h.covers hordered ?_
    rintro a b t u ht hu ⟨hab, ha, hb⟩
    have hlt := ha.lt
    have hlt' := hb.lt
    rw [ht.range, hu.range]
    exact ⟨compare_place_ne_lt (by omega) (by have := hb.le_length; omega),
      compare_place_ne_lt (by omega) hb.le_length⟩

end

/-! ### What the reader accepts -/

/-- The first parenthesis that closes nothing is to blame. -/
def BlamesStray (ts : List Token) (r : Except SyntaxError (List Form)) : Prop :=
  ∃ k t, ts[k]? = some t ∧ Stray ts k ∧ (∀ i, i < k → ¬ Stray ts i) ∧ r = .error (.unexpected t)

/-- No parenthesis closes nothing, and the last one that is not closed is to blame. -/
def BlamesUnclosed (ts : List Token) (r : Except SyntaxError (List Form)) : Prop :=
  (∀ k, ¬ Stray ts k) ∧
    ∃ i t, ts[i]? = some t ∧ Unclosed ts i ∧ (∀ k, i < k → ¬ Unclosed ts k) ∧
    r = .error (.unclosed t)

/-- A text splits into tokens if outside of comments there is no blank but layout, and every atom
that writes an integer writes one of 64 bits. The tokens are its parentheses and its atoms
outside of comments, in their order. They make forms if the parentheses balance, and then the
only forms that have just these tokens; otherwise a parenthesis is to blame that closes nothing
or is not closed. -/
theorem reader_accepts (source : String) :
    ((∃ ts, tokenize source = .ok ts) ↔
      (∀ i, ¬ StrangeAt source.toList i) ∧
        ∀ i j v, IsAtom source.toList i j → WritesInt (slice source.toList i j) v → Fits v) ∧
    (∀ ts, tokenize source = .ok ts →
      (∃ spans, TokensOf source.toList spans ts) ∧
      ((∃ fs, build ts = .ok fs) ↔ Balanced ts) ∧
      (∀ fs, build ts = .ok fs ↔ tokensAll fs = ts) ∧
      (¬ Balanced ts → BlamesStray ts (build ts) ∨ BlamesUnclosed ts (build ts))) ∧
    read source ≠ .error (.grammatical .unexpectedEnd) := by
  have hbuilt : ∀ ts, tokenize source = .ok ts → Arranged ts ∧ Built ts (build ts) := by
    intro ts hts
    obtain ⟨spans, htokens⟩ := tokenize_ok hts
    exact ⟨htokens.arranged, build_built htokens.arranged⟩
  refine ⟨tokenize_ok_iff.trans (and_congr_right fun _ => ?_), fun ts hts => ?_, ?_⟩
  · constructor
    · intro h i j v hatom hwrites
      by_contra hno
      exact h i j ⟨hatom, v, hwrites, hno⟩
    · rintro h i j ⟨hatom, v, hwrites, hno⟩
      exact hno (h i j v hatom hwrites)
  · obtain ⟨harranged, hb⟩ := hbuilt ts hts
    refine ⟨tokenize_ok hts, ?_, fun fs => build_eq_ok harranged, fun hno => ?_⟩
    -- forms are built from balanced tokens only; otherwise one token is to blame
    · generalize build ts = r at hb
      cases hb with
      | forms hb _ => exact ⟨fun _ => hb, fun _ => ⟨_, rfl⟩⟩
      | stray hno | unclosed hno =>
        refine ⟨fun h => ?_, fun hb => absurd hb hno⟩
        obtain ⟨fs, h⟩ := h
        cases h
    · generalize build ts = r at hb
      cases hb with
      | forms hb _ => exact absurd hb hno
      | stray _ ht h hfirst => exact .inl ⟨_, _, ht, h, hfirst, rfl⟩
      | unclosed _ hstray ht h hlast => exact .inr ⟨hstray, _, _, ht, h, hlast, rfl⟩
  -- neither the lexer nor the builder ever reports that the input ended
  · intro hread
    unfold read at hread
    split at hread
    · cases hread
    · rename_i ts hts
      have hb := (hbuilt ts hts).2
      split at hread
      · rename_i e he
        obtain rfl := ReadError.grammatical.inj (Except.error.inj hread)
        rw [he] at hb
        cases hb
      · cases hread

/-- A list with a comment in it, in which a parenthesis counts for nothing. -/
theorem reader_accepts_comment : ∃ ts, tokenize "(f ; )\n 12)" = .ok ts ∧
    ts.map Token.kind = [.openParen, .symbol "f", .int 12, .closeParen] ∧ Balanced ts ∧
    ∃ spans, TokensOf "(f ; )\n 12)".toList spans ts := by
  have htokens : tokenize "(f ; )\n 12)" = .ok [⟨⟨⟨1, 1⟩, ⟨1, 2⟩⟩, .openParen⟩,
      ⟨⟨⟨1, 2⟩, ⟨1, 3⟩⟩, .symbol "f"⟩, ⟨⟨⟨2, 2⟩, ⟨2, 4⟩⟩, .int 12⟩,
      ⟨⟨⟨2, 4⟩, ⟨2, 5⟩⟩, .closeParen⟩] := by
    cbv
  obtain ⟨hspans, hbalanced, -⟩ := (reader_accepts "(f ; )\n 12)").2.1 _ htokens
  exact ⟨_, htokens, rfl, hbalanced.mp ⟨_, rfl⟩, hspans⟩

end ForkLisp.Reader
