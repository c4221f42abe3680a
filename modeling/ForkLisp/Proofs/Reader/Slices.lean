/-
Parts of a text between pieces.

A part that begins where a piece begins and ends where one ends has just the pieces of the text that
lie in it: no comment and no atom goes on across its borders. So it splits into tokens of the same
kinds as the text does there (`Framed.tokenize`).
-/
import Mathlib.Data.List.Sort
import ForkLisp.Proofs.Reader.Tokens

namespace ForkLisp.Reader

open ForkLisp.Numeric ForkLisp.Source

/-! ### Borders -/

section

variable {front back : List Char} {i j m k : Nat}

theorem AtomAt.lt {cs : List Char} (h : AtomAt cs i) : i < cs.length := by
  obtain ⟨c, hc, -⟩ := h
  exact (List.getElem?_eq_some_iff.mp hc.1).1

theorem PlainAt.not_atomAt {cs : List Char} {c : Char} (h : PlainAt cs i c)
    (hc : c = '(' ∨ c = ')') :
    ¬ AtomAt cs i := by
  rintro ⟨b, hb, hatom⟩
  obtain rfl := Option.some.inj (hb.1.symm.trans h.1)
  rcases hc with rfl | rfl <;> exact absurd hatom (by decide)

/-- A piece begins outside of comments. -/
theorem IsPiece.not_commented {cs : List Char} (h : IsPiece cs i j) : ¬ Commented cs i := by
  cases h with
  | paren h => exact h.2
  | atom h =>
    obtain ⟨c, hc, -⟩ := h.inside i (Nat.le_refl i) h.lt
    exact hc.2

/-- No comment goes on into a place that is in none. -/
theorem sealed_of_not_commented
    (h : ¬ Commented (front ++ back) front.length) : Sealed front back :=
  sealed_of_crossing fun j hfront hsemi hline => h ⟨j, Nat.le_of_lt hfront, hsemi, hline⟩

/-- A text may be cut where a piece begins. -/
theorem IsPiece.cut (h : IsPiece (front ++ back) front.length m) : Cut front back := by
  have hsealed := sealed_of_not_commented h.not_commented
  refine ⟨hsealed, fun hback k hk hfront => ?_⟩
  have hat : AtomAt (front ++ back) front.length := (atomAt_right (k := 0) hsealed).mpr hback
  cases h with
  | paren hc hparen => exact hc.not_atomAt hparen hat
  | atom h => exact h.left k hk ((atomAt_left (by omega)).mpr hfront)

/-- No atom goes on from the first part into the second one. -/
def Ended (front back : List Char) : Prop :=
  ∀ k, k + 1 = front.length → AtomAt front k → ¬ AtomAt (front ++ back) front.length

/-- Nor does one where a piece ends. -/
theorem IsPiece.ended (h : IsPiece (front ++ back) m front.length) : Ended front back := by
  intro k hk hfront
  generalize hn : front.length = n at h hk
  cases h with
  | paren hc hparen =>
    obtain rfl := Nat.succ.inj hk
    exact absurd ((atomAt_left (by omega)).mpr hfront) (hc.not_atomAt hparen)
  | atom h => exact h.right

theorem Ended.isAtom_left (h : Ended front back) :
    IsAtom front i j ↔ IsAtom (front ++ back) i j ∧ j ≤ front.length := by
  constructor
  · intro hatom
    have hlt := hatom.lt
    have hj := IsPiece.le_length (.atom hatom)
    refine ⟨⟨hlt, fun k hi hk => ?_, fun k hk => ?_, ?_⟩, hj⟩
    · exact (atomAt_left (Nat.lt_of_lt_of_le hk hj)).mpr (hatom.inside k hi hk)
    · rw [atomAt_left (by omega)]
      exact hatom.left k hk
    · rcases Nat.lt_or_eq_of_le hj with hj | rfl
      · rw [atomAt_left hj]
        exact hatom.right
      · exact h (front.length - 1) (by omega) (hatom.inside _ (by omega) (by omega))
  · rintro ⟨hatom, hj⟩
    have hlt := hatom.lt
    refine ⟨hlt, fun k hi hk => ?_, fun k hk => ?_, fun hat => ?_⟩
    · exact (atomAt_left (Nat.lt_of_lt_of_le hk hj)).mp (hatom.inside k hi hk)
    · exact fun hat => hatom.left k hk ((atomAt_left (by omega)).mpr hat)
    · exact hatom.right ((atomAt_left hat.lt).mpr hat)

theorem Ended.isPiece_left (h : Ended front back) :
    IsPiece front i j ↔ IsPiece (front ++ back) i j ∧ j ≤ front.length := by
  constructor
  · intro hp
    refine ⟨?_, hp.le_length⟩
    have hlt := hp.le_length
    cases hp with
    | paren hc hparen => exact .paren ((plainAt_left hlt).mpr hc) hparen
    | atom hatom => exact .atom (h.isAtom_left.mp hatom).1
  · rintro ⟨hp, hj⟩
    cases hp with
    | paren hc hparen => exact .paren ((plainAt_left hj).mp hc) hparen
    | atom hatom => exact .atom (h.isAtom_left.mpr ⟨hatom, hj⟩)

end

/-! ### Parts -/

/-- A piece begins at `i`, and one that does not begin before `i` ends at `j`. -/
structure Framed (cs : List Char) (i j : Nat) : Prop where
  first : ∃ m, IsPiece cs i m
  last : ∃ m, i ≤ m ∧ IsPiece cs m j

namespace Framed

variable {cs : List Char} {i j a b : Nat}

theorem lt (h : Framed cs i j) : i < j := by
  obtain ⟨m, him, hp⟩ := h.last
  exact Nat.lt_of_le_of_lt him hp.lt

theorem le_length (h : Framed cs i j) : j ≤ cs.length := by
  obtain ⟨m, -, hp⟩ := h.last
  exact hp.le_length

/-- The text in front, the part, and the text behind. -/
theorem split (h : Framed cs i j) : ∃ front back, cs = front ++ (slice cs i j ++ back) ∧
    front.length = i ∧ Cut front (slice cs i j ++ back) ∧ Ended (slice cs i j) back := by
  have hlt := h.lt
  have hle := h.le_length
  have hcs : cs = cs.take i ++ (slice cs i j ++ cs.drop j) := by
    rw [← List.append_assoc, take_append_slice (Nat.le_of_lt hlt), List.take_append_drop]
  have hfront : (cs.take i).length = i := by
    rw [List.length_take]
    omega
  obtain ⟨first, hfirst⟩ := h.first
  have hcut : Cut (cs.take i) (slice cs i j ++ cs.drop j) := by
    refine IsPiece.cut (m := first) ?_
    rwa [← hcs, hfront]
  obtain ⟨m, him, hlast⟩ := h.last
  refine ⟨_, _, hcs, hfront, hcut, IsPiece.ended (m := m - i) (hcut.isPiece_right.mp ?_)⟩
  rw [← hcs, hfront, length_slice hle, Nat.add_sub_cancel' him,
    Nat.add_sub_cancel' (Nat.le_of_lt hlt)]
  exact hlast

/-- The pieces of a part are those of the text in it. -/
theorem isPiece_slice (h : Framed cs i j) :
    IsPiece (slice cs i j) a b ↔ IsPiece cs (i + a) (i + b) ∧ i + b ≤ j := by
  have hlen := length_slice (i := i) h.le_length
  have hlt := h.lt
  obtain ⟨front, back, hcs, hfront, hcut, hended⟩ := h.split
  rw [hended.isPiece_left, hlen, ← hcut.isPiece_right, ← hcs, hfront]
  exact and_congr_right fun _ => by omega

theorem isAtom_slice (h : Framed cs i j) :
    IsAtom (slice cs i j) a b ↔ IsAtom cs (i + a) (i + b) ∧ i + b ≤ j := by
  have hlen := length_slice (i := i) h.le_length
  have hlt := h.lt
  obtain ⟨front, back, hcs, hfront, hcut, hended⟩ := h.split
  rw [hended.isAtom_left, hlen, ← hcut.isAtom_right, ← hcs, hfront]
  exact and_congr_right fun _ => by omega

theorem strangeAt_slice (h : Framed cs i j) (hs : StrangeAt (slice cs i j) a) :
    StrangeAt cs (i + a) := by
  obtain ⟨front, back, hcs, hfront, hcut, -⟩ := h.split
  have hat := (strangeAt_right hcut.comments).mpr ((strangeAt_left hs.lt).mpr hs)
  rwa [← hcs, hfront] at hat

end Framed

theorem slice_slice {cs : List Char} {i j a b : Nat} (hb : i + b ≤ j) :
    slice (slice cs i j) a b = slice cs (i + a) (i + b) := by
  refine List.ext_getElem? fun k => ?_
  rw [getElem?_slice, getElem?_slice, getElem?_slice, Nat.add_assoc]
  by_cases hk : a + k < b
  · rw [if_pos hk, if_pos (by omega), if_pos (by omega)]
  · rw [if_neg hk, if_neg (by omega)]

theorem Framed.tooLarge_slice {cs : List Char} {i j a b : Nat} (h : Framed cs i j)
    (hl : TooLarge (slice cs i j) a b) : TooLarge cs (i + a) (i + b) := by
  obtain ⟨hatom, hwrites⟩ := hl
  obtain ⟨hatom, hb⟩ := h.isAtom_slice.mp hatom
  rw [slice_slice hb] at hwrites
  exact ⟨hatom, hwrites⟩

/-! ### Tokens of parts -/

/-- Some tokens are the pieces of a text that lie between `i` and `j`, in their order. -/
structure TokensWithin (cs : List Char) (i j : Nat) (spans : List (Nat × Nat))
    (ts : List Token) : Prop where
  ordered : spans.Pairwise fun a b => a.2 ≤ b.1
  pieces : ∀ a b, (a, b) ∈ spans ↔ IsPiece cs a b ∧ i ≤ a ∧ b ≤ j
  covers : List.Forall₂ (Covers cs) spans ts

/-- A text spells one thing. -/
theorem Spells.unique {text : List Char} {kind kind' : TokenKind} (h : Spells text kind)
    (h' : Spells text kind') : kind = kind' := by
  cases h with
  | openParen =>
    cases h' with
    | openParen => rfl
    | atom hatom => exact absurd (hatom '(' List.mem_cons_self) (by decide)
  | closeParen =>
    cases h' with
    | closeParen => rfl
    | atom hatom => exact absurd (hatom ')' List.mem_cons_self) (by decide)
  | atom hatom h => exact Option.some.inj (h.symm.trans (h'.of_atom hatom))

/-- Spans that follow one another are determined by which they are. -/
theorem eq_of_ordered {spans spans' : List (Nat × Nat)} (h : spans.Pairwise fun a b => a.2 ≤ b.1)
    (h' : spans'.Pairwise fun a b => a.2 ≤ b.1) (hlt : ∀ s ∈ spans, s.1 < s.2)
    (hmem : ∀ s, s ∈ spans ↔ s ∈ spans') : spans = spans' := by
  let earlier : Nat × Nat → Nat × Nat → Prop := fun a b => a.1 < b.1
  have : Std.Antisymm earlier := ⟨fun _ _ hab hba => absurd hab (Nat.lt_asymm hba)⟩
  have : Std.Irrefl earlier := ⟨fun a => Nat.lt_irrefl a.1⟩
  have hsorted : spans.Pairwise earlier :=
    h.imp_of_mem fun ha _ hab => Nat.lt_of_lt_of_le (hlt _ ha) hab
  have hsorted' : spans'.Pairwise earlier := h'.imp_of_mem fun ha _ hab =>
    Nat.lt_of_lt_of_le (hlt _ ((hmem _).mpr ha)) hab
  exact hsorted.eq_of_mem_iff hsorted' hmem

/-- Tokens that cover the same texts are of the same kinds. -/
theorem kinds_of_covers {cs cs' : List Char} {f : Nat × Nat → Nat × Nat} {spans : List (Nat × Nat)}
    {ts ts' : List Token} (h : List.Forall₂ (Covers cs) spans ts)
    (h' : List.Forall₂ (Covers cs') (spans.map f) ts')
    (htext : ∀ s ∈ spans, slice cs' (f s).1 (f s).2 = slice cs s.1 s.2) :
    ts'.map Token.kind = ts.map Token.kind := by
  induction h generalizing ts' with
  | nil =>
    cases h'
    rfl
  | @cons s t spans ts hcovers _ ih =>
    rw [List.map_cons] at h'
    obtain _ | ⟨hcovers', hrest⟩ := h'
    have hkind := hcovers'.kind
    rw [htext s List.mem_cons_self] at hkind
    rw [List.map_cons, List.map_cons, hkind.unique hcovers.kind,
      ih hrest fun s hs => htext s (List.mem_cons_of_mem _ hs)]

section

variable {cs : List Char} {i j : Nat} {spans : List (Nat × Nat)} {ts : List Token}

/-- The tokens of a part by itself are of the kinds that the text has there. -/
theorem Framed.kinds (h : Framed cs i j) (hwithin : TokensWithin cs i j spans ts)
    {spans' : List (Nat × Nat)} {ts' : List Token} (htokens : TokensOf (slice cs i j) spans' ts') :
    ts'.map Token.kind = ts.map Token.kind := by
  have hpiece : ∀ s ∈ spans', IsPiece cs (i + s.1) (i + s.2) ∧ i + s.2 ≤ j := fun s hs =>
    h.isPiece_slice.mp ((htokens.pieces _ _).mp hs)
  have hspans : spans = spans'.map (shift i) := by
    refine eq_of_ordered hwithin.ordered ?_ (fun s hs => ((hwithin.pieces _ _).mp hs).1.lt) ?_
    · exact List.pairwise_map.mpr (htokens.ordered.imp fun hab => Nat.add_le_add_left hab i)
    · rintro ⟨a, b⟩
      rw [hwithin.pieces, List.mem_map]
      constructor
      · rintro ⟨hp, hia, hbj⟩
        obtain ⟨a, rfl⟩ := Nat.exists_eq_add_of_le hia
        obtain ⟨b, rfl⟩ := Nat.exists_eq_add_of_le (Nat.le_trans hia (Nat.le_of_lt hp.lt))
        exact ⟨(a, b), (htokens.pieces a b).mpr (h.isPiece_slice.mpr ⟨hp, hbj⟩), rfl⟩
      · rintro ⟨s, hs, heq⟩
        obtain ⟨rfl, rfl⟩ := Prod.mk.inj heq
        exact ⟨(hpiece s hs).1, Nat.le_add_right _ _, (hpiece s hs).2⟩
  have hcovers := hwithin.covers
  rw [hspans] at hcovers
  exact (kinds_of_covers htokens.covers hcovers fun s hs => (slice_slice (hpiece s hs).2).symm).symm

/-- A part of a text that splits into tokens does so by itself, into tokens of the same kinds. -/
theorem Framed.tokenize (h : Framed cs i j) (hwithin : TokensWithin cs i j spans ts)
    (hplain : ∀ k, ¬ StrangeAt cs k) (hsmall : ∀ a b, ¬ TooLarge cs a b) :
    ∃ ts', Reader.tokenize (String.ofList (slice cs i j)) = .ok ts' ∧
      ts'.map Token.kind = ts.map Token.kind := by
  obtain ⟨ts', hts'⟩ : ∃ ts', Reader.tokenize (String.ofList (slice cs i j)) = .ok ts' := by
    rw [tokenize_ok_iff, String.toList_ofList]
    exact ⟨fun k hk => hplain _ (h.strangeAt_slice hk), fun a b hab =>
      hsmall _ _ (h.tooLarge_slice hab)⟩
  obtain ⟨spans', htokens⟩ := tokenize_ok hts'
  rw [String.toList_ofList] at htokens
  exact ⟨ts', hts', h.kinds hwithin htokens⟩

end

end ForkLisp.Reader
