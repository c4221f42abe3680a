/-
The pieces of a text.

What a text consists of is said by the places of its characters: which of them are in comments,
where the parentheses and the longest runs of atom characters are outside of comments, and which
blanks are in no comment and yet no layout. `lexemes` finds just these pieces, in their order, up to
the first such blank (`lexemes_scanned`).
-/
import Mathlib.Data.List.Forall2
import ForkLisp.Reader.Tokenize

namespace ForkLisp.Reader

open ForkLisp.Source

/-! ### Characters and their places -/

/-- The character at `i` is in a comment: a semicolon is at `i` or before it on the same line. -/
def Commented (cs : List Char) (i : Nat) : Prop :=
  ∃ j, j ≤ i ∧ cs[j]? = some ';' ∧
    ∀ k, j ≤ k → k ≤ i → ∃ c, cs[k]? = some c ∧ c ≠ '\r' ∧ c ≠ '\n'

/-- The character `c` is at `i`, outside of comments. -/
def PlainAt (cs : List Char) (i : Nat) (c : Char) : Prop := cs[i]? = some c ∧ ¬ Commented cs i

/-- A character that an atom may hold is at `i`, outside of comments. -/
def AtomAt (cs : List Char) (i : Nat) : Prop := ∃ c, PlainAt cs i c ∧ isAtomChar c = true

/-- A blank that separates no tokens is at `i`, outside of comments. -/
def StrangeAt (cs : List Char) (i : Nat) : Prop :=
  ∃ c, PlainAt cs i c ∧ Text.isBlank c = true ∧ Text.isLayout c = false

/-- The characters from `i` up to `j`, which is excluded, are an atom that is as long as
possible. -/
structure IsAtom (cs : List Char) (i j : Nat) : Prop where
  lt : i < j
  inside : ∀ k, i ≤ k → k < j → AtomAt cs k
  left : ∀ k, k + 1 = i → ¬ AtomAt cs k
  right : ¬ AtomAt cs j

/-- The characters from `i` up to `j` are a parenthesis or an atom. -/
inductive IsPiece (cs : List Char) : Nat → Nat → Prop where
  | paren {i : Nat} {c : Char} (h : PlainAt cs i c) (hc : c = '(' ∨ c = ')') : IsPiece cs i (i + 1)
  | atom {i j : Nat} (h : IsAtom cs i j) : IsPiece cs i j

/-- The characters from `i` up to `j`. -/
def slice (cs : List Char) (i j : Nat) : List Char := (cs.take j).drop i

theorem isAtomChar_eq {c : Char} : isAtomChar c = true ↔
    Text.isBlank c = false ∧ c ≠ '(' ∧ c ≠ ')' ∧ c ≠ ';' := by
  simp [isAtomChar, and_assoc]

theorem isCommentChar_eq {c : Char} : isCommentChar c = true ↔ c ≠ '\r' ∧ c ≠ '\n' := by
  simp [isCommentChar]

theorem IsPiece.lt {cs : List Char} {i j : Nat} (h : IsPiece cs i j) : i < j := by
  cases h with
  | paren => exact Nat.lt_succ_self i
  | atom h => exact h.lt

/-! ### Texts in two parts -/

section

variable {front rest : List Char} {i j k : Nat} {c : Char}

theorem commented_left (hi : i < front.length) :
    Commented (front ++ rest) i ↔ Commented front i := by
  have hat : ∀ k, k ≤ i → (front ++ rest)[k]? = front[k]? := fun k hk =>
    List.getElem?_append_left (Nat.lt_of_le_of_lt hk hi)
  constructor
  · rintro ⟨j, hj, hsemi, hline⟩
    refine ⟨j, hj, (hat j hj).symm.trans hsemi, fun k hjk hk => ?_⟩
    rw [← hat k hk]
    exact hline k hjk hk
  · rintro ⟨j, hj, hsemi, hline⟩
    refine ⟨j, hj, (hat j hj).trans hsemi, fun k hjk hk => ?_⟩
    rw [hat k hk]
    exact hline k hjk hk

theorem getElem?_behind (k : Nat) : (front ++ rest)[front.length + k]? = rest[k]? := by
  rw [List.getElem?_append_right (Nat.le_add_right _ _), Nat.add_sub_cancel_left]

/-- No comment goes on from the first part into the second one. -/
def Sealed (front rest : List Char) : Prop :=
  ∀ k, Commented (front ++ rest) (front.length + k) → Commented rest k

theorem commented_right (h : Sealed front rest) (k : Nat) :
    Commented (front ++ rest) (front.length + k) ↔ Commented rest k := by
  refine ⟨h k, ?_⟩
  rintro ⟨j, hj, hsemi, hline⟩
  refine ⟨front.length + j, Nat.add_le_add_left hj _, (getElem?_behind j).trans hsemi,
    fun k' hjk hk => ?_⟩
  obtain ⟨m, rfl⟩ := Nat.exists_eq_add_of_le (Nat.le_trans (Nat.le_add_right _ j) hjk)
  rw [getElem?_behind]
  exact hline m (Nat.le_of_add_le_add_left hjk) (Nat.le_of_add_le_add_left hk)

/-- No comment goes on if none that begins in the first part has the character behind it. -/
theorem sealed_of_crossing (h : ∀ j, j < front.length → (front ++ rest)[j]? = some ';' →
    ¬ ∀ k, j ≤ k → k ≤ front.length → ∃ c, (front ++ rest)[k]? = some c ∧ c ≠ '\r' ∧ c ≠ '\n') :
    Sealed front rest := by
  rintro k ⟨j, hj, hsemi, hline⟩
  by_cases hfront : j < front.length
  · refine absurd (fun a hja ha => ?_) (h j hfront hsemi)
    exact hline a hja (Nat.le_trans ha (Nat.le_add_right _ _))
  · obtain ⟨m, rfl⟩ := Nat.exists_eq_add_of_le (Nat.le_of_not_lt hfront)
    refine ⟨m, Nat.le_of_add_le_add_left hj, (getElem?_behind m).symm.trans hsemi,
      fun k' hm hk => ?_⟩
    rw [← getElem?_behind]
    exact hline _ (Nat.add_le_add_left hm _) (Nat.add_le_add_left hk _)

/-- Where no comment begins, none goes on. Where a line ends, no comment goes on either. -/
theorem sealed_of (h : (∀ c ∈ front, c ≠ ';') ∨ ∀ c, rest[0]? = some c → c = '\r' ∨ c = '\n') :
    Sealed front rest := by
  refine sealed_of_crossing fun j hfront hsemi hline => ?_
  rcases h with h | h
  · rw [List.getElem?_append_left hfront] at hsemi
    exact h ';' (List.mem_of_getElem? hsemi) rfl
  · obtain ⟨c, hc, hr, hn⟩ := hline front.length (Nat.le_of_lt hfront) (Nat.le_refl _)
    rw [show (front ++ rest)[front.length]? = rest[0]? from getElem?_behind 0] at hc
    rcases h c hc with rfl | rfl
    · exact hr rfl
    · exact hn rfl

theorem plainAt_left (hi : i < front.length) : PlainAt (front ++ rest) i c ↔ PlainAt front i c := by
  unfold PlainAt
  rw [commented_left hi, List.getElem?_append_left hi]

theorem plainAt_right (h : Sealed front rest) :
    PlainAt (front ++ rest) (front.length + k) c ↔ PlainAt rest k c := by
  unfold PlainAt
  rw [commented_right h, getElem?_behind]

theorem atomAt_left (hi : i < front.length) : AtomAt (front ++ rest) i ↔ AtomAt front i :=
  exists_congr fun _ => and_congr_left fun _ => plainAt_left hi

theorem atomAt_right (h : Sealed front rest) :
    AtomAt (front ++ rest) (front.length + k) ↔ AtomAt rest k :=
  exists_congr fun _ => and_congr_left fun _ => plainAt_right h

theorem strangeAt_left (hi : i < front.length) : StrangeAt (front ++ rest) i ↔ StrangeAt front i :=
  exists_congr fun _ => and_congr_left fun _ => plainAt_left hi

theorem strangeAt_right (h : Sealed front rest) :
    StrangeAt (front ++ rest) (front.length + k) ↔ StrangeAt rest k :=
  exists_congr fun _ => and_congr_left fun _ => plainAt_right h

/-- Neither a comment nor an atom goes on from the first part into the second one. -/
structure Cut (front rest : List Char) : Prop where
  comments : Sealed front rest
  atoms : AtomAt rest 0 → ∀ k, k + 1 = front.length → ¬ AtomAt front k

theorem Cut.isAtom_right (h : Cut front rest) :
    IsAtom (front ++ rest) (front.length + i) (front.length + j) ↔ IsAtom rest i j := by
  constructor
  · rintro ⟨hlt, hinside, hleft, hright⟩
    refine ⟨Nat.lt_of_add_lt_add_left hlt, fun k hi hj => ?_, fun k hk hat => ?_, ?_⟩
    · exact (atomAt_right h.comments).mp
        (hinside _ (Nat.add_le_add_left hi _) (Nat.add_lt_add_left hj _))
    · exact hleft (front.length + k) (by omega) ((atomAt_right h.comments).mpr hat)
    · exact fun hat => hright ((atomAt_right h.comments).mpr hat)
  · rintro ⟨hlt, hinside, hleft, hright⟩
    refine ⟨Nat.add_lt_add_left hlt _, fun k hi hj => ?_, fun k hk hat => ?_, ?_⟩
    · obtain ⟨m, rfl⟩ := Nat.exists_eq_add_of_le (Nat.le_trans (Nat.le_add_right _ i) hi)
      exact (atomAt_right h.comments).mpr
        (hinside m (Nat.le_of_add_le_add_left hi) (Nat.lt_of_add_lt_add_left hj))
    · by_cases hfront : k < front.length
      · obtain rfl : i = 0 := by omega
        exact h.atoms (hinside 0 (Nat.le_refl _) hlt) k (by omega) ((atomAt_left hfront).mp hat)
      · obtain ⟨m, rfl⟩ := Nat.exists_eq_add_of_le (Nat.le_of_not_lt hfront)
        exact hleft m (by omega) ((atomAt_right h.comments).mp hat)
    · exact fun hat => hright ((atomAt_right h.comments).mp hat)

/-- The pieces of the second part are pieces of the text. -/
theorem Cut.isPiece_right (h : Cut front rest) :
    IsPiece (front ++ rest) (front.length + i) (front.length + j) ↔ IsPiece rest i j := by
  constructor
  · intro hp
    generalize ha : front.length + i = a, hb : front.length + j = b at hp
    cases hp with
    | paren hc hparen =>
      subst ha
      obtain rfl : j = i + 1 := by omega
      exact .paren ((plainAt_right h.comments).mp hc) hparen
    | atom hp =>
      subst ha hb
      exact .atom (h.isAtom_right.mp hp)
  · rintro (⟨hc, hparen⟩ | hp)
    · exact .paren ((plainAt_right h.comments).mpr hc) hparen
    · exact .atom (h.isAtom_right.mpr hp)

theorem slice_right :
    slice (front ++ rest) (front.length + i) (front.length + j) = slice rest i j := by
  unfold slice
  rw [List.take_length_add_append, List.drop_length_add_append]

end

/-! ### Finding the pieces -/

/-- A lexeme has the text of some characters and the place of the first of them. -/
structure Finds (here : Position) (cs : List Char) (span : Nat × Nat) (l : Lexeme) : Prop where
  position : l.position = here.advance (cs.take span.1)
  text : l.text = slice cs span.1 span.2

/-- The lexemes of a text are its pieces, in their order, up to the first blank that is no layout;
`here` is the place of the text, and `n` is where reading stops. -/
structure Scanned (here : Position) (cs : List Char) (ls : Lexemes) (n : Nat)
    (spans : List (Nat × Nat)) :
    Prop where
  le : n ≤ cs.length
  rest : ls.rest = cs.drop n
  stop : ls.stop = here.advance (cs.take n)
  before : ∀ i, i < n → ¬ StrangeAt cs i
  strange : n < cs.length → StrangeAt cs n
  ordered : spans.Pairwise fun a b => a.2 ≤ b.1
  pieces : ∀ i j, (i, j) ∈ spans ↔ IsPiece cs i j ∧ i < n
  found : List.Forall₂ (Finds here cs) spans ls.found

section

variable {here : Position} {front rest : List Char} {ls : Lexemes} {n : Nat}
  {spans : List (Nat × Nat)} {c : Char}

/-- A span of the second part of a text, as a span of the text. -/
def shift (m : Nat) (span : Nat × Nat) : Nat × Nat := (m + span.1, m + span.2)

theorem Finds.append {span : Nat × Nat} {l : Lexeme} (h : Finds (here.advance front) rest span l) :
    Finds here (front ++ rest) (shift front.length span) l where
  position := by
    rw [h.position, ← Position.advance_append]
    exact congrArg here.advance (List.take_length_add_append _).symm
  text := h.text.trans slice_right.symm

/-- What is found in a text with something in front. -/
theorem Scanned.append (h : Scanned (here.advance front) rest ls n spans) (hcut : Cut front rest)
    (hgood : ∀ i, i < front.length → ¬ StrangeAt front i) (first : List (Nat × Nat))
    (found : List Lexeme)
    (hpieces : ∀ i j, (i, j) ∈ first ↔ IsPiece (front ++ rest) i j ∧ i < front.length)
    (hends : ∀ span ∈ first, span.2 ≤ front.length) (hordered : first.Pairwise fun a b => a.2 ≤ b.1)
    (hfound : List.Forall₂ (Finds here (front ++ rest)) first found) :
    Scanned here (front ++ rest) ⟨found ++ ls.found, ls.stop, ls.rest⟩ (front.length + n)
      (first ++ spans.map (shift front.length)) where
  le := by
    rw [List.length_append]
    exact Nat.add_le_add_left h.le _
  rest := h.rest.trans (List.drop_length_add_append _).symm
  stop := by
    rw [h.stop, ← Position.advance_append]
    exact congrArg here.advance (List.take_length_add_append _).symm
  before i hi := by
    by_cases hfront : i < front.length
    · exact fun hat => hgood i hfront ((strangeAt_left hfront).mp hat)
    · obtain ⟨k, rfl⟩ := Nat.exists_eq_add_of_le (Nat.le_of_not_lt hfront)
      exact fun hat => h.before k (Nat.lt_of_add_lt_add_left hi)
        ((strangeAt_right hcut.comments).mp hat)
  strange hlt := by
    rw [List.length_append] at hlt
    exact (strangeAt_right hcut.comments).mpr (h.strange (Nat.lt_of_add_lt_add_left hlt))
  ordered := by
    refine List.pairwise_append.mpr ⟨hordered, ?_, fun a ha b hb => ?_⟩
    · exact List.pairwise_map.mpr (h.ordered.imp fun hab => Nat.add_le_add_left hab _)
    · obtain ⟨b', -, rfl⟩ := List.mem_map.mp hb
      exact Nat.le_trans (hends a ha) (Nat.le_add_right _ _)
  pieces i j := by
    rw [List.mem_append]
    -- a piece starts either in the front or behind it
    by_cases hfront : i < front.length
    · constructor
      · rintro (hmem | hmem)
        · exact ⟨((hpieces i j).mp hmem).1, Nat.lt_of_lt_of_le hfront (Nat.le_add_right _ _)⟩
        · obtain ⟨s, -, hs⟩ := List.mem_map.mp hmem
          obtain rfl : front.length + s.1 = i := congrArg Prod.fst hs
          exact absurd hfront (Nat.not_lt_of_le (Nat.le_add_right _ _))
      · exact fun hp => .inl ((hpieces i j).mpr ⟨hp.1, hfront⟩)
    · obtain ⟨i', rfl⟩ := Nat.exists_eq_add_of_le (Nat.le_of_not_lt hfront)
      constructor
      · rintro (hmem | hmem)
        · exact absurd ((hpieces _ j).mp hmem).2 hfront
        · obtain ⟨⟨a, b⟩, hs, heq⟩ := List.mem_map.mp hmem
          obtain ⟨ha, rfl⟩ := Prod.mk.inj heq
          obtain rfl := Nat.add_left_cancel ha
          obtain ⟨hp, hlt⟩ := (h.pieces a b).mp hs
          exact ⟨hcut.isPiece_right.mpr hp, Nat.add_lt_add_left hlt _⟩
      · rintro ⟨hp, hlt⟩
        obtain ⟨j', rfl⟩ := Nat.exists_eq_add_of_le
          (Nat.le_trans (Nat.le_add_right _ i') (Nat.le_of_lt hp.lt))
        have hmem := (h.pieces i' j').mpr ⟨hcut.isPiece_right.mp hp, Nat.lt_of_add_lt_add_left hlt⟩
        exact .inr (List.mem_map.mpr ⟨(i', j'), hmem, rfl⟩)
  found := by
    refine List.rel_append hfound (List.forall₂_map_left_iff.mpr ?_)
    exact h.found.imp fun _ _ hfinds => hfinds.append

/-- Layout and comments have no pieces. -/
theorem Scanned.skip (h : Scanned (here.advance front) rest ls n spans)
    (hsealed : Sealed front rest) (hlayout : ∀ i c, PlainAt front i c → Text.isLayout c = true) :
    Scanned here (front ++ rest) ls (front.length + n) (spans.map (shift front.length)) := by
  have hatom : ∀ i, ¬ AtomAt front i := by
    rintro i ⟨c, hc, hatom⟩
    exact absurd (Text.isBlank_of_isLayout (hlayout i c hc)) (by simp [(isAtomChar_eq.mp hatom).1])
  refine h.append ⟨hsealed, fun _ k _ => hatom k⟩ ?_ [] [] (fun i j => ?_)
    (fun _ hs => absurd hs List.not_mem_nil) .nil .nil
  · rintro i - ⟨c, hc, -, hno⟩
    rw [hlayout i c hc] at hno
    cases hno
  · refine ⟨fun hmem => absurd hmem List.not_mem_nil, ?_⟩
    rintro ⟨hc | hp, hlt⟩
    · rename_i c hparen
      have hlayout := hlayout i c ((plainAt_left hlt).mp hc)
      rcases hparen with rfl | rfl <;> cases hlayout
    · exact absurd ((atomAt_left hlt).mp (hp.inside i (Nat.le_refl i) hp.lt)) (hatom i)

/-- A text that begins with a piece. -/
theorem Scanned.push (h : Scanned (here.advance front) rest ls n spans) (hcut : Cut front rest)
    (hgood : ∀ i, i < front.length → ¬ StrangeAt front i)
    (hpieces : ∀ i j, IsPiece (front ++ rest) i j ∧ i < front.length ↔ i = 0 ∧ j = front.length) :
    Scanned here (front ++ rest) (ls.push ⟨here, front⟩) (front.length + n)
      ((0, front.length) :: spans.map (shift front.length)) := by
  refine h.append hcut hgood [(0, front.length)] [⟨here, front⟩] (fun i j => ?_)
    (fun s hs => ?_) (List.pairwise_singleton _ _) (.cons ⟨rfl, ?_⟩ .nil)
  · rw [hpieces, List.mem_singleton, Prod.mk.injEq]
  · obtain rfl := List.mem_singleton.mp hs
    exact Nat.le_refl _
  · exact (List.take_left' rfl).symm

/-- Where no comment begins, no character is in a comment. -/
theorem plainAt_of_getElem? {cs : List Char} {i : Nat} (hcs : ∀ c ∈ cs, c ≠ ';')
    (h : cs[i]? = some c) :
    PlainAt cs i c := by
  refine ⟨h, ?_⟩
  rintro ⟨j, -, hsemi, -⟩
  exact hcs ';' (List.mem_of_getElem? hsemi) rfl

theorem of_getElem?_singleton {a b : Char} {i : Nat} (h : [a][i]? = some b) : i = 0 ∧ b = a := by
  cases i with
  | zero => exact ⟨rfl, (Option.some.inj h).symm⟩
  | succ i => cases h

/-- What comes after the longest run of some characters does not begin with one of them. -/
theorem not_of_dropWhile {p : Char → Bool} {cs : List Char} (h : (cs.dropWhile p)[0]? = some c) :
    p c = false := by
  cases hd : cs.dropWhile p with
  | nil =>
    rw [hd] at h
    cases h
  | cons a as =>
    rw [hd] at h
    obtain rfl := Option.some.inj h
    have hhead := List.head_dropWhile_not p (l := cs) (by simp [hd])
    simpa [hd] using hhead

/-- Every character of a comment is in a comment. -/
theorem commented_comment {body : List Char} (hbody : ∀ c ∈ body, isCommentChar c = true) {i : Nat}
    (hi : i < (';' :: body).length) : Commented (';' :: body) i := by
  refine ⟨0, Nat.zero_le i, rfl, fun k _ hk => ?_⟩
  obtain ⟨a, ha⟩ : ∃ a, (';' :: body)[k]? = some a :=
    ⟨_, List.getElem?_eq_getElem (Nat.lt_of_le_of_lt hk hi)⟩
  refine ⟨a, ha, ?_⟩
  rcases List.mem_cons.mp (List.mem_of_getElem? ha) with rfl | hmem
  · decide
  · exact isCommentChar_eq.mp (hbody a hmem)

/-- A parenthesis in front is a piece. -/
theorem isPiece_paren (hc : c = '(' ∨ c = ')') (i j : Nat) :
    IsPiece ([c] ++ rest) i j ∧ i < [c].length ↔ i = 0 ∧ j = [c].length := by
  have hplain : ∀ b ∈ [c], b ≠ ';' := by
    rintro b hb rfl
    rcases hc with rfl | rfl <;> cases List.mem_singleton.mp hb
  constructor
  · rintro ⟨hp, hlt⟩
    obtain rfl : i = 0 := Nat.lt_one_iff.mp hlt
    refine ⟨rfl, ?_⟩
    cases hp with
    | paren => rfl
    | atom hp =>
      obtain ⟨b, hb, hatom⟩ := (atomAt_left hlt).mp (hp.inside 0 (Nat.le_refl 0) hp.lt)
      obtain rfl := (of_getElem?_singleton hb.1).2
      obtain ⟨-, h₁, h₂, -⟩ := isAtomChar_eq.mp hatom
      rcases hc with h | h
      · exact absurd h h₁
      · exact absurd h h₂
  · rintro ⟨rfl, rfl⟩
    exact ⟨.paren ((plainAt_left Nat.one_pos).mpr (plainAt_of_getElem? hplain rfl)) hc, Nat.one_pos⟩

section

variable (hfront : ∀ c ∈ front, isAtomChar c = true)

include hfront

theorem no_comment_of_atom (c : Char) (hc : c ∈ front) : c ≠ ';' :=
  (isAtomChar_eq.mp (hfront c hc)).2.2.2

theorem atomAt_of_atom {i : Nat} (hi : i < front.length) : AtomAt front i := by
  have hat := List.getElem?_eq_getElem hi
  exact ⟨_, plainAt_of_getElem? (no_comment_of_atom hfront) hat,
    hfront _ (List.mem_of_getElem? hat)⟩

/-- A run of atom characters in front, which does not go on, is a piece. -/
theorem isPiece_atom (hrest : ¬ AtomAt rest 0) (hne : 0 < front.length) (i j : Nat) :
    IsPiece (front ++ rest) i j ∧ i < front.length ↔ i = 0 ∧ j = front.length := by
  have hsealed : Sealed front rest := sealed_of (.inl (no_comment_of_atom hfront))
  have hend : ¬ AtomAt (front ++ rest) front.length := fun hat =>
    hrest ((atomAt_right (k := 0) hsealed).mp hat)
  have hinside : ∀ k, k < front.length → AtomAt (front ++ rest) k := fun k hk =>
    (atomAt_left hk).mpr (atomAt_of_atom hfront hk)
  constructor
  · rintro ⟨hp, hlt⟩
    cases hp with
    | paren hc hparen =>
      obtain ⟨-, h₁, h₂, -⟩ := isAtomChar_eq.mp
        (hfront _ (List.mem_of_getElem? ((plainAt_left hlt).mp hc).1))
      rcases hparen with h | h
      · exact absurd h h₁
      · exact absurd h h₂
    | atom hp =>
      have hi : i = 0 := by
        by_contra hi
        exact hp.left (i - 1) (by omega) (hinside _ (by omega))
      refine ⟨hi, ?_⟩
      rcases Nat.lt_trichotomy j front.length with hj | hj | hj
      · exact absurd (hinside j hj) hp.right
      · exact hj
      · exact absurd (hp.inside _ (Nat.le_of_lt hlt) hj) hend
  · rintro ⟨rfl, rfl⟩
    exact ⟨.atom ⟨hne, fun k _ hk => hinside k hk, fun k hk =>
      absurd hk (Nat.succ_ne_zero k), hend⟩, hne⟩

end

/-! ### Each way to go on -/

/-- Nothing is found in a text that is empty or begins with a blank that is no layout. -/
theorem Scanned.nothing {cs : List Char} (h : 0 < cs.length → StrangeAt cs 0) :
    Scanned here cs ⟨[], here, cs⟩ 0 [] where
  le := Nat.zero_le _
  rest := rfl
  stop := rfl
  before i hi := absurd hi (Nat.not_lt_zero i)
  strange := h
  ordered := .nil
  pieces i _ :=
    ⟨fun hmem => absurd hmem List.not_mem_nil, fun hp => absurd hp.2 (Nat.not_lt_zero i)⟩
  found := .nil

/-- Layout is skipped. -/
theorem Scanned.layout (h : Scanned (here.advance [c]) rest ls n spans)
    (hlayout : Text.isLayout c = true) :
    Scanned here (c :: rest) ls (1 + n) (spans.map (shift 1)) := by
  refine h.skip (sealed_of (.inl ?_)) fun i b hb => ?_
  · rintro b hb rfl
    obtain rfl := List.mem_singleton.mp hb
    cases hlayout
  · rwa [(of_getElem?_singleton hb.1).2]

/-- A comment is skipped. -/
theorem Scanned.comment
    (h : Scanned (here.advance (';' :: rest.takeWhile isCommentChar)) (rest.dropWhile isCommentChar)
      ls n spans) :
    ∃ n spans, Scanned here (';' :: rest) ls n spans := by
  have hbody : ∀ c ∈ rest.takeWhile isCommentChar, isCommentChar c = true := fun c hc =>
    List.all_eq_true.mp List.all_takeWhile c hc
  have hsealed : Sealed (';' :: rest.takeWhile isCommentChar) (rest.dropWhile isCommentChar) := by
    refine sealed_of (.inr fun c hc => ?_)
    by_contra hline
    obtain ⟨hr, hn⟩ := not_or.mp hline
    exact absurd (isCommentChar_eq.mpr ⟨hr, hn⟩) (by simp [not_of_dropWhile hc])
  have hskip := h.skip hsealed fun i b hb =>
    absurd (commented_comment hbody (List.getElem?_eq_some_iff.mp hb.1).1) hb.2
  rw [List.cons_append, List.takeWhile_append_dropWhile] at hskip
  exact ⟨_, _, hskip⟩

/-- A parenthesis is found. -/
theorem Scanned.paren (h : Scanned (here.advance [c]) rest ls n spans)
    (hparen : c = '(' ∨ c = ')') :
    Scanned here (c :: rest) (ls.push ⟨here, [c]⟩) (1 + n) ((0, 1) :: spans.map (shift 1)) := by
  have hsame : ∀ i b, PlainAt [c] i b → b = c := fun i b hb => (of_getElem?_singleton hb.1).2
  refine h.push ⟨sealed_of (.inl ?_), ?_⟩ ?_ (isPiece_paren hparen)
  · rintro b hb rfl
    rcases hparen with rfl | rfl <;> cases List.mem_singleton.mp hb
  · rintro - k - ⟨b, hb, hatom⟩
    rw [hsame k b hb] at hatom
    obtain ⟨-, h₁, h₂, -⟩ := isAtomChar_eq.mp hatom
    exact hparen.elim h₁ h₂
  · rintro i - ⟨b, hb, hblank, -⟩
    rw [hsame i b hb] at hblank
    rcases hparen with rfl | rfl <;> cases hblank

/-- An atom is found. -/
theorem Scanned.atom
    (h : Scanned (here.advance (c :: rest.takeWhile isAtomChar))
      (rest.dropWhile isAtomChar) ls n spans)
    (hatom : isAtomChar c = true) :
    ∃ n spans, Scanned here (c :: rest)
      (ls.push ⟨here, c :: rest.takeWhile isAtomChar⟩) n spans := by
  have hfront : ∀ b ∈ c :: rest.takeWhile isAtomChar, isAtomChar b = true := by
    intro b hb
    rcases List.mem_cons.mp hb with rfl | hb
    · exact hatom
    · exact List.all_eq_true.mp List.all_takeWhile b hb
  have hrest : ¬ AtomAt (rest.dropWhile isAtomChar) 0 := by
    rintro ⟨b, hb, hatom⟩
    exact absurd hatom (by simp [not_of_dropWhile hb.1])
  have hpush :=
    h.push ⟨sealed_of (.inl (no_comment_of_atom hfront)), fun hat => absurd hat hrest⟩ ?_
    (isPiece_atom hfront hrest (Nat.succ_pos _))
  · rw [List.cons_append, List.takeWhile_append_dropWhile] at hpush
    exact ⟨_, _, hpush⟩
  · rintro i - ⟨b, hb, hblank, -⟩
    have hno := (isAtomChar_eq.mp (hfront b (List.mem_of_getElem? hb.1))).1
    exact absurd hblank (by simp [hno])

/-- What is neither layout nor the first character of a comment, a parenthesis or an
atom is a blank. -/
theorem strangeAt_front (hlayout : ¬ Text.isLayout c = true) (hsemi : c ≠ ';')
    (hparen : ¬ (c = '(' ∨ c = ')')) (hatom : ¬ isAtomChar c = true) : StrangeAt (c :: rest) 0 := by
  obtain ⟨hopen, hclose⟩ := not_or.mp hparen
  refine ⟨c, ⟨rfl, ?_⟩, ?_, Bool.not_eq_true _ ▸ hlayout⟩
  · rintro ⟨j, hj, hat, -⟩
    obtain rfl := Nat.le_zero.mp hj
    exact hsemi (Option.some.inj hat)
  · by_contra hblank
    exact hatom (isAtomChar_eq.mpr ⟨Bool.not_eq_true _ ▸ hblank, hopen, hclose, hsemi⟩)

end

/-- The lexemes of a text are its pieces. -/
theorem lexemes_scanned (here : Position) (cs : List Char) :
    ∃ n spans, Scanned here cs (lexemes here cs) n spans := by
  fun_induction lexemes here cs with
  | case1 here => exact ⟨0, [], .nothing fun hlt => absurd hlt (Nat.lt_irrefl 0)⟩
  | case2 here c cs hlayout ih =>
    obtain ⟨n, spans, h⟩ := ih
    exact ⟨_, _, h.layout hlayout⟩
  | case3 here cs hlayout ih =>
    obtain ⟨n, spans, h⟩ := ih
    exact Scanned.comment h
  | case4 here c cs hlayout hsemi hparen ih =>
    obtain ⟨n, spans, h⟩ := ih
    exact ⟨_, _, h.paren (by simpa using hparen)⟩
  | case5 here c cs hlayout hsemi hparen hatom ih =>
    obtain ⟨n, spans, h⟩ := ih
    exact Scanned.atom h hatom
  | case6 here c cs hlayout hsemi hparen hatom =>
    exact ⟨0, [], .nothing fun _ => strangeAt_front hlayout hsemi (by simpa using hparen) hatom⟩

end ForkLisp.Reader
