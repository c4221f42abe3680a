/-
Where forms stand in a text.

The tokens of a part of a form follow one another in the text, and its range goes from the first of
them to the last one. So every part of a form that was read has its extent in the text, and the text
of it alone is read as the same form (`Extent.read`).
-/
import ForkLisp.Proofs.Reader.Grammar
import ForkLisp.Proofs.Reader.Slices

namespace ForkLisp.Reader

open ForkLisp.Numeric ForkLisp.Source

/-! ### Parts of forms -/

/-- A form is another one or stands in it. -/
inductive Subform : Form → Form → Prop where
  | refl (f : Form) : Subform f f
  | item {f g : Form} {r : Range} {items : List Form} (hg : g ∈ items) (h : Subform f g) :
      Subform f (.list r items)

theorem Subform.trans {f g h : Form} (hfg : Subform f g) (hgh : Subform g h) : Subform f h := by
  induction hgh with
  | refl => exact hfg
  | item hg _ ih => exact .item hg ih

theorem Subform.of_mem {f g : Form} {r : Range} {items : List Form} (h : Subform (.list r items) g)
    (hf : f ∈ items) : Subform f g :=
  (Subform.item hf (.refl f)).trans h

/-- The tokens of a form among others are a part of theirs. -/
theorem infix_tokensAll {f : Form} {fs : List Form} (hf : f ∈ fs) : f.tokens <:+: tokensAll fs := by
  obtain ⟨before, after, rfl⟩ := List.append_of_mem hf
  exact ⟨tokensAll before, tokensAll after, by simp⟩

/-- The tokens of a part of a form are a part of its tokens. -/
theorem Subform.tokens {f g : Form} (h : Subform f g) : f.tokens <:+: g.tokens := by
  induction h with
  | refl => exact List.infix_rfl
  | @item g r items hg _ ih =>
    refine ih.trans ((infix_tokensAll hg).trans ?_)
    exact ⟨[openingOf r], [closingOf r], by rw [Form.tokens]; simp⟩

/-- The range of a form begins where its first token does. -/
theorem Form.head_tokens (f : Form) :
    ∃ t, f.tokens.head? = some t ∧ t.range.start = f.range.start := by
  cases f with
  | int | float | symbol => exact ⟨_, rfl, rfl⟩
  | list r items => exact ⟨openingOf r, rfl, rfl⟩

/-- It ends where the last one does. -/
theorem Form.getLast_tokens (f : Form) :
    ∃ t, f.tokens.getLast? = some t ∧ t.range.stop = f.range.stop := by
  cases f with
  | int | float | symbol => exact ⟨_, rfl, rfl⟩
  | list r items =>
    refine ⟨closingOf r, ?_, rfl⟩
    rw [Form.tokens, ← List.cons_append, List.getLast?_append]
    rfl

/-! ### Parts of the tokens -/

section

variable {cs : List Char} {i j : Nat} {spans : List (Nat × Nat)} {ts before mid after : List Token}

/-- Spans that follow one another begin with the first of them. -/
theorem first_le {s : Nat × Nat} (h : spans.Pairwise fun a b => a.2 ≤ b.1)
    (hs : spans.head? = some s) (hlt : s.1 < s.2) : ∀ x ∈ spans, s.1 ≤ x.1 := by
  obtain ⟨rest, rfl⟩ := List.head?_eq_some_iff.mp hs
  intro x hx
  rcases List.mem_cons.mp hx with rfl | hx
  · exact Nat.le_refl _
  · exact Nat.le_trans (Nat.le_of_lt hlt) ((List.pairwise_cons.mp h).1 x hx)

/-- They end with the last of them. -/
theorem le_last {s : Nat × Nat} (h : spans.Pairwise fun a b => a.2 ≤ b.1)
    (hs : spans.getLast? = some s) (hlt : s.1 < s.2) : ∀ x ∈ spans, x.2 ≤ s.2 := by
  obtain ⟨rest, rfl⟩ := List.getLast?_eq_some_iff.mp hs
  intro x hx
  rcases List.mem_append.mp hx with hx | hx
  · have hle := (List.pairwise_append.mp h).2.2 x hx s (List.mem_singleton_self s)
    exact Nat.le_trans hle (Nat.le_of_lt hlt)
  · rw [List.mem_singleton.mp hx]

/-- A part of the tokens of a text lies between the first and the last token of it. -/
theorem TokensOf.within (h : TokensOf cs spans (before ++ mid ++ after)) {t u : Token}
    (ht : mid.head? = some t) (hu : mid.getLast? = some u) :
    ∃ i j, Framed cs i j ∧ t.range.start = place cs i ∧ u.range.stop = place cs j ∧
      ∃ within, TokensWithin cs i j within mid := by
  obtain ⟨front, back, rfl, hfront, -⟩ := exists_of_forall₂_append h.covers
  obtain ⟨first, within, rfl, -, hcovers⟩ := exists_of_forall₂_append hfront
  rw [List.head?_eq_getElem?] at ht
  rw [List.getLast?_eq_getElem?, ← hcovers.length_eq] at hu
  obtain ⟨⟨i, m⟩, hhead, hfirst⟩ := getElem?_of_forall₂ hcovers.flip ht
  obtain ⟨⟨m', j⟩, hgetLast, hlast⟩ := getElem?_of_forall₂ hcovers.flip hu
  rw [← List.head?_eq_getElem?] at hhead
  rw [← List.getLast?_eq_getElem?] at hgetLast
  obtain ⟨hleft, -, hright⟩ := List.pairwise_append.mp h.ordered
  obtain ⟨-, hwithin, hbefore⟩ := List.pairwise_append.mp hleft
  have hmem : (i, m) ∈ within := List.mem_of_head? hhead
  have hmem' : (m', j) ∈ within := List.mem_of_getLast? hgetLast
  have hpiece : ∀ a b, (a, b) ∈ within → IsPiece cs a b := fun a b hab =>
    (h.pieces a b).mp (List.mem_append_left _ (List.mem_append_right _ hab))
  have hstart := first_le hwithin hhead (hpiece _ _ hmem).lt
  have hstop := le_last hwithin hgetLast (hpiece _ _ hmem').lt
  have hstarts : t.range.start = place cs i := by rw [hfirst.range]
  have hstops : u.range.stop = place cs j := by rw [hlast.range]
  refine ⟨i, j, ⟨⟨m, hpiece _ _ hmem⟩, m', hstart _ hmem', hpiece _ _ hmem'⟩, hstarts, hstops,
    within,
    hwithin, fun a b => ⟨fun hab => ⟨hpiece a b hab, hstart _ hab, hstop _ hab⟩, ?_⟩, hcovers⟩
  rintro ⟨hp, hia, hbj⟩
  have hlt := hp.lt
  rcases List.mem_append.mp ((h.pieces a b).mpr hp) with hab | hab
  · rcases List.mem_append.mp hab with hab | hab
    · have hle : b ≤ i := hbefore _ hab _ hmem
      omega
    · exact hab
  · have hle : j ≤ a := hright _ (List.mem_append_right _ hmem') _ hab
    omega

end

/-! ### Bytes -/

/-- The bytes of the characters from `i` up to `j`. -/
def spanAt (cs : List Char) (i j : Nat) : Span := ⟨bytes (cs.take i), bytes (slice cs i j)⟩

section

variable {cs : List Char} {source : String} {i j : Nat}

theorem offsetOf_place (source : String) (i : Nat) :
    offsetOf source (place source.toList i) = bytes (source.toList.take i) :=
  offsetOf_advance source _ _ (List.take_append_drop i source.toList).symm

theorem bytes_slice (hij : i ≤ j) :
    bytes (slice cs i j) = bytes (cs.take j) - bytes (cs.take i) := by
  rw [← take_append_slice hij, bytes_append, Nat.add_sub_cancel_left]

theorem bytes_slice_pos (hij : i < j) (hj : j ≤ cs.length) : 1 ≤ bytes (slice cs i j) := by
  have hlen : (slice cs i j).length = j - i := length_slice hj
  cases h : slice cs i j with
  | nil =>
    rw [h, List.length_nil] at hlen
    omega
  | cons c rest =>
    rw [bytes_cons]
    exact Nat.le_trans c.utf8Size_pos (Nat.le_add_right _ _)

/-- The span of a range covers just the characters that the range goes over. -/
theorem spanOf_place (hij : i < j) (hj : j ≤ source.toList.length) :
    spanOf source ⟨place source.toList i, place source.toList j⟩ = spanAt source.toList i j := by
  unfold spanOf spanAt
  dsimp only
  rw [offsetOf_place, offsetOf_place, ← bytes_slice (Nat.le_of_lt hij)]
  exact congrArg (Span.mk _) (Nat.max_eq_right (bytes_slice_pos hij hj))

/-- The span of the rest of a text covers all of it, also if it has several lines. -/
theorem spanOf_rest (hi : i < source.toList.length) :
    spanOf source (.onLine (place source.toList i) (source.toList.length - i)) =
      spanAt source.toList i source.toList.length := by
  have hstop := offsetOf_rest source _ _ (List.take_append_drop i source.toList).symm
  have hpos := bytes_slice_pos hi (Nat.le_refl _)
  have hslice : bytes (slice source.toList i source.toList.length) = _ :=
    bytes_slice (Nat.le_of_lt hi)
  rw [List.take_length] at hslice
  rw [List.length_drop] at hstop
  unfold spanOf spanAt Range.onLine
  dsimp only
  rw [offsetOf_place]
  unfold place
  rw [hstop, ← hslice]
  exact congrArg (Span.mk _) (Nat.max_eq_right hpos)

/-- The bytes of a part of a text lie inside of it. -/
theorem spanAt_le (hij : i ≤ j) :
    (spanAt source.toList i j).offset + (spanAt source.toList i j).length ≤
    source.utf8ByteSize := by
  unfold spanAt
  dsimp only
  rw [← bytes_append, take_append_slice hij, ← bytes_toList]
  conv_rhs => rw [← List.take_append_drop j source.toList, bytes_append]
  exact Nat.le_add_right _ _

end

/-! ### Extents -/

/-- The characters from `i` up to `j` are the text of a form: they begin and end with pieces, the
range of the form goes from the first character to the end of the last one, and its tokens are the
pieces between them. -/
structure Extent (cs : List Char) (f : Form) (i j : Nat) : Prop where
  framed : Framed cs i j
  range : f.range = ⟨place cs i, place cs j⟩
  tokens : ∃ spans, TokensWithin cs i j spans f.tokens

section

variable {source : String} {fs : List Form} {f g : Form} {i j : Nat}

/-- A text is read as the forms that its tokens make. -/
theorem read_eq_ok : read source = .ok fs ↔ ∃ ts, tokenize source = .ok ts ∧ build ts = .ok fs := by
  unfold read
  cases tokenize source with
  | error e => exact ⟨nofun, fun ⟨_, h, _⟩ => nomatch h⟩
  | ok ts =>
    dsimp only
    cases hbuild : build ts with
    | error e =>
      refine ⟨nofun, ?_⟩
      rintro ⟨us, hus, h⟩
      rw [← Except.ok.inj hus, hbuild] at h
      cases h
    | ok gs =>
      constructor
      · intro h
        exact ⟨ts, rfl, by rw [hbuild, Except.ok.inj h]⟩
      · rintro ⟨us, hus, h⟩
        rw [← Except.ok.inj hus, hbuild] at h
        rw [Except.ok.inj h]

/-- A text that is read splits into the tokens of what is read. -/
theorem tokenize_of_read (h : read source = .ok fs) : tokenize source = .ok (tokensAll fs) := by
  obtain ⟨ts, hts, hbuild⟩ := read_eq_ok.mp h
  obtain ⟨spans, htokens⟩ := tokenize_ok hts
  rw [hts, (build_eq_ok htokens.arranged).mp hbuild]

/-- What is read has its extent in the text, and so has everything in it. -/
theorem exists_extent (h : read source = .ok fs) (hf : f ∈ fs) (hg : Subform g f) :
    ∃ i j, Extent source.toList g i j := by
  obtain ⟨spans, htokens⟩ := tokenize_ok (tokenize_of_read h)
  obtain ⟨before, after, hsplit⟩ := hg.tokens.trans (infix_tokensAll hf)
  obtain ⟨t, hhead, ht⟩ := g.head_tokens
  obtain ⟨u, hlast, hu⟩ := g.getLast_tokens
  rw [← hsplit] at htokens
  obtain ⟨i, j, hframed, hstart, hstop, hwithin⟩ := htokens.within hhead hlast
  refine ⟨i, j, hframed, ?_, hwithin⟩
  rw [← hstart, ← hstop, ht, hu]

/-- The text of a form alone is read as the same form. -/
theorem Extent.read (h : Extent source.toList f i j) (hs : ∃ ts, tokenize source = .ok ts) :
    ∃ g, Reader.read (String.ofList (slice source.toList i j)) = .ok [g] ∧ g.bare = f.bare := by
  obtain ⟨spans, hwithin⟩ := h.tokens
  obtain ⟨hplain, hsmall⟩ := tokenize_ok_iff.mp hs
  obtain ⟨ts, hts, hkinds⟩ := h.framed.tokenize hwithin hplain hsmall
  obtain ⟨gs, hgs, hbuild⟩ : ∃ gs, bareAll gs = bareAll [f] ∧ build ts = .ok gs :=
    build_of_kinds (by simpa using hkinds)
  obtain ⟨g, rfl⟩ : ∃ g, gs = [g] := by
    cases gs with
    | nil => cases hgs
    | cons g gs =>
      cases gs with
      | nil => exact ⟨g, rfl⟩
      | cons => cases (List.cons.inj hgs).2
  exact ⟨g, read_eq_ok.mpr ⟨ts, hts, hbuild⟩, (List.cons.inj hgs).1⟩

end

end ForkLisp.Reader
