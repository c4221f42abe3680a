/-
Texts cut at the end of a line.

No token and no comment goes over the end of a line. So a text splits into the tokens in front of it
and those behind it, and these are of the same kinds as in the two texts alone (`tokenize_cut`). If
the whole text can be read, then either both texts can and their forms are those of the whole, or
the text in front stops in the middle of a form and the one behind cannot be read alone
(`read_cut`). This form of the whole text goes on from the one to the other (`exists_open_form`).
-/
import ForkLisp.Proofs.Reader.Extents

namespace ForkLisp.Reader

open ForkLisp.Numeric ForkLisp.Source ForkLisp.Text

/-! ### Lexemes -/

/-- The texts of lexemes do not depend on where the text stands. -/
theorem lexemes_here (here here' : Position) (cs : List Char) :
    (lexemes here cs).found.map Lexeme.text = (lexemes here' cs).found.map Lexeme.text ∧
      (lexemes here cs).rest = (lexemes here' cs).rest := by
  -- the place is carried along, and every case is decided by the characters
  fun_induction lexemes here cs generalizing here' with
  | case1 here =>
    rw [lexemes]
    exact ⟨rfl, rfl⟩
  | case2 here c cs hlayout ih =>
    rw [lexemes, if_pos hlayout]
    exact ih _
  | case3 here cs hlayout ih =>
    rw [lexemes, if_neg hlayout, if_pos rfl]
    exact ih _
  | case4 here c cs hlayout hsemi hparen ih =>
    rw [lexemes, if_neg hlayout, if_neg hsemi, if_pos hparen]
    obtain ⟨hfound, hrest⟩ := ih (here'.next c)
    exact ⟨congrArg (List.cons [c]) hfound, hrest⟩
  | case5 here c cs hlayout hsemi hparen hatom ih =>
    rw [lexemes, if_neg hlayout, if_neg hsemi, if_neg hparen, if_pos hatom]
    obtain ⟨hfound, hrest⟩ := ih ((here'.next c).advance (cs.takeWhile isAtomChar))
    exact ⟨congrArg (List.cons _) hfound, hrest⟩
  | case6 here c cs hlayout hsemi hparen hatom =>
    rw [lexemes, if_neg hlayout, if_neg hsemi, if_neg hparen, if_neg hatom]
    exact ⟨rfl, rfl⟩

section

variable {back : List Char} {b : Char}

/-- A run of characters does not go over one that is none of them. -/
theorem span_cut {p : Char → Bool} (hb : p b = false) (front back : List Char) :
    (front ++ b :: back).takeWhile p = front.takeWhile p ∧
      (front ++ b :: back).dropWhile p = front.dropWhile p ++ b :: back := by
  induction front with
  | nil => simp [hb]
  | cons c cs ih =>
    by_cases hc : p c
    · simp [hc, ih]
    · simp [hc]

/-- What ends comments ends lines. -/
theorem eq_of_not_comment (hb : isCommentChar b = false) : b = '\r' ∨ b = '\n' := by
  by_cases hr : b = '\r'
  · exact .inl hr
  · refine .inr ?_
    simpa [isCommentChar, hr] using hb

/-- The lexemes of a text are those in front of the end of a line, and then those behind it. -/
theorem lexemes_append (hb : isCommentChar b = false) (here : Position) (front : List Char)
    (h : (lexemes here (front ++ b :: back)).rest = []) :
    (lexemes here front).rest = [] ∧
      (lexemes here (front ++ b :: back)).found =
        (lexemes here front).found ++ (lexemes (here.advance (front ++ [b])) back).found ∧
      (lexemes (here.advance (front ++ [b])) back).rest = [] := by
  have hend : isLayout b = true ∧ isAtomChar b = false := by
    rcases eq_of_not_comment hb with rfl | rfl
    · exact ⟨by decide, by decide⟩
    · exact ⟨by decide, by decide⟩
  -- the place behind a run is the one behind all that was read
  have hplace : ∀ (here : Position) (p : Char → Bool) (cs : List Char),
      (here.advance (cs.takeWhile p)).advance (cs.dropWhile p ++ [b]) =
      here.advance (cs ++ [b]) := by
    intro here p cs
    rw [← Position.advance_append, ← List.append_assoc, List.takeWhile_append_dropWhile]
  fun_induction lexemes here front with
  | case1 here =>
    rw [List.nil_append, lexemes, if_pos hend.1] at h ⊢
    exact ⟨rfl, rfl, h⟩
  | case2 here c cs hlayout ih =>
    rw [List.cons_append, lexemes, if_pos hlayout] at h ⊢
    exact ih h
  | case3 here cs hlayout ih =>
    -- a comment stops at the end of the line, if not before
    obtain ⟨htake, hdrop⟩ := span_cut hb cs back
    rw [List.cons_append, lexemes, if_neg hlayout, if_pos rfl, htake, hdrop] at h ⊢
    obtain ⟨hfront, hfound, hback⟩ := ih h
    rw [hplace] at hfound hback
    exact ⟨hfront, hfound, hback⟩
  | case4 here c cs hlayout hsemi hparen ih =>
    rw [List.cons_append, lexemes, if_neg hlayout, if_neg hsemi, if_pos hparen] at h ⊢
    obtain ⟨hfront, hfound, hback⟩ := ih h
    exact ⟨hfront, congrArg (List.cons _) hfound, hback⟩
  | case5 here c cs hlayout hsemi hparen hatom ih =>
    -- and so does an atom
    obtain ⟨htake, hdrop⟩ := span_cut hend.2 cs back
    rw [List.cons_append, lexemes, if_neg hlayout, if_neg hsemi, if_neg hparen, if_pos hatom, htake,
      hdrop] at h ⊢
    obtain ⟨hfront, hfound, hback⟩ := ih h
    rw [hplace] at hfound hback
    exact ⟨hfront, congrArg (List.cons _) hfound, hback⟩
  | case6 here c cs hlayout hsemi hparen hatom =>
    -- the whole text would stop here as well
    rw [List.cons_append, lexemes, if_neg hlayout, if_neg hsemi, if_neg hparen, if_neg hatom] at h
    cases h

/-- Layout in front of a text only moves it. -/
theorem lexemes_layout {cs : List Char} (hcs : ∀ c ∈ cs, isLayout c = true) (here : Position)
    (back : List Char) : lexemes here (cs ++ back) = lexemes (here.advance cs) back := by
  induction cs generalizing here with
  | nil => rfl
  | cons c cs ih =>
    rw [List.cons_append, lexemes, if_pos (hcs c List.mem_cons_self),
      ih fun d hd => hcs d (List.mem_cons_of_mem c hd), Position.advance_cons]

theorem line_le_advance (p : Position) (cs : List Char) : p.line ≤ (p.advance cs).line := by
  induction cs generalizing p with
  | nil => exact Nat.le_refl _
  | cons c cs ih =>
    have hnext : p.line ≤ (p.next c).line := by
      unfold Position.next
      split
      · exact Nat.le_succ _
      · exact Nat.le_refl _
    exact Nat.le_trans hnext (ih (p.next c))

/-- Lexemes are on the lines of their text. -/
theorem line_of_mem_lexemes {l : Lexeme} (here : Position) (cs : List Char)
    (h : l ∈ (lexemes here cs).found) :
    here.line ≤ l.position.line ∧ l.position.line ≤ (here.advance cs).line := by
  fun_induction lexemes here cs with
  | case1 | case6 => exact absurd h List.not_mem_nil
  | case2 here c cs _ ih =>
    obtain ⟨hle, hge⟩ := ih h
    exact ⟨Nat.le_trans (line_le_advance here [c]) hle, hge⟩
  | case3 here cs _ ih =>
    obtain ⟨hle, hge⟩ := ih h
    rw [← Position.advance_append, List.takeWhile_append_dropWhile] at hge
    exact ⟨Nat.le_trans (line_le_advance here (';' :: cs.takeWhile isCommentChar)) hle, hge⟩
  | case4 here c cs _ _ _ ih =>
    rcases List.mem_cons.mp h with rfl | h
    · exact ⟨Nat.le_refl _, line_le_advance here _⟩
    · obtain ⟨hle, hge⟩ := ih h
      exact ⟨Nat.le_trans (line_le_advance here [c]) hle, hge⟩
  | case5 here c cs _ _ _ _ ih =>
    rcases List.mem_cons.mp h with rfl | h
    · exact ⟨Nat.le_refl _, line_le_advance here _⟩
    · obtain ⟨hle, hge⟩ := ih h
      rw [← Position.advance_append, List.takeWhile_append_dropWhile] at hge
      exact ⟨Nat.le_trans (line_le_advance here (c :: cs.takeWhile isAtomChar)) hle, hge⟩

end

/-! ### Tokens -/

section

variable {l l' : Lexeme} {t : Token}

theorem token_range (h : l.token = .ok t) : t.range = l.range := by
  unfold Lexeme.token at h
  split at h
  · rw [← Except.ok.inj h]
  · split at h
    · rw [← Except.ok.inj h]
    · split at h
      · rw [← Except.ok.inj h]
      · cases h

/-- What a lexeme is depends on its text alone. -/
theorem token_of_text (htext : l'.text = l.text) (h : l.token = .ok t) :
    l'.token = .ok ⟨l'.range, t.kind⟩ := by
  unfold Lexeme.token at h ⊢
  rw [htext]
  by_cases hopen : l.text = ['(']
  · rw [if_pos hopen] at h ⊢
    rw [← Except.ok.inj h]
  · rw [if_neg hopen] at h ⊢
    by_cases hclose : l.text = [')']
    · rw [if_pos hclose] at h ⊢
      rw [← Except.ok.inj h]
    · rw [if_neg hclose] at h ⊢
      cases hkind : TokenKind.ofAtom? l.text with
      | none =>
        rw [hkind] at h
        cases h
      | some kind =>
        rw [hkind] at h
        rw [← Except.ok.inj h]

/-- Lexemes of the same texts have tokens of the same kinds. -/
theorem tokens_of_texts {ls ls' : List Lexeme} {ts : List Token}
    (htexts : ls'.map Lexeme.text = ls.map Lexeme.text) (h : List.Forall₂ HasToken ls ts) :
    ∃ us, List.Forall₂ HasToken ls' us ∧ us.map Token.kind = ts.map Token.kind := by
  induction h generalizing ls' with
  | nil =>
    obtain rfl := List.map_eq_nil_iff.mp htexts
    exact ⟨[], .nil, rfl⟩
  | @cons l t ls ts hl _ ih =>
    obtain ⟨l', ls', rfl, htext, htexts⟩ := List.map_eq_cons_iff.mp htexts
    obtain ⟨us, hus, hkinds⟩ := ih htexts
    exact ⟨_, .cons (token_of_text htext hl) hus, congrArg (List.cons t.kind) hkinds⟩

end

/-- The end of a line, and layout that may follow it. -/
def IsBreak (e : String) : Prop :=
  ∃ b cs, e.toList = b :: cs ∧ isCommentChar b = false ∧ ∀ c ∈ cs, isLayout c = true

section

variable {source front back e : String} {ts : List Token}

/-- Tokens begin on the lines of their text. -/
theorem line_of_mem_tokenize (h : tokenize source = .ok ts) :
    ∀ t ∈ ts, t.range.start.line ≤ (Position.start.advance source.toList).line := by
  intro t ht
  obtain ⟨l, hl, htoken⟩ := exists_of_mem_right (tokenize_eq_ok.mp h).2 ht
  rw [token_range htoken]
  exact (line_of_mem_lexemes _ _ hl).2

/-- The tokens of a text are those of its front, and then those of what is behind, on later
lines. -/
theorem tokenize_cut (he : IsBreak e) (h : tokenize (front ++ e ++ back) = .ok ts) :
    ∃ fronts backs us, ts = fronts ++ backs ∧ tokenize front = .ok fronts ∧ tokenize back = .ok us ∧
      us.map Token.kind = backs.map Token.kind ∧
      ∀ t ∈ backs, (Position.start.advance (front ++ e).toList).line ≤ t.range.stop.line := by
  obtain ⟨b, cs, hbreak, hb, hcs⟩ := he
  have htext : (front ++ e ++ back).toList = front.toList ++ b :: (cs ++ back.toList) := by
    simp [hbreak]
  have hplace : (Position.start.advance (front.toList ++ [b])).advance cs =
      Position.start.advance (front ++ e).toList := by
    rw [← Position.advance_append, String.toList_append, hbreak, List.append_assoc]
    rfl
  obtain ⟨hrest, htokens⟩ := tokenize_eq_ok.mp h
  rw [htext] at hrest htokens
  obtain ⟨hfront, hfound, hback⟩ := lexemes_append hb .start front.toList hrest
  rw [lexemes_layout hcs, hplace] at hfound hback
  rw [hfound] at htokens
  obtain ⟨fronts, backs, rfl, hfronts, hbacks⟩ := exists_of_forall₂_append htokens.flip
  -- behind the break there are the lexemes of the text alone, only further down
  obtain ⟨htexts, hnone⟩ :=
    lexemes_here .start (Position.start.advance (front ++ e).toList) back.toList
  obtain ⟨us, hus, hkinds⟩ := tokens_of_texts htexts hbacks.flip
  refine ⟨fronts, backs, us, rfl, tokenize_eq_ok.mpr ⟨hfront, hfronts.flip⟩,
    tokenize_eq_ok.mpr ⟨hnone.trans hback, hus⟩, hkinds, fun t ht => ?_⟩
  obtain ⟨l, hl, htoken⟩ := exists_of_mem_right hbacks.flip ht
  rw [token_range htoken]
  exact (line_of_mem_lexemes _ _ hl).1

end

/-! ### Forms -/

/-- A forest behind some finished forms, the last one of which is the first of `base`. -/
def Forest.behind (base : List Form) (forest : Forest) : Forest :=
  { forest with finished := forest.finished ++ base }

/-- What is finished has no part in what follows. -/
theorem Forest.step_behind (base : List Form) (forest : Forest) (t : Token) :
    (forest.behind base).step t = (forest.step t).map (Forest.behind base) := by
  obtain ⟨finished, pending⟩ := forest
  unfold Forest.step Forest.behind
  cases t.kind with
  | openParen | endOfInput => rfl
  | closeParen =>
    -- the list is added to the one around it, or to what is finished
    match pending with
    | [] | [_] | _ :: _ :: _ => rfl
  | int | float | symbol =>
    cases pending with
    | nil | cons => rfl

theorem foldlM_behind (base : List Form) (forest : Forest) (ts : List Token) :
    ts.foldlM Forest.step (forest.behind base) =
      (ts.foldlM Forest.step forest).map (Forest.behind base) := by
  induction ts generalizing forest with
  | nil => rfl
  | cons t ts ih =>
    rw [List.foldlM_cons, List.foldlM_cons, Forest.step_behind]
    cases forest.step t with
    | error e => rfl
    | ok next => exact ih next

section

variable {source front back e : String} {ts us : List Token} {fs : List Form}

theorem build_eq_foldlM {forest : Forest} (h : ts.foldlM Forest.step .empty = .ok forest) :
    build ts = forest.close := by
  unfold build
  rw [h]
  rfl

/-- Forms that are closed are followed by those of the tokens behind them. -/
theorem build_append (h : build ts = .ok fs) : build (ts ++ us) = (build us).map (fs ++ ·) := by
  cases hfold : ts.foldlM Forest.step .empty with
  | error e =>
    unfold build at h
    rw [hfold] at h
    cases h
  | ok forest =>
    rw [build_eq_foldlM hfold] at h
    obtain ⟨finished, pending⟩ := forest
    cases pending with
    | cons l ls => cases h
    | nil =>
      -- no list is open, so the rest is built as it is from the empty forest
      obtain rfl := Except.ok.inj h
      unfold build
      rw [foldlM_append hfold]
      have hbase : (⟨finished, []⟩ : Forest) = Forest.empty.behind finished := rfl
      rw [hbase, foldlM_behind]
      cases us.foldlM Forest.step .empty with
      | error e => rfl
      | ok forest =>
        obtain ⟨finished', pending⟩ := forest
        cases pending with
        | nil => exact congrArg Except.ok List.reverse_append
        | cons => rfl

theorem read_empty : read "" = .ok [] := by
  refine read_eq_ok.mpr ⟨[], tokenize_eq_ok.mpr ?_, rfl⟩
  rw [String.toList_empty, lexemes]
  exact ⟨rfl, .nil⟩

/-- Tokens that go on to make forms make some themselves, or they stop in a list that nothing behind
them which makes forms alone would close. -/
theorem build_front (h : build (ts ++ us) = .ok fs) :
    (∃ gs hs, build ts = .ok gs ∧ build us = .ok hs ∧ fs = gs ++ hs) ∨
      (∃ t, build ts = .error (.unclosed t)) ∧ ∀ hs, tokensAll hs ≠ us := by
  cases hfold : ts.foldlM Forest.step .empty with
  | error e =>
    unfold build at h
    rw [List.foldlM_append, hfold] at h
    cases h
  | ok forest =>
    have hts := build_eq_foldlM hfold
    obtain ⟨finished, pending⟩ := forest
    cases pending with
    | nil =>
      rw [build_append hts] at h
      cases hus : build us with
      | error e =>
        rw [hus] at h
        cases h
      | ok hs =>
        rw [hus] at h
        exact .inl ⟨_, hs, hts, rfl, (Except.ok.inj h).symm⟩
    | cons l ls =>
      refine .inr ⟨⟨_, hts⟩, ?_⟩
      rintro hs rfl
      -- the forms go to the list that is open, which stays so
      obtain ⟨gs, -, hgs⟩ := foldlM_forms hs _ ⟨finished, l :: ls⟩ rfl
      unfold build at h
      rw [foldlM_append hfold, hgs, addAll_nested] at h
      cases h

/-- A text that can be read is cut at the end of a line into two texts that can be read, or in the
middle of a form. -/
theorem read_cut (he : IsBreak e) (h : read (front ++ e ++ back) = .ok fs) :
    (∃ gs hs, read front = .ok gs ∧ read back = .ok hs ∧ bareAll (gs ++ hs) = bareAll fs) ∨
      (∃ t, read front = .error (.grammatical (.unclosed t))) ∧ ∀ hs, read back ≠ .ok hs := by
  obtain ⟨fronts, backs, us, hsplit, hfront, hback, hkinds, -⟩ :=
    tokenize_cut he (tokenize_of_read h)
  have hall : (fronts ++ us).map Token.kind = (tokensAll fs).map Token.kind := by
    rw [hsplit, List.map_append, List.map_append, hkinds]
  -- the tokens of both texts make the forms of the whole, but for their ranges
  obtain ⟨all, hbare, hbuild⟩ := build_of_kinds hall
  rcases build_front hbuild with ⟨gs, hs, hgs, hhs, rfl⟩ | ⟨⟨t, ht⟩, hno⟩
  · exact .inl ⟨gs, hs, read_eq_ok.mpr ⟨_, hfront, hgs⟩, read_eq_ok.mpr ⟨_, hback, hhs⟩, hbare⟩
  · refine .inr ⟨⟨t, ?_⟩, fun hs hread => ?_⟩
    · unfold read
      rw [hfront]
      dsimp only
      rw [ht]
    · have htokens := tokenize_of_read hread
      exact hno hs (Except.ok.inj (htokens.symm.trans hback))

/-- Where the tokens of forms are cut, the forms are cut, or one of them is. -/
theorem tokensAll_eq_append (h : tokensAll fs = ts ++ us) :
    (∃ gs, tokensAll gs = ts) ∨
      ∃ f ∈ fs, ∃ x y, x ≠ [] ∧ y ≠ [] ∧ f.tokens = x ++ y ∧ x ⊆ ts ∧ y ⊆ us := by
  induction fs generalizing ts with
  | nil =>
    obtain ⟨rfl, -⟩ := List.append_eq_nil_iff.mp h.symm
    exact .inl ⟨[], rfl⟩
  | cons f fs ih =>
    rw [tokensAll_cons] at h
    rcases List.append_eq_append_iff.mp h with ⟨ts', rfl, hrest⟩ | ⟨y, hf, rfl⟩
    · rcases ih hrest with ⟨gs, rfl⟩ | ⟨g, hg, x, y, hx, hy, hsplit, hxs, hys⟩
      · exact .inl ⟨f :: gs, rfl⟩
      · refine .inr ⟨g, List.mem_cons_of_mem f hg, x, y, hx, hy, hsplit, ?_, hys⟩
        exact fun t ht => List.mem_append_right _ (hxs ht)
    · by_cases hts : ts = []
      · exact .inl ⟨[], hts.symm⟩
      · by_cases hy : y = []
        · subst hy
          exact .inl
            ⟨[f], by rw [tokensAll_cons, tokensAll_nil, hf, List.append_nil, List.append_nil]⟩
        · exact .inr ⟨f, List.mem_cons_self, ts, y, hts, hy, hf, fun _ ht => ht,
            fun _ ht => List.mem_append_left _ ht⟩

/-- If the text in front cannot be read alone, then a form goes on from there to the text behind. -/
theorem exists_open_form (he : IsBreak e) (h : read (front ++ e ++ back) = .ok fs)
    (ho : ∀ gs, read front ≠ .ok gs) :
    ∃ f ∈ fs, f.range.start.line ≤ (Position.start.advance front.toList).line ∧
      (Position.start.advance (front ++ e).toList).line ≤ f.range.stop.line := by
  obtain ⟨fronts, backs, -, hsplit, hfront, -, -, hlines⟩ := tokenize_cut he (tokenize_of_read h)
  rcases tokensAll_eq_append hsplit with ⟨gs, hgs⟩ | ⟨f, hf, x, y, hx, hy, htokens, hxs, hys⟩
  · -- if no form is cut, the text in front has the tokens of some forms
    exfalso
    obtain ⟨gs', -, hbuild⟩ := build_of_kinds (congrArg (List.map Token.kind) hgs.symm)
    exact ho gs' (read_eq_ok.mpr ⟨_, hfront, hbuild⟩)
  · obtain ⟨t, hhead, hstart⟩ := f.head_tokens
    obtain ⟨u, hlast, hstop⟩ := f.getLast_tokens
    rw [htokens, List.head?_append_of_ne_nil _ hx] at hhead
    rw [htokens, List.getLast?_append_of_ne_nil _ hy] at hlast
    refine ⟨f, hf, ?_, ?_⟩
    · rw [← hstart]
      exact line_of_mem_tokenize hfront t (hxs (List.mem_of_head? hhead))
    · rw [← hstop]
      exact hlines u (hys (List.mem_of_getLast? hlast))

end

end ForkLisp.Reader
