/-
Where diagnostics point.

What a text is read as has its extents in the text, and the bytes of each range are just the text
that the part was read from. So the bytes that a diagnostic points at are those of the token or the
form that its cause is about; only what starts no token is pointed at up to the end of the text
(`locations_exact`).
-/
import ForkLisp.Proofs.Compile.Blame
import ForkLisp.Proofs.Session.Optimizing

namespace ForkLisp.Session

open ForkLisp.Compile ForkLisp.Machine ForkLisp.Reader ForkLisp.Source

/-! ### Forms that fail -/

/-- A form fails in the state `s'` that those before it leave. -/
inductive Fails : State → List Form → State → Form → Cause → Prop where
  | here {s : State} {f : Form} {fs : List Form} {cause : Cause}
      (h : (s.evaluateForm f).outcome = .error cause) : Fails s (f :: fs) s f cause
  | later {s s' : State} {f g : Form} {fs : List Form} {cause : Cause} {v : Value}
      (h : (s.evaluateForm f).outcome = .ok v) (hs : Fails (s.evaluateForm f).state fs s' g cause) :
      Fails s (f :: fs) s' g cause

section

variable {s s' : State} {f : Form} {fs : List Form} {cause : Cause}

theorem Fails.mem (h : Fails s fs s' f cause) : f ∈ fs := by
  induction h with
  | here => exact List.mem_cons_self
  | later _ _ ih => exact List.mem_cons_of_mem _ ih

/-- A form fails because it does not compile, or because running it comes to a fault. -/
theorem evaluateForm_error (h : (s.evaluateForm f).outcome = .error cause) :
    (∃ e g, cause = .compile e ∧ Offends s.context f e g) ∨ ∃ fault, cause = .fault fault := by
  unfold State.evaluateForm at h
  dsimp only at h
  split at h
  · rename_i e he
    obtain ⟨g, hg⟩ := compile_offends he
    exact .inl ⟨e, g, (Except.error.inj h).symm, hg⟩
  · cases h
  · rename_i code _
    replace h : resultOf _ = .error cause := h
    unfold resultOf at h
    split at h
    · exact .inr ⟨_, (Except.error.inj h).symm⟩
    · split at h
      · cases h
      · exact .inr ⟨_, (Except.error.inj h).symm⟩

theorem Fails.compile_or_fault (h : Fails s fs s' f cause) :
    (∃ e g, cause = .compile e ∧ Offends s'.context f e g) ∨ ∃ fault, cause = .fault fault := by
  induction h with
  | here h => exact evaluateForm_error h
  | later _ _ ih => exact ih

/-- If forms are not evaluated to the end, one of them fails. -/
theorem exists_fails {range : Range} (h : (s.evaluateForms fs).outcome = .error (cause, range)) :
    ∃ s' f, Fails s fs s' f cause ∧ range = f.range := by
  induction fs generalizing s with
  | nil => cases h
  | cons f fs ih =>
    unfold State.evaluateForms at h
    dsimp only at h
    split at h
    · rename_i cause' he
      obtain ⟨rfl, rfl⟩ := Prod.mk.inj (Except.error.inj h)
      exact ⟨s, f, .here he, rfl⟩
    · rename_i v he
      replace h : ((s.evaluateForm f).state.evaluateForms fs).outcome.map (v :: ·) =
        .error (cause, range) := h
      cases hrest : ((s.evaluateForm f).state.evaluateForms fs).outcome with
      | ok vs =>
        rw [hrest] at h
        cases h
      | error e =>
        rw [hrest] at h
        obtain rfl := Except.error.inj h
        obtain ⟨s', g, hg, hrange⟩ := ih hrest
        exact ⟨s', g, .later he hg, hrange⟩

end

/-! ### What is to blame -/

/-- The characters of a text from `i` up to `j` are what a cause is about. -/
inductive Blamed (s : State) (source : String) : Cause → Nat → Nat → Prop where
  /-- The first blank that is no layout, with everything behind it. -/
  | strange {n : Nat} {t : Token} (hfirst : ∀ i, i < n → ¬ StrangeAt source.toList i)
      (h : StrangeAt source.toList n) :
      Blamed s source (.lexical (.unexpected t)) n source.toList.length
  /-- An integer that is too large. -/
  | tooLarge {i j : Nat} (h : TooLarge source.toList i j) :
      Blamed s source (.lexical (.outOfRange (refusedAt source.toList i j))) i j
  /-- The first parenthesis that closes nothing. -/
  | stray {ts : List Token} {spans : List (Nat × Nat)} {t : Token} {i j k : Nat}
      (hts : tokenize source = .ok ts) (hspans : TokensOf source.toList spans ts)
      (ht : ts[k]? = some t) (hspan : spans[k]? = some (i, j)) (h : Stray ts k)
      (hfirst : ∀ i, i < k → ¬ Stray ts i) : Blamed s source (.grammatical (.unexpected t)) i j
  /-- The last parenthesis that is not closed. -/
  | unclosed {ts : List Token} {spans : List (Nat × Nat)} {t : Token} {i j k : Nat}
      (hts : tokenize source = .ok ts) (hspans : TokensOf source.toList spans ts)
      (ht : ts[k]? = some t) (hspan : spans[k]? = some (i, j)) (h : Unclosed ts k)
      (hlast : ∀ i, k < i → ¬ Unclosed ts i) : Blamed s source (.grammatical (.unclosed t)) i j
  /-- The part that is to blame of a form that does not compile where those before it have run. -/
  | compile {fs : List Form} {s' : State} {f g : Form} {e : CompileError} {i j : Nat}
      (hread : read source = .ok fs) (hfails : Fails s fs s' f (.compile e))
      (hg : Offends s'.context f e g) (h : Extent source.toList g i j) :
      Blamed s source (.compile e) i j
  /-- A form that comes to a fault. -/
  | fault {fs : List Form} {s' : State} {f : Form} {fault : Fault} {i j : Nat}
      (hread : read source = .ok fs) (hfails : Fails s fs s' f (.fault fault))
      (h : Extent source.toList f i j) : Blamed s source (.fault fault) i j

/-- A diagnostic points at the characters from `i` up to `j`, which are what its cause is about. -/
structure Located (s : State) (source : String) (d : Diagnostic) (i j : Nat) : Prop where
  lt : i < j
  le_length : j ≤ source.toList.length
  span : d.span = spanAt source.toList i j
  blamed : Blamed s source d.cause i j

section

variable {s s' : State} {source : String} {i j : Nat}

/-- What has a place in the text is pointed at. -/
theorem located_of_range {cause : Cause} {form : Option Range} (hij : i < j)
    (hj : j ≤ source.toList.length)
    (hrange : cause.range? form = some ⟨place source.toList i, place source.toList j⟩)
    (h : Blamed s source cause i j) : Located s source (.locate source cause form) i j := by
  refine ⟨hij, hj, ?_, h⟩
  unfold Diagnostic.locate
  rw [hrange]
  exact spanOf_place hij hj

theorem located_of_lexicalError {e : LexicalError} {form : Option Range}
    (h : tokenize source = .error e) :
    ∃ i j, Located s source (.locate source (.lexical e) form) i j := by
  have htokenized := tokenize_tokenized source
  rw [h] at htokenized
  cases htokenized with
  | @strange n hfirst hs =>
    exact ⟨n, _, hs.lt, Nat.le_refl _, spanOf_rest hs.lt, .strange hfirst hs⟩
  | tooLarge _ hl =>
    have hp := IsPiece.atom hl.1
    exact ⟨_, _, located_of_range hp.lt hp.le_length rfl (.tooLarge hl)⟩

/-- A token has a place in the text. -/
theorem TokensOf.exists_span {cs : List Char} {spans : List (Nat × Nat)} {ts : List Token}
    {t : Token} {k : Nat} (h : TokensOf cs spans ts) (ht : ts[k]? = some t) :
    ∃ i j, spans[k]? = some (i, j) ∧ IsPiece cs i j ∧ t.range = ⟨place cs i, place cs j⟩ := by
  obtain ⟨⟨i, j⟩, hspan, hcovers⟩ := getElem?_of_forall₂ h.covers.flip ht
  exact ⟨i, j, hspan, (h.pieces i j).mp (List.mem_of_getElem? hspan), hcovers.range⟩

theorem located_of_syntaxError {ts : List Token} {e : SyntaxError} {form : Option Range}
    (hts : tokenize source = .ok ts) (h : build ts = .error e) :
    ∃ i j, Located s source (.locate source (.grammatical e) form) i j := by
  obtain ⟨spans, htokens⟩ := tokenize_ok hts
  have hbuilt := build_built htokens.arranged
  rw [h] at hbuilt
  cases hbuilt with
  | stray _ ht hstray hfirst =>
    obtain ⟨i, j, hspan, hp, hrange⟩ := TokensOf.exists_span htokens ht
    exact ⟨i, j, located_of_range hp.lt hp.le_length (congrArg some hrange)
      (.stray hts htokens ht hspan hstray hfirst)⟩
  | unclosed _ _ ht hunclosed hlast =>
    obtain ⟨i, j, hspan, hp, hrange⟩ := TokensOf.exists_span htokens ht
    exact ⟨i, j, located_of_range hp.lt hp.le_length (congrArg some hrange)
      (.unclosed hts htokens ht hspan hunclosed hlast)⟩

theorem located_of_readError {e : ReadError} (h : read source = .error e) :
    ∃ i j, Located s source (.locate source (.ofReadError e) none) i j := by
  unfold Reader.read at h
  split at h
  · rename_i e' hlexical
    obtain rfl := Except.error.inj h
    exact located_of_lexicalError hlexical
  · rename_i ts hts
    split at h
    · rename_i e' hsyntax
      obtain rfl := Except.error.inj h
      exact located_of_syntaxError hts hsyntax
    · cases h

/-- A form that fails is pointed at, or the part of it that is to blame. -/
theorem located_of_fails {fs : List Form} {f : Form} {cause : Cause} (hread : read source = .ok fs)
    (h : Fails s fs s' f cause) :
    ∃ i j, Located s source (.locate source cause (some f.range)) i j := by
  rcases h.compile_or_fault with ⟨e, g, rfl, hg⟩ | ⟨fault, rfl⟩
  · obtain ⟨i, j, hextent⟩ := exists_extent hread h.mem hg.subform
    refine ⟨i, j, located_of_range hextent.framed.lt hextent.framed.le_length ?_
      (.compile hread h hg hextent)⟩
    rw [← hextent.range, ← hg.range]
    rfl
  · obtain ⟨i, j, hextent⟩ := exists_extent hread h.mem (.refl f)
    exact ⟨i, j, located_of_range hextent.framed.lt hextent.framed.le_length
      (congrArg some hextent.range) (.fault hread h hextent)⟩

theorem located_of_evaluate {d : Diagnostic} (h : (s.evaluate source).outcome = .error d) :
    ∃ i j, Located s source d i j := by
  unfold State.evaluate at h
  split at h
  · rename_i e hread
    obtain rfl := Except.error.inj h
    exact located_of_readError hread
  · rename_i fs hread
    dsimp only at h
    replace h : (s.evaluateForms fs).outcome.mapError
        (fun p => Diagnostic.locate source p.1 (some p.2)) = .error d := h
    cases hout : (s.evaluateForms fs).outcome with
    | ok vs =>
      rw [hout] at h
      cases h
    | error e =>
      obtain ⟨cause, range⟩ := e
      rw [hout] at h
      obtain rfl := Except.error.inj h
      obtain ⟨s', f, hfails, rfl⟩ := exists_fails hout
      exact located_of_fails hread hfails

end

/-- Every part of what a text is read as has its extent in the text: the range goes from the first
character of its first token to the end of its last one, the offsets of its ends are the numbers of
bytes before them, and the text in between is read as the same form. Every diagnostic of an
evaluation points at bytes inside of the text, and these are what its cause is about: the token
that is refused, the form that does not compile, the form that failed, or all that follows where no
token starts. -/
theorem locations_exact (source : String) :
    (∀ fs, read source = .ok fs → ∀ f ∈ fs, ∀ g, Subform g f → ∃ i j, Extent source.toList g i j ∧
      offsetOf source g.range.start = bytes (source.toList.take i) ∧
      offsetOf source g.range.stop = bytes (source.toList.take j) ∧
      ∃ g', read (String.ofList (slice source.toList i j)) = .ok [g'] ∧ g'.bare = g.bare) ∧
    ∀ (s : State) (d : Diagnostic), (s.evaluate source).outcome = .error d →
      d.span.offset + d.span.length ≤ source.utf8ByteSize ∧ ∃ i j, Located s source d i j := by
  refine ⟨fun fs hread f hf g hg => ?_, fun s d h => ?_⟩
  · obtain ⟨i, j, hextent⟩ := exists_extent hread hf hg
    refine ⟨i, j, hextent, ?_, ?_, hextent.read ⟨_, tokenize_of_read hread⟩⟩
    · rw [hextent.range]
      exact offsetOf_place source i
    · rw [hextent.range]
      exact offsetOf_place source j
  · obtain ⟨i, j, hlocated⟩ := located_of_evaluate h
    refine ⟨?_, i, j, hlocated⟩
    rw [hlocated.span]
    exact spanAt_le (Nat.le_of_lt hlocated.lt)

/-- A comment, a carriage return and a letter of two bytes stand before the name that
is not defined. -/
theorem locations_exact_accented :
    let source := "; é\r\n(+ 1\r\n ü)"
    let g := Form.symbol ⟨⟨3, 2⟩, ⟨3, 3⟩⟩ "ü"
    let d : Diagnostic := ⟨.compile (.notDefined ⟨⟨3, 2⟩, ⟨3, 3⟩⟩ "ü"), ⟨13, 2⟩⟩
    (∃ i j, Extent source.toList g i j ∧ offsetOf source ⟨3, 2⟩ = bytes (source.toList.take i) ∧
      offsetOf source ⟨3, 3⟩ = bytes (source.toList.take j) ∧
      ∃ g', read (String.ofList (slice source.toList i j)) = .ok [g'] ∧ g'.bare = g.bare) ∧
    ((State.new single).evaluate source).outcome = .error d ∧ 13 + 2 ≤ source.utf8ByteSize ∧
      ∃ i j, Located (State.new single) source d i j := by
  have hread : read "; é\r\n(+ 1\r\n ü)" =
    .ok [.list ⟨⟨2, 1⟩, ⟨3, 4⟩⟩ [.symbol ⟨⟨2, 2⟩, ⟨2, 3⟩⟩ "+",
      .int ⟨⟨2, 4⟩, ⟨2, 5⟩⟩ 1, .symbol ⟨⟨3, 2⟩, ⟨3, 3⟩⟩ "ü"]] := by cbv
  have hout : ((State.new single).evaluate "; é\r\n(+ 1\r\n ü)").outcome =
      .error ⟨.compile (.notDefined ⟨⟨3, 2⟩, ⟨3, 3⟩⟩ "ü"), ⟨13, 2⟩⟩ := by cbv
  obtain ⟨hforms, hdiagnostics⟩ := locations_exact "; é\r\n(+ 1\r\n ü)"
  obtain ⟨hinside, hlocated⟩ := hdiagnostics _ _ hout
  exact ⟨hforms _ hread _ List.mem_cons_self _ (.item (by simp) (.refl _)), hout, hinside, hlocated⟩

/-- The second operand is pointed at, if it is the one that is no integer. -/
example : ((State.new single).evaluate "(- 1 t)").outcome =
    .error ⟨.compile (.notInteger ⟨⟨1, 6⟩, ⟨1, 7⟩⟩ "-"), ⟨5, 1⟩⟩ := by cbv

end ForkLisp.Session
