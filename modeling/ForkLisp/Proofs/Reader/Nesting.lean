/-
Forms and their tokens.

`Form.tokens` writes a form as the tokens that it is read from. Tokens with the kinds of a forest
make a forest of the same shape, whatever their ranges are (`build_of_kinds`). A forest that is made
of tokens has just these (`tokensAll_of_build`).
-/
import ForkLisp.Reader.Parse

namespace ForkLisp.Reader

open ForkLisp.Numeric ForkLisp.Source

/-! ### Forms as tokens -/

/-- The parenthesis that opens a list. -/
def openingOf (r : Range) : Token := ⟨.onLine r.start 1, .openParen⟩

/-- The parenthesis that closes a list. -/
def closingOf (r : Range) : Token := ⟨⟨⟨r.stop.line, r.stop.column - 1⟩, r.stop⟩, .closeParen⟩

mutual

/-- The tokens of a form, with their ranges. -/
def Form.tokens : Form → List Token
  | .int r v => [⟨r, .int v⟩]
  | .float r x => [⟨r, .float x⟩]
  | .symbol r name => [⟨r, .symbol name⟩]
  | .list r items => openingOf r :: (tokensAll items ++ [closingOf r])

/-- The tokens of some forms, one after the other. -/
def tokensAll : List Form → List Token
  | [] => []
  | f :: fs => f.tokens ++ tokensAll fs

end

mutual

/-- A form without its ranges. -/
def Form.bare : Form → Form
  | .int _ v => .int .front v
  | .float _ x => .float .front x
  | .symbol _ name => .symbol .front name
  | .list _ items => .list .front (bareAll items)

/-- Forms without their ranges. -/
def bareAll : List Form → List Form
  | [] => []
  | f :: fs => f.bare :: bareAll fs

end

@[simp] theorem tokensAll_nil : tokensAll [] = [] := rfl

@[simp] theorem tokensAll_cons (f : Form) (fs : List Form) :
    tokensAll (f :: fs) = f.tokens ++ tokensAll fs := rfl

@[simp] theorem tokensAll_append (fs gs : List Form) :
    tokensAll (fs ++ gs) = tokensAll fs ++ tokensAll gs := by
  induction fs with
  | nil => rfl
  | cons f fs ih => rw [List.cons_append, tokensAll_cons, tokensAll_cons, ih, List.append_assoc]

@[simp] theorem bareAll_append (fs gs : List Form) :
    bareAll (fs ++ gs) = bareAll fs ++ bareAll gs := by
  induction fs with
  | nil => rfl
  | cons f fs ih => rw [List.cons_append, bareAll, bareAll, ih, List.cons_append]

theorem length_bareAll (fs : List Form) : (bareAll fs).length = fs.length := by
  induction fs with
  | nil => rfl
  | cons f fs ih => rw [bareAll, List.length_cons, List.length_cons, ih]

theorem isEmpty_bareAll (fs : List Form) : (bareAll fs).isEmpty = fs.isEmpty := by
  cases fs with
  | nil | cons => rfl

@[simp] theorem symbol?_bare (f : Form) : f.bare.symbol? = f.symbol? := by
  cases f with
  | int | float | symbol | list => rfl

/-! ### Building from kinds -/

/-- Adds some forms, one after the other. -/
def Forest.addAll (forest : Forest) (fs : List Form) : Forest :=
  fs.foldl (fun F f => F.add f) forest

theorem addAll_nested (finished : List Form) (l : OpenList) (ls : List OpenList) (fs : List Form) :
    Forest.addAll ⟨finished, l :: ls⟩ fs =
    ⟨finished, { l with items := fs.reverse ++ l.items } :: ls⟩ := by
  induction fs generalizing l with
  | nil => rfl
  | cons f fs ih =>
    refine (ih { l with items := f :: l.items }).trans ?_
    rw [List.reverse_cons, List.append_assoc]
    rfl

theorem addAll_flat (finished : List Form) (fs : List Form) :
    Forest.addAll ⟨finished, []⟩ fs = ⟨fs.reverse ++ finished, []⟩ := by
  induction fs generalizing finished with
  | nil => rfl
  | cons f fs ih =>
    refine (ih (f :: finished)).trans ?_
    rw [List.reverse_cons, List.append_assoc]
    rfl

theorem foldlM_append {ts us : List Token} {forest forest' : Forest}
    (h : ts.foldlM Forest.step forest = .ok forest') :
    (ts ++ us).foldlM Forest.step forest = us.foldlM Forest.step forest' := by
  rw [List.foldlM_append, h]
  rfl

theorem foldlM_singleton (t : Token) (forest : Forest) :
    [t].foldlM Forest.step forest = forest.step t := by
  rw [List.foldlM_cons]
  cases forest.step t <;> rfl

mutual

/-- Tokens with the kinds of a form make one of the same shape. -/
theorem foldlM_form : ∀ (f : Form) (ts : List Token) (forest : Forest),
    ts.map Token.kind = f.tokens.map Token.kind →
      ∃ g, g.bare = f.bare ∧ ts.foldlM Forest.step forest = .ok (forest.add g)
  | .int _ v, ts, forest, h => by
    obtain ⟨t, rfl, ht⟩ := List.map_eq_singleton_iff.mp h
    refine ⟨.int t.range v, rfl, ?_⟩
    rw [foldlM_singleton, Forest.step, ht]
  | .float _ x, ts, forest, h => by
    obtain ⟨t, rfl, ht⟩ := List.map_eq_singleton_iff.mp h
    refine ⟨.float t.range x, rfl, ?_⟩
    rw [foldlM_singleton, Forest.step, ht]
  | .symbol _ name, ts, forest, h => by
    obtain ⟨t, rfl, ht⟩ := List.map_eq_singleton_iff.mp h
    refine ⟨.symbol t.range name, rfl, ?_⟩
    rw [foldlM_singleton, Forest.step, ht]
  | .list r items, ts, forest, h => by
    rw [Form.tokens, List.map_cons, List.map_append, List.map_singleton] at h
    obtain ⟨opening, rest, rfl, hopen, h⟩ := List.map_eq_cons_iff.mp h
    obtain ⟨inner, last, rfl, hinner, hlast⟩ := List.map_eq_append_iff.mp h
    obtain ⟨closing, rfl, hclose⟩ := List.map_eq_singleton_iff.mp hlast
    obtain ⟨gs, hgs, hfold⟩ :=
      foldlM_forms items inner { forest with pending := ⟨opening, []⟩ :: forest.pending } hinner
    refine ⟨.list (opening.range.merge closing.range) gs, congrArg (Form.list .front) hgs, ?_⟩
    rw [List.foldlM_cons, Forest.step, hopen]
    show (inner ++ [closing]).foldlM Forest.step _ = _
    rw [foldlM_append hfold, foldlM_singleton, addAll_nested, Forest.step, hclose]
    simp [closingOf]

/-- Tokens with the kinds of some forms make forms of the same shape. -/
theorem foldlM_forms : ∀ (fs : List Form) (ts : List Token) (forest : Forest),
    ts.map Token.kind = (tokensAll fs).map Token.kind →
      ∃ gs, bareAll gs = bareAll fs ∧ ts.foldlM Forest.step forest = .ok (forest.addAll gs)
  | [], ts, forest, h => by
    obtain rfl := List.map_eq_nil_iff.mp h
    exact ⟨[], rfl, rfl⟩
  | f :: fs, ts, forest, h => by
    rw [tokensAll_cons, List.map_append] at h
    obtain ⟨front, rest, rfl, hfront, hrest⟩ := List.map_eq_append_iff.mp h
    obtain ⟨g, hg, hfold⟩ := foldlM_form f front forest hfront
    obtain ⟨gs, hgs, hfolds⟩ := foldlM_forms fs rest (forest.add g) hrest
    refine ⟨g :: gs, by rw [bareAll, bareAll, hg, hgs], ?_⟩
    rw [foldlM_append hfold, hfolds]
    rfl

end

/-- Tokens with the kinds of a forest make one of the same shape. -/
theorem build_of_kinds {fs : List Form} {ts : List Token}
    (h : ts.map Token.kind = (tokensAll fs).map Token.kind) :
    ∃ gs, bareAll gs = bareAll fs ∧ build ts = .ok gs := by
  obtain ⟨gs, hgs, hfold⟩ := foldlM_forms fs ts .empty h
  refine ⟨gs, hgs, ?_⟩
  unfold build
  rw [hfold, Forest.empty, addAll_flat, List.append_nil]
  show Except.ok gs.reverse.reverse = _
  rw [List.reverse_reverse]

/-! ### Forms from their tokens -/

mutual

theorem kinds_bare : ∀ f : Form, f.bare.tokens.map Token.kind = f.tokens.map Token.kind
  | .int _ _ | .float _ _ | .symbol _ _ => rfl
  | .list r items => by
    rw [Form.bare, Form.tokens, Form.tokens, List.map_cons, List.map_cons, List.map_append,
      List.map_append, kinds_bareAll items]
    rfl

theorem kinds_bareAll : ∀ fs : List Form,
    (tokensAll (bareAll fs)).map Token.kind = (tokensAll fs).map Token.kind
  | [] => rfl
  | f :: fs => by
    rw [bareAll, tokensAll_cons, tokensAll_cons, List.map_append, List.map_append, kinds_bare f,
      kinds_bareAll fs]

end

mutual

/-- A form is determined by its shape and its tokens. -/
theorem eq_of_tokens : ∀ {f g : Form}, g.bare = f.bare → g.tokens = f.tokens → g = f
  | .int _ _, .int _ _, _, ht => by
    obtain ⟨rfl, hv⟩ := Token.mk.inj (List.singleton_inj.mp ht)
    rw [TokenKind.int.inj hv]
  | .float _ _, .float _ _, _, ht => by
    obtain ⟨rfl, hx⟩ := Token.mk.inj (List.singleton_inj.mp ht)
    rw [TokenKind.float.inj hx]
  | .symbol _ _, .symbol _ _, _, ht => by
    obtain ⟨rfl, hn⟩ := Token.mk.inj (List.singleton_inj.mp ht)
    rw [TokenKind.symbol.inj hn]
  | .list r fs, .list r' gs, hb, ht => by
    obtain ⟨hopen, hrest⟩ := List.cons.inj ht
    obtain ⟨hitems, hclose⟩ := List.append_inj' hrest rfl
    have hstart : r'.start = r.start := congrArg (fun t : Token => t.range.start) hopen
    have hstop : r'.stop = r.stop :=
      congrArg (fun t : Token => t.range.stop) (List.singleton_inj.mp hclose)
    have hranges : r' = r := by
      obtain ⟨start, stop⟩ := r
      obtain ⟨start', stop'⟩ := r'
      obtain rfl : start' = start := hstart
      obtain rfl : stop' = stop := hstop
      rfl
    rw [hranges, eq_of_tokensAll (Form.list.inj hb).2 hitems]
  | .int _ _, .float _ _, hb, _ | .int _ _, .symbol _ _, hb, _ | .int _ _, .list _ _, hb, _
  | .float _ _, .int _ _, hb, _ | .float _ _, .symbol _ _, hb, _ | .float _ _, .list _ _, hb, _
  | .symbol _ _, .int _ _, hb, _ | .symbol _ _, .float _ _, hb, _ | .symbol _ _, .list _ _, hb, _
  | .list _ _, .int _ _, hb, _ | .list _ _, .float _ _, hb, _ | .list _ _, .symbol _ _, hb, _ => by
    cases hb

/-- So are several forms. -/
theorem eq_of_tokensAll : ∀ {fs gs : List Form}, bareAll gs = bareAll fs →
    tokensAll gs = tokensAll fs → gs = fs
  | [], [], _, _ => rfl
  | f :: fs, g :: gs, hb, ht => by
    obtain ⟨hhead, htail⟩ := List.cons.inj hb
    have hkinds := congrArg (fun h : Form => (h.tokens.map Token.kind).length) hhead
    simp only [kinds_bare, List.length_map] at hkinds
    obtain ⟨hf, hfs⟩ := List.append_inj ht hkinds
    rw [eq_of_tokens hhead hf, eq_of_tokensAll htail hfs]
  | [], _ :: _, hb, _ | _ :: _, [], hb, _ => by cases hb

end

/-! ### What forms were built from -/

/-- Tokens are where those of a text are: one after the other, and parentheses are one
character wide. -/
structure Arranged (ts : List Token) : Prop where
  kinds : ∀ t ∈ ts, t.kind ≠ .endOfInput
  parens : ∀ t ∈ ts, t.kind = .openParen ∨ t.kind = .closeParen → t.range = .onLine t.range.start 1
  ordered : ts.Pairwise fun a b =>
    b.range.start.compare a.range.start ≠ .lt ∧ b.range.stop.compare a.range.stop ≠ .lt

theorem Arranged.left {ts us : List Token} (h : Arranged (ts ++ us)) : Arranged ts where
  kinds t ht := h.kinds t (List.mem_append_left _ ht)
  parens t ht := h.parens t (List.mem_append_left _ ht)
  ordered := (List.pairwise_append.mp h.ordered).1

/-- The tokens of lists that are still open, the inner ones first. -/
def pendingTokens : List OpenList → List Token
  | [] => []
  | l :: ls => pendingTokens ls ++ l.opening :: tokensAll l.items.reverse

/-- The tokens of a forest: those of the finished forms, and those of the open lists. -/
def Forest.tokens (forest : Forest) : List Token :=
  tokensAll forest.finished.reverse ++ pendingTokens forest.pending

/-- A forest has the tokens that it was built from, and every open list has been opened. -/
structure Forest.From (forest : Forest) (ts : List Token) : Prop where
  tokens : forest.tokens = ts
  opened : ∀ l ∈ forest.pending, l.opening.kind = .openParen

theorem Forest.From.empty : Forest.empty.From [] := ⟨rfl, fun _ hl => absurd hl List.not_mem_nil⟩

theorem Forest.From.add {forest : Forest} {ts : List Token} (h : forest.From ts) (f : Form) :
    (forest.add f).From (ts ++ f.tokens) := by
  obtain ⟨finished, pending⟩ := forest
  have htokens : tokensAll finished.reverse ++ pendingTokens pending = ts := h.tokens
  subst htokens
  cases pending with
  | nil =>
    refine ⟨?_, fun _ hl => absurd hl List.not_mem_nil⟩
    show tokensAll (f :: finished).reverse ++ [] = _
    simp [pendingTokens]
  | cons l ls =>
    refine ⟨?_, fun m hm => ?_⟩
    · show tokensAll finished.reverse ++ (pendingTokens ls ++ l.opening :: tokensAll
        (f :: l.items).reverse) = _
      simp [pendingTokens]
    · rcases List.mem_cons.mp hm with rfl | hm
      · exact h.opened l List.mem_cons_self
      · exact h.opened m (List.mem_cons_of_mem _ hm)

/-- The range of a list covers its parentheses. -/
theorem merge_eq {a b : Range} (hstart : b.start.compare a.start ≠ .lt)
    (hstop : b.stop.compare a.stop ≠ .lt) : a.merge b = ⟨a.start, b.stop⟩ := by
  unfold Range.merge Position.min Position.max
  rw [if_neg hstart, if_neg hstop]

/-- The tokens of a list are its parentheses and what is between them. -/
theorem tokens_list {opening : Token} {range : Range} {items : List Form}
    (hkind : opening.kind = .openParen) (hopening : opening.range = .onLine opening.range.start 1)
    (hrange : range = .onLine range.start 1)
    (hordered : range.start.compare opening.range.start ≠ .lt ∧
      range.stop.compare opening.range.stop ≠ .lt) :
    (Form.list (opening.range.merge range) items).tokens =
      opening :: (tokensAll items ++ [⟨range, .closeParen⟩]) := by
  have hclosing : (⟨⟨range.stop.line, range.stop.column - 1⟩, range.stop⟩ : Range) = range := by
    rw [hrange]
    rfl
  obtain ⟨r, kind⟩ := opening
  obtain rfl : kind = .openParen := hkind
  have hopening : Range.onLine r.start 1 = r := hopening.symm
  rw [Form.tokens, merge_eq hordered.1 hordered.2, openingOf, closingOf, hopening, hclosing]

/-- A list is opened. -/
theorem Forest.From.push {forest : Forest} {ts : List Token} {t : Token} (h : forest.From ts)
    (hkind : t.kind = .openParen) :
    Forest.From { forest with pending := ⟨t, []⟩ :: forest.pending } (ts ++ [t]) where
  tokens := by
    rw [← h.tokens]
    simp [Forest.tokens, pendingTokens]
  opened m hm := by
    rcases List.mem_cons.mp hm with rfl | hm
    · exact hkind
    · exact h.opened m hm

/-- The innermost list is closed, and added to what is around it. -/
theorem Forest.From.pop {finished : List Form} {l : OpenList} {ls : List OpenList} {ts : List Token}
    {range : Range} (h : Forest.From ⟨finished, l :: ls⟩ ts)
    (ha : Arranged (ts ++ [⟨range, .closeParen⟩])) :
    (Forest.add (.list (l.opening.range.merge range) l.items.reverse) ⟨finished, ls⟩).From
      (ts ++ [⟨range, .closeParen⟩]) := by
  have hkind := h.opened l List.mem_cons_self
  have houter : Forest.From ⟨finished, ls⟩ (tokensAll finished.reverse ++ pendingTokens ls) :=
    ⟨rfl, fun m hm => h.opened m (List.mem_cons_of_mem _ hm)⟩
  have hts : ts = (tokensAll finished.reverse ++ pendingTokens ls) ++
      l.opening :: tokensAll l.items.reverse := by
    rw [← h.tokens, List.append_assoc]
    rfl
  have hopening : l.opening ∈ ts := by
    rw [hts]
    exact List.mem_append_right _ List.mem_cons_self
  have hlist : (Form.list (l.opening.range.merge range) l.items.reverse).tokens = _ :=
    tokens_list hkind (ha.parens _ (List.mem_append_left _ hopening) (.inl hkind))
      (ha.parens _ (List.mem_append_right _ List.mem_cons_self) (.inr rfl))
      ((List.pairwise_append.mp ha.ordered).2.2 _ hopening _ List.mem_cons_self)
  have hadd := houter.add (.list (l.opening.range.merge range) l.items.reverse)
  rwa [hlist, ← List.cons_append, ← List.append_assoc, ← hts] at hadd

theorem Forest.From.step {forest forest' : Forest} {ts : List Token} {t : Token}
    (h : forest.From ts) (ha : Arranged (ts ++ [t])) (hstep : forest.step t = .ok forest') :
    forest'.From (ts ++ [t]) := by
  obtain ⟨range, kind⟩ := t
  unfold Forest.step at hstep
  dsimp only at hstep
  cases kind with
  | openParen =>
    obtain rfl := Except.ok.inj hstep
    exact h.push rfl
  | closeParen =>
    obtain ⟨finished, pending⟩ := forest
    cases pending with
    | nil => cases hstep
    | cons l ls =>
      obtain rfl := Except.ok.inj hstep
      exact h.pop ha
  | int v =>
    obtain rfl := Except.ok.inj hstep
    exact h.add (.int range v)
  | float x =>
    obtain rfl := Except.ok.inj hstep
    exact h.add (.float range x)
  | symbol name =>
    obtain rfl := Except.ok.inj hstep
    exact h.add (.symbol range name)
  | endOfInput => cases hstep

/-- Whatever has been built has the tokens that it was built from. -/
theorem foldlM_from {us : List Token} {forest forest' : Forest} {ts : List Token}
    (h : forest.From ts) (ha : Arranged (ts ++ us))
    (hfold : us.foldlM Forest.step forest = .ok forest') :
    forest'.From (ts ++ us) := by
  induction us generalizing forest ts with
  | nil =>
    obtain rfl := Except.ok.inj hfold
    rwa [List.append_nil]
  | cons u us ih =>
    rw [List.foldlM_cons] at hfold
    cases hstep : forest.step u with
    | error e =>
      rw [hstep] at hfold
      cases hfold
    | ok next =>
      rw [hstep] at hfold
      rw [← List.singleton_append, ← List.append_assoc] at ha ⊢
      exact ih (h.step ha.left hstep) ha hfold

/-- Tokens make a forest only if they are its tokens. -/
theorem tokensAll_of_build {ts : List Token} {fs : List Form} (ha : Arranged ts)
    (h : build ts = .ok fs) : tokensAll fs = ts := by
  unfold build at h
  cases hfold : ts.foldlM Forest.step .empty with
  | error e =>
    rw [hfold] at h
    cases h
  | ok forest =>
    rw [hfold] at h
    have hfrom := foldlM_from .empty ha hfold
    have h : forest.close = .ok fs := h
    obtain ⟨finished, pending⟩ := forest
    cases pending with
    | cons l ls => cases h
    | nil =>
      obtain rfl := Except.ok.inj h
      exact (List.append_nil _).symm.trans hfrom.tokens

/-- Tokens make the one forest whose tokens they are. -/
theorem build_eq_ok {ts : List Token} {fs : List Form} (ha : Arranged ts) :
    build ts = .ok fs ↔ tokensAll fs = ts := by
  refine ⟨tokensAll_of_build ha, ?_⟩
  rintro rfl
  obtain ⟨gs, hbare, hbuild⟩ : ∃ gs, bareAll gs = bareAll fs ∧ build (tokensAll fs) = .ok gs :=
    build_of_kinds rfl
  rw [hbuild, eq_of_tokensAll hbare (tokensAll_of_build ha hbuild)]

end ForkLisp.Reader
