/-
Parentheses that match.

Tokens make forms if their parentheses balance. Otherwise the first closing parenthesis that closes
nothing is to blame, or, if there is none, the last opening one that is never closed
(`build_built`).
-/
import ForkLisp.Proofs.Reader.Nesting

namespace ForkLisp.Reader

/-! ### Balance -/

/-- How many parentheses open a list. -/
def opens (ts : List Token) : Nat := ts.countP (·.kind = .openParen)

/-- How many parentheses close a list. -/
def closes (ts : List Token) : Nat := ts.countP (·.kind = .closeParen)

/-- There are as many opening parentheses as closing ones, and nowhere have more been
closed than opened. -/
structure Balanced (ts : List Token) : Prop where
  le : ∀ k, closes (ts.take k) ≤ opens (ts.take k)
  eq : opens ts = closes ts

/-- A token of some kind is at `i`. -/
def KindAt (ts : List Token) (kind : TokenKind) (i : Nat) : Prop :=
  ∃ t, ts[i]? = some t ∧ t.kind = kind

/-- The parenthesis at `i` is closed by the one at `k`: what is between them is balanced. -/
structure Matches (ts : List Token) (i k : Nat) : Prop where
  opening : KindAt ts .openParen i
  closing : KindAt ts .closeParen k
  lt : i < k
  between : Balanced ((ts.take k).drop (i + 1))

/-- The parenthesis at `k` closes nothing. -/
def Stray (ts : List Token) (k : Nat) : Prop := KindAt ts .closeParen k ∧ ∀ i, ¬ Matches ts i k

/-- The parenthesis at `i` is never closed. -/
def Unclosed (ts : List Token) (i : Nat) : Prop := KindAt ts .openParen i ∧ ∀ k, ¬ Matches ts i k

section

variable {ts us : List Token} {t : Token} {i k : Nat}

@[simp] theorem opens_append : opens (ts ++ us) = opens ts + opens us := List.countP_append

@[simp] theorem closes_append : closes (ts ++ us) = closes ts + closes us := List.countP_append

@[simp] theorem opens_cons : opens (t :: ts) = opens ts + if t.kind = .openParen then 1 else 0 := by
  simp [opens, List.countP_cons]

@[simp] theorem closes_cons :
    closes (t :: ts) = closes ts + if t.kind = .closeParen then 1 else 0 := by
  simp [closes, List.countP_cons]

@[simp] theorem opens_nil : opens [] = 0 := rfl

@[simp] theorem closes_nil : closes [] = 0 := rfl

theorem Balanced.nil : Balanced [] := ⟨fun k => by rw [List.take_nil]; exact Nat.le_refl 0, rfl⟩

theorem Balanced.append (h : Balanced ts) (h' : Balanced us) : Balanced (ts ++ us) where
  le k := by
    rw [List.take_append, opens_append, closes_append]
    exact Nat.add_le_add (h.le k) (h'.le _)
  eq := by rw [opens_append, closes_append, h.eq, h'.eq]

theorem Balanced.atom (ho : t.kind ≠ .openParen) (hc : t.kind ≠ .closeParen) : Balanced [t] where
  le k := by
    cases k with
    | zero => exact Nat.le_refl 0
    | succ k => simp [ho, hc]
  eq := by simp [ho, hc]

theorem Balanced.list {opening closing : Token} (ho : opening.kind = .openParen)
    (hc : closing.kind = .closeParen) (h : Balanced ts) :
    Balanced (opening :: (ts ++ [closing])) where
  le k := by
    cases k with
    | zero => exact Nat.le_refl 0
    | succ k =>
      have hle := h.le k
      have hlast : closes ([closing].take (k - ts.length)) ≤ 1 :=
        Nat.le_trans List.countP_le_length (List.length_take_le' _ _)
      rw [List.take_succ_cons, List.take_append]
      simp only [opens_cons, closes_cons, opens_append, closes_append, ho]
      simp
      omega
  eq := by
    have heq := h.eq
    simp [ho, hc, heq]

/-- Tokens do not balance if what follows an opening parenthesis does. -/
theorem not_balanced_of (ho : t.kind = .openParen) (h : Balanced us) :
    ¬ Balanced (ts ++ t :: us) := by
  intro hall
  have hle := hall.le ts.length
  have heq := hall.eq
  have hus := h.eq
  rw [List.take_left] at hle
  simp only [opens_append, closes_append, opens_cons, closes_cons, ho] at heq
  simp at heq
  omega

/-- Nor do they if a closing parenthesis follows what does. -/
theorem not_balanced_append (hc : t.kind = .closeParen) (h : Balanced ts) :
    ¬ Balanced (ts ++ t :: us) := by
  intro hall
  have hle := hall.le (ts.length + 1)
  have hts := h.eq
  rw [List.take_length_add_append] at hle
  simp [hc] at hle
  omega

end

/-! ### Parentheses of forms -/

/-- Every parenthesis has one that it matches. -/
structure Matched (ts : List Token) : Prop where
  opened : ∀ i, KindAt ts .openParen i → ∃ k, Matches ts i k
  closed : ∀ k, KindAt ts .closeParen k → ∃ i, Matches ts i k

section

variable {ts us : List Token} {t : Token} {i k : Nat}

theorem KindAt.lt {kind : TokenKind} (h : KindAt ts kind i) : i < ts.length := by
  obtain ⟨t, ht, -⟩ := h
  exact (List.getElem?_eq_some_iff.mp ht).1

theorem kindAt_append {kind : TokenKind} : KindAt (ts ++ us) kind i ↔
    KindAt ts kind i ∨ ∃ m, i = ts.length + m ∧ KindAt us kind m := by
  constructor
  · rintro ⟨t, ht, hkind⟩
    by_cases hi : i < ts.length
    · rw [List.getElem?_append_left hi] at ht
      exact .inl ⟨t, ht, hkind⟩
    · obtain ⟨m, rfl⟩ := Nat.exists_eq_add_of_le (Nat.le_of_not_lt hi)
      rw [List.getElem?_append_right (Nat.le_add_right _ _), Nat.add_sub_cancel_left] at ht
      exact .inr ⟨m, rfl, t, ht, hkind⟩
  · rintro (h | ⟨m, rfl, t, ht, hkind⟩)
    · have hi := h.lt
      obtain ⟨t, ht, hkind⟩ := h
      exact ⟨t, (List.getElem?_append_left hi).trans ht, hkind⟩
    · refine ⟨t, ?_, hkind⟩
      rwa [List.getElem?_append_right (Nat.le_add_right _ _), Nat.add_sub_cancel_left]

theorem kindAt_singleton {kind : TokenKind} (h : KindAt [t] kind i) : i = 0 ∧ t.kind = kind := by
  obtain ⟨u, hu, hkind⟩ := h
  obtain rfl := List.mem_singleton.mp (List.mem_of_getElem? hu)
  exact ⟨Nat.lt_one_iff.mp (List.getElem?_eq_some_iff.mp hu).1, hkind⟩

/-- Parentheses match also with something in front. -/
theorem Matches.append_left (h : Matches ts i k) (front : List Token) :
    Matches (front ++ ts) (front.length + i) (front.length + k) where
  opening := kindAt_append.mpr (.inr ⟨i, rfl, h.opening⟩)
  closing := kindAt_append.mpr (.inr ⟨k, rfl, h.closing⟩)
  lt := Nat.add_lt_add_left h.lt _
  between := by
    rw [List.take_length_add_append, Nat.add_assoc, List.drop_length_add_append]
    exact h.between

/-- Parentheses match also with something behind. -/
theorem Matches.append_right (h : Matches ts i k) (back : List Token) :
    Matches (ts ++ back) i k where
  opening := kindAt_append.mpr (.inl h.opening)
  closing := kindAt_append.mpr (.inl h.closing)
  lt := h.lt
  between := by
    rw [List.take_append_of_le_length (Nat.le_of_lt h.closing.lt)]
    exact h.between

theorem Matched.nil : Matched [] where
  opened i h := absurd h.lt (Nat.not_lt_zero i)
  closed k h := absurd h.lt (Nat.not_lt_zero k)

theorem Matched.atom (ho : t.kind ≠ .openParen) (hc : t.kind ≠ .closeParen) : Matched [t] where
  opened _ h := absurd (kindAt_singleton h).2 ho
  closed _ h := absurd (kindAt_singleton h).2 hc

theorem Matched.append (h : Matched ts) (h' : Matched us) : Matched (ts ++ us) where
  opened i ho := by
    rcases kindAt_append.mp ho with hleft | ⟨m, rfl, hright⟩
    · exact (h.opened i hleft).imp fun k hk => hk.append_right us
    · obtain ⟨k, hk⟩ := h'.opened m hright
      exact ⟨_, hk.append_left ts⟩
  closed k hc := by
    rcases kindAt_append.mp hc with hleft | ⟨m, rfl, hright⟩
    · exact (h.closed k hleft).imp fun i hi => hi.append_right us
    · obtain ⟨i, hi⟩ := h'.closed m hright
      exact ⟨_, hi.append_left ts⟩

theorem Matched.list {opening closing : Token} (ho : opening.kind = .openParen)
    (hc : closing.kind = .closeParen) (h : Matched ts) (hb : Balanced ts) :
    Matched ([opening] ++ (ts ++ [closing])) := by
  have hpair : Matches ([opening] ++ (ts ++ [closing])) 0 (1 + ts.length) := by
    refine ⟨⟨opening, rfl, ho⟩, ?_, by omega, ?_⟩
    · exact kindAt_append.mpr (.inr ⟨_, rfl, kindAt_append.mpr (.inr ⟨0, rfl, closing, rfl, hc⟩)⟩)
    · have htake : ([opening] ++ (ts ++ [closing])).take ([opening].length + ts.length) =
          [opening] ++ (ts ++ [closing]).take ts.length := List.take_length_add_append _
      rw [List.take_left, List.length_singleton] at htake
      rw [htake]
      exact hb
  refine ⟨fun i hi => ?_, fun k hk => ?_⟩
  · rcases kindAt_append.mp hi with hfirst | ⟨m, rfl, hrest⟩
    · obtain ⟨rfl, -⟩ := kindAt_singleton hfirst
      exact ⟨_, hpair⟩
    · rcases kindAt_append.mp hrest with hinner | ⟨l, -, hlast⟩
      · obtain ⟨k, hk⟩ := h.opened m hinner
        exact ⟨_, (hk.append_right [closing]).append_left [opening]⟩
      · exact absurd ((kindAt_singleton hlast).2.symm.trans hc) (by decide)
  · rcases kindAt_append.mp hk with hfirst | ⟨m, rfl, hrest⟩
    · exact absurd ((kindAt_singleton hfirst).2.symm.trans ho) (by decide)
    · rcases kindAt_append.mp hrest with hinner | ⟨l, rfl, hlast⟩
      · obtain ⟨i, hi⟩ := h.closed m hinner
        exact ⟨_, (hi.append_right [closing]).append_left [opening]⟩
      · obtain ⟨rfl, -⟩ := kindAt_singleton hlast
        exact ⟨_, hpair⟩

end

mutual

theorem balanced_tokens : ∀ f : Form, Balanced f.tokens
  | .int _ _ | .float _ _ | .symbol _ _ => .atom (by simp) (by simp)
  | .list _ items => .list rfl rfl (balanced_tokensAll items)

/-- The parentheses of forms balance. -/
theorem balanced_tokensAll : ∀ fs : List Form, Balanced (tokensAll fs)
  | [] => .nil
  | f :: fs => (balanced_tokens f).append (balanced_tokensAll fs)

end

mutual

theorem matched_tokens : ∀ f : Form, Matched f.tokens
  | .int _ _ | .float _ _ | .symbol _ _ => .atom (by simp) (by simp)
  | .list _ items => .list rfl rfl (matched_tokensAll items) (balanced_tokensAll items)

/-- Every parenthesis of forms has one that it matches. -/
theorem matched_tokensAll : ∀ fs : List Form, Matched (tokensAll fs)
  | [] => .nil
  | f :: fs => (matched_tokens f).append (matched_tokensAll fs)

end

/-! ### What building comes to -/

/-- What building forms from tokens comes to. -/
inductive Built (ts : List Token) : Except SyntaxError (List Form) → Prop where
  | forms {fs : List Form} (hb : Balanced ts) (h : tokensAll fs = ts) : Built ts (.ok fs)
  | stray {k : Nat} {t : Token} (hb : ¬ Balanced ts) (ht : ts[k]? = some t) (h : Stray ts k)
      (hfirst : ∀ i, i < k → ¬ Stray ts i) : Built ts (.error (.unexpected t))
  | unclosed {i : Nat} {t : Token} (hb : ¬ Balanced ts) (hno : ∀ k, ¬ Stray ts k)
      (ht : ts[i]? = some t)
      (h : Unclosed ts i) (hlast : ∀ k, i < k → ¬ Unclosed ts k) : Built ts (.error (.unclosed t))

/-- A token is read, or it closes a list and none is open. -/
theorem Forest.step_cases (forest : Forest) {t : Token} (ht : t.kind ≠ .endOfInput) :
    (∃ next, forest.step t = .ok next) ∨
      t.kind = .closeParen ∧ forest.pending = [] ∧ forest.step t = .error (.unexpected t) := by
  unfold Forest.step
  cases hkind : t.kind with
  | endOfInput => exact absurd hkind ht
  | closeParen =>
    cases hpending : forest.pending with
    | nil => exact .inr ⟨rfl, rfl, rfl⟩
    | cons l ls => exact .inl ⟨_, rfl⟩
  | openParen | int | float | symbol => exact .inl ⟨_, rfl⟩

/-- Tokens can be read to the end, or one of them closes nothing. -/
theorem foldlM_cases {ts : List Token} (hts : ∀ t ∈ ts, t.kind ≠ .endOfInput) (forest : Forest) :
    (∃ forest', ts.foldlM Forest.step forest = .ok forest') ∨
      ∃ front t back forest', ts = front ++ t :: back ∧ t.kind = .closeParen ∧
        front.foldlM Forest.step forest = .ok forest' ∧ forest'.pending = [] ∧
        ts.foldlM Forest.step forest = .error (.unexpected t) := by
  induction ts generalizing forest with
  | nil => exact .inl ⟨forest, rfl⟩
  | cons t ts ih =>
    rw [List.foldlM_cons]
    have hrest : ∀ u ∈ ts, u.kind ≠ .endOfInput := fun u hu => hts u (List.mem_cons_of_mem _ hu)
    rcases forest.step_cases (hts t List.mem_cons_self) with
      ⟨next, hnext⟩ | ⟨hkind, hpending, herror⟩
    · rw [hnext]
      rcases ih hrest next with
        ⟨forest', h⟩ | ⟨front, u, back, forest', hts', hkind, hfront, hpending, h⟩
      · exact .inl ⟨forest', h⟩
      · subst hts'
        refine .inr ⟨t :: front, u, back, forest', rfl, hkind, ?_, hpending, h⟩
        rw [List.foldlM_cons, hnext]
        exact hfront
    · rw [herror]
      exact .inr ⟨[], t, ts, forest, rfl, hkind, rfl, hpending, rfl⟩

section

variable {ts us : List Token} {t : Token}

theorem split_at {i : Nat} (h : ts[i]? = some t) : ts = ts.take i ++ t :: ts.drop (i + 1) := by
  obtain ⟨hi, rfl⟩ := List.getElem?_eq_some_iff.mp h
  rw [← List.drop_eq_getElem_cons hi, List.take_append_drop]

/-- A parenthesis that opens a list is not closed by what balances, in which every
parenthesis is. -/
theorem unclosed_of (ts : List Token) (ho : t.kind = .openParen) (h : Balanced us)
    (hm : Matched us) :
    Unclosed (ts ++ t :: us) ts.length ∧ ∀ k, ts.length < k → ¬ Unclosed (ts ++ t :: us) k := by
  have hsplit : ts ++ t :: us = (ts ++ [t]) ++ us := by
    rw [List.append_assoc, List.singleton_append]
  have hlength : (ts ++ [t]).length = ts.length + 1 := by
    rw [List.length_append, List.length_singleton]
  have hinner : ∀ k kind, ts.length < k → KindAt (ts ++ t :: us) kind k →
      ∃ m, k = (ts ++ [t]).length + m ∧ KindAt us kind m := by
    intro k kind hk hat
    rw [hsplit] at hat
    rcases kindAt_append.mp hat with hfirst | ⟨m, rfl, hrest⟩
    · have hlt := hfirst.lt
      omega
    · exact ⟨m, rfl, hrest⟩
  refine ⟨⟨kindAt_append.mpr (.inr ⟨0, rfl, t, rfl, ho⟩), fun k hk => ?_⟩, fun k hlt hk => ?_⟩
  · obtain ⟨m, rfl, u, hu, hkind⟩ := hinner k _ hk.lt hk.closing
    have hbetween := hk.between
    rw [hsplit, List.take_length_add_append, ← hlength, List.drop_left] at hbetween
    rw [split_at hu] at h
    exact not_balanced_append hkind hbetween h
  · obtain ⟨m, rfl, hat⟩ := hinner k _ hlt hk.1
    obtain ⟨j, hj⟩ := hm.opened m hat
    exact hk.2 _ (hsplit ▸ hj.append_left (ts ++ [t]))

/-- A parenthesis that closes a list has none to close in what balances, in which every
parenthesis is closed. -/
theorem stray_of (us : List Token) (hc : t.kind = .closeParen) (h : Balanced ts) (hm : Matched ts) :
    Stray (ts ++ t :: us) ts.length ∧ ∀ k, k < ts.length → ¬ Stray (ts ++ t :: us) k := by
  refine ⟨⟨kindAt_append.mpr (.inr ⟨0, rfl, t, rfl, hc⟩), fun i hi => ?_⟩, fun k hlt hk => ?_⟩
  · obtain ⟨u, hu, hkind⟩ := hi.opening
    rw [List.getElem?_append_left hi.lt] at hu
    have hbetween := hi.between
    rw [List.take_left] at hbetween
    rw [split_at hu] at h
    exact not_balanced_of hkind hbetween h
  · rcases kindAt_append.mp hk.1 with hat | ⟨m, rfl, -⟩
    · obtain ⟨i, hi⟩ := hm.closed k hat
      exact hk.2 i (hi.append_right _)
    · exact absurd hlt (Nat.not_lt_of_le (Nat.le_add_right _ _))

end

/-- Among lists that are still open, nothing is closed that was not opened. -/
theorem closed_pending (ls : List OpenList) (hopened : ∀ l ∈ ls, l.opening.kind = .openParen)
    (k : Nat) (hk : KindAt (pendingTokens ls) .closeParen k) :
    ∃ i, Matches (pendingTokens ls) i k := by
  induction ls generalizing k with
  | nil => exact absurd hk.lt (Nat.not_lt_zero k)
  | cons l ls ih =>
    have hsplit : pendingTokens (l :: ls) =
        pendingTokens ls ++ ([l.opening] ++ tokensAll l.items.reverse) := rfl
    rw [hsplit] at hk ⊢
    rcases kindAt_append.mp hk with houter | ⟨m, rfl, hinner⟩
    · obtain ⟨i, hi⟩ := ih (fun m hm => hopened m (List.mem_cons_of_mem _ hm)) k houter
      exact ⟨i, hi.append_right _⟩
    · rcases kindAt_append.mp hinner with hfirst | ⟨n, rfl, hitems⟩
      · exact absurd ((kindAt_singleton hfirst).2.symm.trans (hopened l List.mem_cons_self))
          (by decide)
      · obtain ⟨i, hi⟩ := (matched_tokensAll _).closed n hitems
        exact ⟨_, (hi.append_left [l.opening]).append_left _⟩

/-- A forest with a list that is still open: nothing is stray, and the parenthesis of the innermost
list is the last one that is not closed. -/
theorem Forest.From.unclosed {finished : List Form} {l : OpenList} {ls : List OpenList}
    {ts : List Token} (h : Forest.From ⟨finished, l :: ls⟩ ts) :
    Built ts (.error (.unclosed l.opening)) := by
  have hopened := h.opened
  have htokens : ts = (tokensAll finished.reverse ++ pendingTokens ls) ++
      l.opening :: tokensAll l.items.reverse := by
    rw [← h.tokens, List.append_assoc]
    rfl
  obtain ⟨hunclosed, hlast⟩ := unclosed_of (tokensAll finished.reverse ++ pendingTokens ls)
    (hopened l List.mem_cons_self) (balanced_tokensAll l.items.reverse) (matched_tokensAll _)
  rw [← htokens] at hunclosed hlast
  have hbalance : ¬ Balanced ts := htokens ▸ not_balanced_of (hopened l List.mem_cons_self)
    (balanced_tokensAll l.items.reverse)
  refine .unclosed hbalance (fun k hk => ?_) ?_ hunclosed hlast
  · have hforest : ts = tokensAll finished.reverse ++ pendingTokens (l :: ls) := h.tokens.symm
    rw [hforest] at hk
    rcases kindAt_append.mp hk.1 with hfinished | ⟨m, rfl, hpending⟩
    · obtain ⟨i, hi⟩ := (matched_tokensAll _).closed k hfinished
      exact hk.2 i (hi.append_right _)
    · obtain ⟨i, hi⟩ := closed_pending _ hopened m hpending
      exact hk.2 _ (hi.append_left _)
  · rw [htokens, List.getElem?_append_right (Nat.le_refl _), Nat.sub_self]
    rfl

theorem build_built {ts : List Token} (ha : Arranged ts) : Built ts (build ts) := by
  rcases foldlM_cases ha.kinds .empty with
    ⟨forest, hfold⟩ | ⟨front, t, back, forest, rfl, hkind, hfront, hpending, herror⟩
  · have hfrom := foldlM_from .empty ha hfold
    unfold build
    rw [hfold]
    show Built ts forest.close
    obtain ⟨finished, pending⟩ := forest
    cases pending with
    | nil =>
      have htokens : tokensAll finished.reverse = ts := (List.append_nil _).symm.trans hfrom.tokens
      exact .forms (htokens ▸ balanced_tokensAll _) htokens
    | cons l ls => exact hfrom.unclosed
  · have hfrom := foldlM_from .empty ha.left hfront
    obtain ⟨finished, pending⟩ := forest
    obtain rfl : pending = [] := hpending
    have htokens : tokensAll finished.reverse = front := (List.append_nil _).symm.trans hfrom.tokens
    obtain ⟨hstray, hfirst⟩ := stray_of back hkind (htokens ▸ balanced_tokensAll _)
      (htokens ▸ matched_tokensAll _)
    unfold build
    rw [herror]
    refine .stray (not_balanced_append hkind (htokens ▸ balanced_tokensAll _)) ?_ hstray hfirst
    rw [List.getElem?_append_right (Nat.le_refl _), Nat.sub_self]
    rfl

end ForkLisp.Reader
