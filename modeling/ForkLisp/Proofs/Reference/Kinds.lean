/-
Kinds and values.

A value `Has` a kind if it is of the type that the kind names; every value has the kind `any`. The
kinds that terms are given are those of their values (`resolves_has`), with one exception: a sum or
product of a single operand is that operand itself, which nothing has checked to be a number. So
forms are asked here to be `plural`, that is to hold none of these.

A function is taken to return a number while its own body is compiled. That does no harm: if its
body has another kind in the end, no call of itself has contributed to it.
-/
import ForkLisp.Proofs.Reference.Loose

namespace ForkLisp.Reference

open ForkLisp.Code ForkLisp.Compile ForkLisp.Machine ForkLisp.Reader ForkLisp.Behaviour
  ForkLisp.Terms

/-- A value is of a kind. -/
def Datum.Has (k : Kind) (v : Datum) : Prop :=
  match k with
  | .int => ∃ n, v = .int n
  | .bool => v.IsBool
  | .float => ∃ x, v = .float x
  | .any => True

/-- Whether the items of a list make up a sum, product or the like of a single operand; a difference
of one operand is its negative. -/
def single : List Form → Bool
  | [.symbol _ name, _] =>
    match Builtin.ofName? name with
    | some (.arith op) => op != .sub
    | _ => false
  | _ => false

mutual

/-- Whether a form holds no sum or product of a single operand. -/
def plural : Form → Bool
  | .list _ items => !single items && pluralAll items
  | _ => true

/-- Whether some forms hold no sum or product of a single operand. -/
def pluralAll : List Form → Bool
  | [] => true
  | f :: fs => plural f && pluralAll fs

end

theorem pluralAll_iff {fs : List Form} : pluralAll fs = true ↔ ∀ f ∈ fs, plural f = true := by
  induction fs with
  | nil => simp [pluralAll]
  | cons f fs ih => simp [pluralAll, ih]

theorem plural_list {range : Source.Range} {items : List Form}
    (h : plural (.list range items) = true) :
    single items = false ∧ ∀ f ∈ items, plural f = true := by
  unfold plural at h
  rw [Bool.and_eq_true, Bool.not_eq_true'] at h
  exact ⟨h.1, pluralAll_iff.mp h.2⟩

section

variable (sync : Prop) (c : Context) (arity : FuncId → Option Nat)

/-- The meaning in which calls have values of the kind of the function, and operators are those of
the evaluator. -/
def typed : Meaning Datum Unit Unit := loose (fun _ => False) sync c Datum.Has arity

end

section

variable {sync : Prop} {c : Context} {arity : FuncId → Option Nat} {defs : FuncId → Option Closure}
  {s : Scope} {params : List String} {args : List Datum} {want : Kind}

theorem typed_simulates : Simulates (looseSpec sync c) defs (typed sync c arity) :=
  loose_simulates fun _ h => h

theorem typed_arith {op : ArithOp} {u v x : Datum} (h : (typed sync c arity).arith op u v (.ok x)) :
    x.Has .int := by
  rcases h with h | ⟨_, -, hf⟩
  · unfold Datum.arith at h
    cases hu : u.slot.int64 with
    | error e => rw [hu] at h; cases h
    | ok a =>
      cases hv : v.slot.int64 with
      | error e => rw [hu, hv] at h; cases h
      | ok b =>
        rw [hu, hv] at h
        simp only [bind, Except.bind] at h
        split at h
        · cases h
          exact ⟨_, rfl⟩
        · cases h
  · exact hf.elim

theorem typed_negate {v x : Datum} (h : (typed sync c arity).negate v (.ok x)) : x.Has .int := by
  rcases h with h | ⟨_, -, hf⟩
  · unfold Datum.negate at h
    cases hv : v.slot.int64 with
    | error e => rw [hv] at h; cases h
    | ok a =>
      rw [hv] at h
      cases h
      exact ⟨_, rfl⟩
  · exact hf.elim

/-- A combination of two values or more is a number. -/
theorem int_of_foldAll {op : ArithOp} {u v : Datum} {vs : List Datum} {w w' : Unit} {x : Datum}
    (h : foldAll (typed sync c arity) op u (v :: vs) w (.value x w')) : x.Has .int := by
  induction vs generalizing u v with
  | nil =>
    obtain ⟨a, ha, ho⟩ := h
    cases a with
    | error e => exact absurd ho (by simp [orFault])
    | ok y =>
      obtain ⟨rfl, -⟩ := Ending.value.inj ho
      exact typed_arith ha
  | cons v' vs ih =>
    obtain ⟨a, ha, ho⟩ := h
    cases a with
    | error e => exact absurd ho (by simp [orFault])
    | ok y => exact ih ho

theorem merge_eq_of_ne_any {a b k : Kind} (h : a.merge b = k) (hk : k ≠ .any) : a = k ∧ b = k := by
  unfold Kind.merge at h
  split at h
  · rename_i hab
    exact ⟨h, hab ▸ h⟩
  · exact absurd h.symm hk

theorem keeps_loose (names : Bindings FuncId) (f : Form) :
    Keeps (looseSpec sync c).calls (looseSpec sync c).writes names f :=
  keeps_of_forall names (fun _ => trivial) trivial f

theorem keepAll_loose (names : Bindings FuncId) (fs : List Form) :
    KeepAll (looseSpec sync c).calls (looseSpec sync c).writes names fs :=
  keepAll_of_forall names (fun _ => trivial) trivial fs

/-- A term has a meaning. -/
theorem resolves_ne_stuck (hs : Suits (looseSpec sync c) s) (hlen : args.length = params.length)
    {f : Form} {t : Term} {k : Kind} (h : Resolves s params f t k) {w : Unit}
    {o : Ending Datum Unit} (ho : t.Evals (typed sync c arity) args w o) : o ≠ .stuck :=
  (resolves_agrees (@typed_simulates sync c arity fun _ => none) hs hlen h
    (keeps_loose _ _) w o ho).1

/-- What the value of a term was made from. -/
theorem value_of_into {α β : Type} {r : Ending α Unit} {v : β} {w : Unit} {use : α → Unit → Prop}
    (hr : r ≠ .stuck) (h : r.into (.value v w) use) : ∃ u w', r = .value u w' ∧ use u w' := by
  cases r with
  | value u w' => exact ⟨u, w', rfl, h⟩
  | fault e w' => exact absurd h (by simp [Ending.into])
  | stuck => exact absurd rfl hr

/-- The value of a conditional is that of an alternative. -/
theorem value_of_cond (hs : Suits (looseSpec sync c) s) (hlen : args.length = params.length)
    {test : Form} {skip : Comparison} {a b first second : Term}
    (hc : ResolvesTest s params test skip a b) {w w' : Unit} {v : Datum}
    (h : (Term.cond skip a b first second).Evals (typed sync c arity) args w (.value v w')) :
    ∃ w₁, first.Evals (typed sync c arity) args w₁ (.value v w') ∨
      second.Evals (typed sync c arity) args w₁ (.value v w') := by
  obtain ⟨x, y, -, -, hx, hy, -⟩ :=
    resolvesTest_rel (@typed_simulates sync c arity fun _ => none) hs hlen hc (keeps_loose _ _)
  exact (@typed_simulates sync c arity fun _ => none).value_of_cond hx hy h

/-- The value of a term has the kind that its form was given, if that is so of calls. -/
theorem resolves_has (hs : Suits (looseSpec sync c) s) (hlen : args.length = params.length)
    (hwant : want ≠ .any)
    (hkinds : ∀ id f, s.functions id = some f → f.kind = want → kindOf c id = want)
    {f : Form} {t : Term} {k : Kind} (hf : Resolves s params f t k) (hp : plural f = true)
    (hk : k = want) {w : Unit} {v : Datum} {w' : Unit}
    (h : t.Evals (typed sync c arity) args w (.value v w')) : v.Has want := by
  induction hsize : sizeOf f using Nat.strongRecOn generalizing f t k w v w' with
  | ind size ih =>
  subst hsize
  cases hf with
  | int | float | truth _ | nil | neutral _ =>
    unfold Term.Evals at h
    exact hk ▸ ⟨_, (Ending.value.inj h).1⟩
  | param _ _ | global _ _ _ => exact absurd hk.symm hwant
  | @call _ _ _ id fn _ _ hb hid hf hn ha =>
    unfold Term.Evals at h
    obtain ⟨r, hr, hinto⟩ := h
    have hargs := resolvesAll_rel (@typed_simulates sync c arity fun _ => none) hs hlen ha
      (keepAll_loose _ _) w r hr
    obtain ⟨vs, w₁, rfl, hv⟩ := value_of_into hargs hinto
    exact hkinds id fn hf hk ▸ hv.2 v w' rfl
  | same hb hop _ =>
    -- the one form whose kind says more than is known
    have hsingle := (plural_list hp).1
    unfold single at hsingle
    simp [hb, hop] at hsingle
  | negate _ hf =>
    unfold Term.Evals at h
    obtain ⟨r, hr, hinto⟩ := h
    obtain ⟨u, w₁, rfl, a, ha, ho⟩ := value_of_into (resolves_ne_stuck hs hlen hf hr) hinto
    cases a with
    | error e => exact absurd ho (by simp [orFault])
    | ok x =>
      obtain ⟨rfl, -⟩ := Ending.value.inj ho
      exact hk ▸ typed_negate ha
  | arith hb hne hf =>
    rw [evals_arith] at h
    obtain ⟨r, hr, hinto⟩ := followed_operandValues h
    have hserve :=
      resolvesOperands_serveAll (@typed_simulates sync c arity fun _ => none) hs hlen hf
      (keepAll_loose _ _)
    have hoperands := fun r => typed_simulates.operands args _ _ w r hserve
    obtain ⟨vs, w₁, rfl, hv⟩ := value_of_into (hoperands r hr) hinto
    have hcount : vs.length = _ := (length_of_operandValues hr).resolve_right fun hstuck =>
      hoperands _ hstuck rfl
    have htwo : 2 ≤ vs.length := by
      rw [hcount, hf.length, List.length_cons]
      exact Nat.succ_le_succ (List.length_pos_iff.mpr hne)
    obtain ⟨u, u', us, rfl⟩ := exists_of_two_le htwo
    exact hk ▸ int_of_foldAll hv
  | @compare range range' _ _ _ _ _ _ _ _ hb hl hr =>
    have hc := @ResolvesTest.compared _ _ range range' _ _ _ _ _ _ _ _ hb hl hr
    obtain ⟨w₁, ho | ho⟩ := value_of_cond hs hlen hc h
    all_goals
      unfold Term.Evals at ho
      exact hk ▸ ⟨_, (Ending.value.inj ho).1⟩
  | short _ hc hf =>
    obtain ⟨hfirst, hsecond⟩ := merge_eq_of_ne_any hk hwant
    obtain ⟨w₁, ho | ho⟩ := value_of_cond hs hlen hc h
    · exact ih _ (by simp; omega) hf ((plural_list hp).2 _ (by simp)) hfirst ho rfl
    · unfold Term.Evals at ho
      exact hsecond ▸ ⟨_, (Ending.value.inj ho).1⟩
  | full _ hc hf hf' =>
    obtain ⟨hfirst, hsecond⟩ := merge_eq_of_ne_any hk hwant
    obtain ⟨w₁, ho | ho⟩ := value_of_cond hs hlen hc h
    · exact ih _ (by simp; omega) hf ((plural_list hp).2 _ (by simp)) hfirst ho rfl
    · exact ih _ (by simp; omega) hf' ((plural_list hp).2 _ (by simp)) hsecond ho rfl
  | assign _ hg hf =>
    unfold Term.Evals at h
    obtain ⟨r, hr, hinto⟩ := h
    obtain ⟨u, w₁, rfl, r', hr', hinto'⟩ := value_of_into (resolves_ne_stuck hs hlen hf hr) hinto
    obtain rfl := hr' (hs.known _ hg)
    obtain ⟨rfl, -⟩ := Ending.value.inj hinto'
    exact ih _ (by simp; omega) hf ((plural_list hp).2 _ (by simp)) hk hr rfl
  | print _ hf =>
    unfold Term.Evals at h
    obtain ⟨r, hr, hinto⟩ := h
    obtain ⟨u, w₁, rfl, r', hr', hinto'⟩ := value_of_into (resolves_ne_stuck hs hlen hf hr) hinto
    obtain ⟨_, _, rfl, hv⟩ := value_of_into hr' hinto'
    obtain ⟨rfl, -⟩ := Ending.value.inj hv
    exact ih _ (by simp; omega) hf ((plural_list hp).2 _ (by simp)) hk hr rfl

/-- The value of a body has the kind of its last form. -/
theorem resolvesBody_has (hs : Suits (looseSpec sync c) s) (hlen : args.length = params.length)
    (hwant : want ≠ .any)
    (hkinds : ∀ id f, s.functions id = some f → f.kind = want → kindOf c id = want) {fs : List Form}
    {ts : List Term} {k : Kind} (h : ResolvesBody s params fs ts k) (hp : pluralAll fs = true)
    (hk : k = want) {w : Unit} {v : Datum} {w' : Unit}
    (hv : EvalsBody (typed sync c arity) args ts w (.value v w')) : v.Has want := by
  induction h generalizing w with
  | last hf =>
    obtain ⟨r, hr, hinto⟩ := hv
    obtain ⟨u, w₁, rfl, ho⟩ := value_of_into (resolves_ne_stuck hs hlen hf hr) hinto
    obtain ⟨rfl, -⟩ := Ending.value.inj ho
    exact resolves_has hs hlen hwant hkinds hf (pluralAll_iff.mp hp _ (by simp)) hk hr
  | @more f fs t ts k k' hf hfs ih =>
    have hmore : andThen (t.Evals (typed sync c arity) args w)
        (fun _ w => EvalsBody (typed sync c arity) args ts w) (.value v w') := by
      cases ts with
      | nil => exact absurd rfl hfs.ne_nil
      | cons t' ts => exact hv
    obtain ⟨r, hr, hinto⟩ := hmore
    obtain ⟨u, w₁, rfl, ho⟩ := value_of_into (resolves_ne_stuck hs hlen hf hr) hinto
    have hrest : ∀ g ∈ fs, plural g = true := fun g hg =>
      pluralAll_iff.mp hp g (List.mem_cons_of_mem f hg)
    exact ih (pluralAll_iff.mpr hrest) hk ho

end

end ForkLisp.Reference
