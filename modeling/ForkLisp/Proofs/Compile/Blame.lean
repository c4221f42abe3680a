/-
What compilation errors are about.

Whenever a form does not compile, one part of it is to blame: the form or its first part that is
refused, or what is the first to be wrong with a definition (`Offends`). There is just one such part
and one thing that is wrong with it (`Offends.unique`). The error has the range of that part, and
its texts and numbers are those of the part (`compile_offends`).
-/
import ForkLisp.Proofs.Compile.Judging
import ForkLisp.Proofs.Compile.Origin
import ForkLisp.Proofs.Pairing

namespace ForkLisp.Compile

open ForkLisp.Code ForkLisp.Reader ForkLisp.Source

/-- The parameters of a definition are names that may be bound. -/
def Parameters (f : Form) (names : List String) : Prop :=
  ∃ fs, f.list? = some fs ∧ List.Forall₂ (Binds isTruthName) fs names

/-- What is the first to be wrong with the arguments of a definition, and the part that it is wrong
with. -/
inductive Misdefines (c : Context) (top : Form) : List Form → CompileError → Form → Prop where
  /-- The name or the parameters are missing. -/
  | incomplete {args : List Form} (h : args.length < 2) :
      Misdefines c top args
        (.invalidDefinition top.range "expected (defun name (params...) body...)") top
  /-- What cannot be the name of a function. -/
  | name {f ps : Form} {body : List Form} (h : ∀ v, ¬ Binds isReserved f v) :
      Misdefines c top (f :: ps :: body)
        (.invalidDefinition f.range s!"cannot define `{f.text}`") f
  /-- What is no list, where the parameters have to stand. -/
  | parameters {f ps : Form} {body : List Form} {v : String} (hv : Binds isReserved f v)
      (h : ps.list? = none) :
      Misdefines c top (f :: ps :: body)
        (.invalidDefinition ps.range s!"expected a parameter list, got `{ps.text}`") ps
  /-- The first that cannot be the name of a parameter. -/
  | parameter {f ps p : Form} {front back body : List Form} {v : String}
      (hv : Binds isReserved f v) (hps : ps.list? = some (front ++ p :: back))
      (hfront : ∀ q ∈ front, ∃ v, Binds isTruthName q v) (h : ∀ v, ¬ Binds isTruthName p v) :
      Misdefines c top (f :: ps :: body)
        (.invalidDefinition p.range s!"invalid parameter `{p.text}`") p
  /-- Parameters with a name that occurs a second time. -/
  | repeated {f ps : Form} {body : List Form} {front back : List String} {v w : String}
      (hv : Binds isReserved f v) (hps : Parameters ps (front ++ w :: back))
      (hfront : front.Nodup) (h : w ∈ front) :
      Misdefines c top (f :: ps :: body)
        (.invalidDefinition ps.range s!"duplicate parameter `{w}`") ps
  /-- A definition without a body. -/
  | missing {f ps : Form} {names : List String} {v : String} (hv : Binds isReserved f v)
      (hps : Parameters ps names) (h : names.Nodup) :
      Misdefines c top [f, ps] (.invalidDefinition top.range s!"missing body of `{v}`") top
  /-- The first part of the body that is refused, where the function is known. -/
  | body {f ps g : Form} {body : List Form} {names : List String} {v : String} {e : CompileError}
      (hv : Binds isReserved f v) (hps : Parameters ps names) (hn : names.Nodup)
      (h : RefusesAll names .any (c.define v names).1 body e g) :
      Misdefines c top (f :: ps :: body) e g

/-- The part of the form `top` that is to blame in a context, and what is wrong with it. -/
inductive Offends (c : Context) (top : Form) : CompileError → Form → Prop where
  | entry {e : CompileError} {g : Form} (hd : definingArguments? top = none)
      (h : Refuses [] c top e g) : Offends c top e g
  | definition {args : List Form} {e : CompileError} {g : Form}
      (hd : definingArguments? top = some args) (h : Misdefines c top args e g) :
      Offends c top e g

/-! ### One part is to blame -/

section

variable {c : Context} {top f g ps : Form} {e e' : CompileError} {g' : Form}

/-- An error has the range of the part that is to blame. -/
theorem Offends.range (h : Offends c top e g) : e.range = g.range := by
  cases h with
  | entry _ h => exact h.range
  | definition _ h =>
    cases h with
    | body _ _ _ h => exact h.range
    | _ => rfl

theorem list_of_list? {fs : List Form} (h : f.list? = some fs) : ∃ r, f = .list r fs := by
  cases f with
  | list r items => exact ⟨r, congrArg _ (Option.some.inj h)⟩
  | int | float | symbol => cases h

theorem Offends.subform (h : Offends c top e g) : Subform g top := by
  cases h with
  | entry _ h => exact h.subform
  | definition hd h =>
    have hsub : ∀ {args g}, definingArguments? top = some args → g ∈ args → Subform g top := by
      intro args g hd hg
      obtain ⟨r, r', name, rfl, -⟩ := definingArguments?_eq_some hd
      exact .item (List.mem_cons_of_mem _ hg) (.refl g)
    cases h with
    | incomplete | missing => exact .refl top
    | name | parameters | repeated => exact hsub hd (by simp)
    | parameter _ hps =>
      obtain ⟨r, rfl⟩ := list_of_list? hps
      exact (hsub hd (List.mem_cons_of_mem _ List.mem_cons_self)).of_mem (by simp)
    | body _ _ _ h =>
      obtain ⟨f, hf, hgf⟩ := h.subform
      exact hgf.trans (hsub hd (by simp [hf]))

theorem Parameters.list?_ne_none {names : List String} (h : Parameters ps names) :
    ps.list? ≠ none := by
  obtain ⟨fs, hfs, -⟩ := h
  simp [hfs]

theorem Parameters.unique {names names' : List String} (h : Parameters ps names)
    (h' : Parameters ps names') : names = names' := by
  obtain ⟨fs, hfs, hnames⟩ := h
  obtain ⟨fs', hfs', hnames'⟩ := h'
  obtain rfl := Option.some.inj (hfs.symm.trans hfs')
  clear hfs hfs'
  induction hnames generalizing names' with
  | nil =>
    cases hnames'
    rfl
  | cons hv _ ih =>
    cases hnames' with
    | cons hv' hrest => rw [hv.unique hv', ih hrest]

/-- A list has one first member of which something bad holds, given those before it. -/
theorem first_unique {α : Type} {p : List α → α → Prop} {front front' back back' : List α}
    {a a' : α} (h : front ++ a :: back = front' ++ a' :: back') (ha : p front a)
    (ha' : p front' a') (hfront : ∀ xs x ys, front = xs ++ x :: ys → ¬ p xs x)
    (hfront' : ∀ xs x ys, front' = xs ++ x :: ys → ¬ p xs x) : a = a' := by
  rcases List.append_eq_append_iff.mp h with ⟨more, hmore, hrest⟩ | ⟨more, hmore, hrest⟩
  · cases more with
    | nil => exact (List.cons.inj hrest).1
    | cons x xs =>
      obtain ⟨rfl, -⟩ := List.cons.inj hrest
      exact absurd ha (hfront' _ _ _ hmore)
  · cases more with
    | nil => exact ((List.cons.inj hrest).1).symm
    | cons x xs =>
      obtain ⟨rfl, -⟩ := List.cons.inj hrest
      exact absurd ha' (hfront _ _ _ hmore)

theorem not_mem_of_nodup {α : Type} {front xs ys : List α} {x : α} (h : front.Nodup)
    (hx : front = xs ++ x :: ys) : x ∉ xs := by
  subst hx
  exact fun hmem => (List.nodup_append.mp h).2.2 x hmem x List.mem_cons_self rfl

theorem Parameters.binds {names : List String} {front back : List Form} {p : Form}
    (h : Parameters ps names) (hps : ps.list? = some (front ++ p :: back)) :
    ∃ v, Binds isTruthName p v := by
  obtain ⟨fs, hfs, hnames⟩ := h
  obtain rfl := Option.some.inj (hfs.symm.trans hps)
  obtain ⟨v, -, hv⟩ := exists_of_mem_left hnames (a := p) (by simp)
  exact ⟨v, hv⟩

/-- Either the arguments of a definition are incomplete, or they begin with a name and
parameters. -/
theorem not_incomplete {body : List Form} : ¬ (f :: ps :: body).length < 2 := by simp

theorem Misdefines.unique {args : List Form} (h : Misdefines c top args e g)
    (h' : Misdefines c top args e' g') : e' = e ∧ g' = g := by
  cases h with
  | incomplete h =>
    cases h' with
    | incomplete => exact ⟨rfl, rfl⟩
    | name | parameters | parameter | repeated | missing | body => exact absurd h not_incomplete
  | name h =>
    cases h' with
    | incomplete h' => exact absurd h' not_incomplete
    | name => exact ⟨rfl, rfl⟩
    | parameters hv | parameter hv | repeated hv | missing hv | body hv => exact absurd hv (h _)
  | parameters hv h =>
    cases h' with
    | incomplete h' => exact absurd h' not_incomplete
    | name h' => exact absurd hv (h' _)
    | parameters => exact ⟨rfl, rfl⟩
    | parameter _ hps => cases h.symm.trans hps
    | repeated _ hps | missing _ hps | body _ hps => exact absurd h hps.list?_ne_none
  | parameter hv hps hfront h =>
    cases h' with
    | incomplete h' => exact absurd h' not_incomplete
    | name h' => exact absurd hv (h' _)
    | parameters _ h' => cases h'.symm.trans hps
    | parameter _ hps' hfront' h' =>
      obtain rfl := first_unique (p := fun _ p => ∀ v, ¬ Binds isTruthName p v)
        (Option.some.inj (hps.symm.trans hps')) h h'
        (fun _ q _ heq hq => (hfront q (by simp [heq])).elim hq)
        (fun _ q _ heq hq => (hfront' q (by simp [heq])).elim hq)
      exact ⟨rfl, rfl⟩
    | repeated _ hps' | missing _ hps' | body _ hps' => exact ((hps'.binds hps).elim h).elim
  | repeated hv hps hfront h =>
    cases h' with
    | incomplete h' => exact absurd h' not_incomplete
    | name h' => exact absurd hv (h' _)
    | parameters _ h' => exact absurd h' hps.list?_ne_none
    | parameter _ hps' _ h' => exact ((hps.binds hps').elim h').elim
    | repeated _ hps' hfront' h' =>
      obtain rfl := first_unique (p := fun front w => w ∈ front) (hps.unique hps') h h'
        (fun _ _ _ => not_mem_of_nodup hfront) (fun _ _ _ => not_mem_of_nodup hfront')
      exact ⟨rfl, rfl⟩
    | missing _ hps' hn | body _ hps' hn =>
      exact absurd h (not_mem_of_nodup hn (hps'.unique hps))
  | missing hv hps hn =>
    cases h' with
    | incomplete h' => exact absurd h' not_incomplete
    | name h' => exact absurd hv (h' _)
    | parameters _ h' => exact absurd h' hps.list?_ne_none
    | parameter _ hps' _ h' => exact ((hps.binds hps').elim h').elim
    | repeated _ hps' _ h' => exact absurd h' (not_mem_of_nodup hn (hps.unique hps'))
    | missing hv' =>
      obtain rfl := hv.unique hv'
      exact ⟨rfl, rfl⟩
    | body _ _ _ h' => cases h'
  | body hv hps hn h =>
    cases h' with
    | incomplete h' => exact absurd h' not_incomplete
    | name h' => exact absurd hv (h' _)
    | parameters _ h' => exact absurd h' hps.list?_ne_none
    | parameter _ hps' _ h' => exact ((hps.binds hps').elim h').elim
    | repeated _ hps' _ h' => exact absurd h' (not_mem_of_nodup hn (hps.unique hps'))
    | missing => cases h
    | body hv' hps' _ h' =>
      obtain rfl := hv.unique hv'
      obtain rfl := hps.unique hps'
      exact h.unique _ _ h'

/-- One part of a form is to blame at most, and for one reason. -/
theorem Offends.unique (h : Offends c top e g) (h' : Offends c top e' g') : e' = e ∧ g' = g := by
  cases h with
  | entry hd h =>
    cases h' with
    | entry _ h' => exact h.unique _ _ h'
    | definition hd' => cases hd.symm.trans hd'
  | definition hd h =>
    cases h' with
    | entry hd' => cases hd.symm.trans hd'
    | definition hd' h' =>
      obtain rfl := Option.some.inj (hd.symm.trans hd')
      exact h.unique h'

end

/-! ### Definitions -/

/-- A name is checked: it may be bound, or the form is refused. -/
theorem binds_cases (reserved : String → Bool) (f : Form) (e : CompileError) :
    let checked : Except CompileError String :=
      match f.symbol? with
      | some name => if reserved name then .error e else .ok name
      | none => .error e
    (∃ v, checked = .ok v ∧ Binds reserved f v) ∨
      checked = .error e ∧ ∀ v, ¬ Binds reserved f v := by
  unfold Binds
  cases f.symbol? with
  | none => exact .inr ⟨rfl, fun v h => nomatch h.1⟩
  | some v =>
    cases hv : reserved v with
    | true =>
      refine .inr ⟨if_pos hv, fun w h => ?_⟩
      obtain rfl := Option.some.inj h.1
      exact absurd (hv.symm.trans h.2) (by simp)
    | false => exact .inl ⟨v, if_neg (by simp [hv]), rfl, hv⟩

namespace Definition

variable {c : Context} {top f ps : Form} {e : CompileError}

theorem functionName_cases (f : Form) : (∃ v, functionName f = .ok v ∧ Binds isReserved f v) ∨
    functionName f = .error (.invalidDefinition f.range s!"cannot define `{f.text}`") ∧
      ∀ v, ¬ Binds isReserved f v :=
  binds_cases isReserved f _

theorem parameterName_cases (f : Form) : (∃ v, parameterName f = .ok v ∧ Binds isTruthName f v) ∨
    parameterName f = .error (.invalidDefinition f.range s!"invalid parameter `{f.text}`") ∧
      ∀ v, ¬ Binds isTruthName f v :=
  binds_cases isTruthName f _

theorem binds_of_parameterName {v : String} (h : parameterName f = .ok v) :
    Binds isTruthName f v := by
  rcases parameterName_cases f with ⟨w, hw, hbinds⟩ | ⟨he, -⟩
  · exact Except.ok.inj (hw.symm.trans h) ▸ hbinds
  · cases he.symm.trans h

/-- Names are seen one after the other, up to the first that was seen before. -/
theorem firstRepeated?_cases (names : List String) {seen : List String} (h : seen.Nodup) :
    firstRepeated? seen names = none ∧ (names.reverse ++ seen).Nodup ∨
      ∃ front w back, firstRepeated? seen names = some w ∧ names = front ++ w :: back ∧
        (front.reverse ++ seen).Nodup ∧ w ∈ front.reverse ++ seen := by
  induction names generalizing seen with
  | nil => exact .inl ⟨rfl, h⟩
  | cons name names ih =>
    unfold firstRepeated?
    by_cases hname : name ∈ seen
    · exact .inr ⟨[], name, names, if_pos hname, rfl, h, hname⟩
    · rw [if_neg hname]
      rcases ih (List.nodup_cons.mpr ⟨hname, h⟩) with
        ⟨hnone, hall⟩ | ⟨front, w, back, hsome, rfl, hnodup, hw⟩
      · exact .inl ⟨hnone, by simpa using hall⟩
      · exact .inr ⟨name :: front, w, back, hsome, rfl, by simpa using hnodup, by simpa using hw⟩

/-- What is checked of parameters, in order. -/
theorem parameterNames_cases (c : Context) (top : Form) {v : String} {body : List Form}
    (hv : Binds isReserved f v) :
    (∃ names, parameterNames ps = .ok names ∧ Parameters ps names ∧ names.Nodup) ∨
      ∃ e g, parameterNames ps = .error e ∧ Misdefines c top (f :: ps :: body) e g := by
  unfold parameterNames
  cases hlist : ps.list? with
  | none => exact .inr ⟨_, ps, rfl, .parameters hv hlist⟩
  | some fs =>
    dsimp only
    cases hnames : fs.mapM parameterName with
    | error e =>
      obtain ⟨front, p, back, rfl, hfront, hp⟩ := mapM_eq_error hnames
      rcases parameterName_cases p with ⟨w, hw, -⟩ | ⟨he, hunbound⟩
      · cases hw.symm.trans hp
      · obtain rfl := Except.error.inj (he.symm.trans hp)
        refine .inr ⟨_, p, rfl, .parameter hv hlist (fun q hq => ?_) hunbound⟩
        exact (hfront q hq).imp fun w hw => binds_of_parameterName hw
    | ok names =>
      have hall : Parameters ps names :=
        ⟨fs, hlist, (mapM_eq_ok.mp hnames).imp fun _ _ hq => binds_of_parameterName hq⟩
      simp only [bind, Except.bind]
      rcases firstRepeated?_cases names List.nodup_nil with
        ⟨hnone, hnodup⟩ | ⟨front, w, back, hsome, rfl, hnodup, hw⟩
      · rw [hnone]
        exact .inl ⟨names, rfl, hall, by simpa using hnodup⟩
      · rw [hsome]
        exact .inr ⟨_, ps, rfl, .repeated hv hall (by simpa using hnodup) (by simpa using hw)⟩

/-- What is checked of the arguments of a definition, in order. -/
theorem ofArguments_cases (c : Context) (top : Form) (args : List Form) :
    (∃ f ps v names body, args = f :: ps :: body ∧ Binds isReserved f v ∧ Parameters ps names ∧
      names.Nodup ∧ ofArguments top.range args = .ok ⟨v, names, body⟩) ∨
      ∃ e g, ofArguments top.range args = .error e ∧ Misdefines c top args e g := by
  match args with
  | f :: ps :: body =>
    dsimp only [ofArguments]
    rcases functionName_cases f with ⟨v, hname, hv⟩ | ⟨hname, hunbound⟩
    · rw [hname]
      rcases @parameterNames_cases f ps c top v body hv with
        ⟨names, hparams, hall, hnodup⟩ | ⟨e, g, hparams, hoffends⟩
      · rw [hparams]
        cases body with
        | nil => exact .inr ⟨_, top, rfl, .missing hv hall hnodup⟩
        | cons g gs => exact .inl ⟨f, ps, v, names, g :: gs, rfl, hv, hall, hnodup, rfl⟩
      · rw [hparams]
        exact .inr ⟨e, g, rfl, hoffends⟩
    · rw [hname]
      exact .inr ⟨_, f, rfl, .name hunbound⟩
  | [] | [_] => exact .inr ⟨_, top, rfl, .incomplete (by simp)⟩

end Definition

/-! ### Compiling -/

section

variable {c : Context} {f : Form} {e : CompileError}

theorem compileEntry_offends (hd : definingArguments? f = none)
    (he : (compileEntry c f).outcome = .error e) : ∃ g, Offends c f e g := by
  have hjudges := @generateBody_judges [] [f] c 0
  unfold compileEntry at he
  unfold Emit.JudgesAll Emit.EndsIn at hjudges
  generalize generateBody [] [f] 0 c = emission at he hjudges
  obtain ⟨code, own, out⟩ := emission
  cases out with
  | error e' =>
    obtain rfl := Except.error.inj he
    obtain ⟨g, hg⟩ := hjudges
    cases hg with
    | part h => exact ⟨g, .entry hd h⟩
    | kind _ hk => cases hk
    | later _ _ hs => cases hs
  | ok kind => cases he

theorem compileDefinition_refuses {d : Definition}
    (he : (compileDefinition c d).outcome = .error e) :
    ∃ g, RefusesAll d.params .any (c.define d.name d.params).1 d.body e g := by
  have hjudges := @generateBody_judges d.params d.body (c.define d.name d.params).1 d.params.length
  unfold compileDefinition at he
  dsimp only at he
  unfold Emit.JudgesAll Emit.EndsIn at hjudges
  generalize generateBody d.params d.body d.params.length (c.define d.name d.params).1 = emission
    at he hjudges
  obtain ⟨code, own, out⟩ := emission
  cases out with
  | error e' =>
    obtain rfl := Except.error.inj he
    exact hjudges
  | ok kind => cases he

theorem compile_outcome_entry (h : definingArguments? f = none) :
    (compile c f).outcome = (compileEntry c f).outcome := by
  unfold compile
  rw [h]
  dsimp only
  split <;> rfl

theorem compile_outcome_definition {args : List Form}
    (h : definingArguments? f = some args) : (compile c f).outcome =
      match Definition.ofArguments f.range args with
      | .error e => .error e
      | .ok d => (compileDefinition c d).outcome := by
  unfold compile
  rw [h]
  dsimp only
  cases Definition.ofArguments f.range args with
  | error e => rfl
  | ok d =>
    dsimp only
    split <;> rfl

/-- A form that does not compile has a part that is to blame. -/
theorem compile_offends (he : (compile c f).outcome = .error e) : ∃ g, Offends c f e g := by
  cases hargs : definingArguments? f with
  | none => exact compileEntry_offends hargs ((compile_outcome_entry hargs).symm.trans he)
  | some args =>
    rw [compile_outcome_definition hargs] at he
    rcases Definition.ofArguments_cases c f args with
      ⟨nameForm, ps, v, names, body, rfl, hv, hps, hn, hd⟩ | ⟨e', g, hd, hg⟩
    · rw [hd] at he
      obtain ⟨g, hg⟩ := compileDefinition_refuses he
      exact ⟨g, .definition hargs (.body hv hps hn hg)⟩
    · rw [hd] at he
      obtain rfl := Except.error.inj he
      exact ⟨g, .definition hargs hg⟩

end

end ForkLisp.Compile
