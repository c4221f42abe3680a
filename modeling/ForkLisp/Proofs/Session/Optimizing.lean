/-
Sessions with and without optimizing.

Two sessions of the same forms, of which one optimizes, go side by side as long as no form fails
over the type of an operand or overflows the stack (`optimize_side_by_side`). The optimizer leaves
out and rewrites operations without regard to the types of their operands, so that a fault about
types may disappear (`optimize_loses_mismatch`). It does not if it is one of a remainder, or of a
division other than by one (`optimize_keeps_strict_mismatch`). The optimizer never makes a fault
about types (`optimize_adds_no_mismatch`).
-/
import Mathlib
import ForkLisp.Proofs.Session.Running

namespace ForkLisp.Session

open ForkLisp.Compile ForkLisp.Machine ForkLisp.Reader ForkLisp.Reference

/-- A fault about the type of an operand. -/
def IsMismatch (e : Fault) : Prop := ∃ got, e = .typeMismatch got

/-- A failure that the optimizer may leave out: one about the type of an operand, and not of a
strict operator. -/
def IsLax (e : Failure) : Prop := IsMismatch e.fault ∧ e.strict = false

theorem isLax_mismatch (got : Tag) : IsLax (.lax (.typeMismatch got)) := ⟨⟨got, rfl⟩, rfl⟩

/-- No form of a session ends with a certain fault. -/
def Avoids (bad : Fault → Prop) : State → List Form → Prop
  | _, [] => True
  | s, f :: fs => (∀ e, (s.evaluateForm f).outcome = .error (.fault e) → ¬ bad e) ∧
      Avoids bad (s.evaluateForm f).state fs

/-- Two sessions go side by side: each form comes to an end in both, in the same way, with the same
lines, and with the same values in all globals. What it prints and assigns on the way is the same,
one thing after the other. -/
inductive SideBySide : State → State → List Form → Prop where
  | nil {s s' : State} : SideBySide s s' []
  | cons {s s' : State} {f : Form} {fs : List Form} {es : List Effect} (hends : s.Ends f)
      (hends' : s'.Ends f) (he : s.Performs f es) (he' : s'.Performs f es)
      (ho : (s'.evaluateForm f).outcome = (s.evaluateForm f).outcome)
      (hp : (s'.evaluateForm f).printed = (s.evaluateForm f).printed)
      (hg : (s'.evaluateForm f).state.context.globals = (s.evaluateForm f).state.context.globals)
      (hs : SideBySide (s.evaluateForm f).state (s'.evaluateForm f).state fs) :
      SideBySide s s' (f :: fs)

/-- Two sessions are at the same point. -/
structure Twins (settings settings' : Settings) (s s' : State) (r : Definitions) : Prop where
  left : Sound settings s r
  right : Sound settings' s' r
  resembles : s.context.Resembles s'.context
  globals : s'.context.globals = s.context.globals

section

variable {settings settings' : Settings} {s s' : State} {r : Definitions}

theorem Twins.contents (h : Twins settings settings' s s' r) : s'.contents = s.contents := by
  unfold State.contents
  rw [h.globals]

/-- Running a form changes the values of globals only. -/
theorem evaluateForm_resembles (s : State) (hs : Sound settings s r) (f : Form) :
    (compile s.context f).context.Resembles (s.next f).context := by
  have htraced := (hs.compiled f).traced
  unfold State.next State.evaluateForm
  dsimp only
  split
  · exact .refl _
  · exact .refl _
  · rename_i code _
    refine ⟨?_, ?_, ?_⟩
    all_goals
      dsimp only [State.run, Evaluation.after]
      rw [functionTable_eq htraced]
    · rfl
    · rfl
    · refine Array.ext_getElem? fun i => ?_
      rw [Array.getElem?_map, Array.getElem?_map, withGlobalValues_getElem?, Option.map_map]
      rfl

/-- Sessions at the same point are still so after a form, if the form leaves the same in both. -/
theorem Twins.next (h : Twins settings settings' s s' r) (hsolo : Solitary settings)
    (hsolo' : Solitary settings') {f : Form}
    (ho : (s'.evaluateForm f).outcome = (s.evaluateForm f).outcome)
    (hg : (s'.evaluateForm f).state.context.globals = (s.evaluateForm f).state.context.globals) :
    Twins settings settings' (s.evaluateForm f).state (s'.evaluateForm f).state
      (r.learn f (s.evaluateForm f).outcome) where
  left := h.left.keeps hsolo f
  right := ho ▸ h.right.keeps hsolo' f
  resembles := by
    have hl := evaluateForm_resembles s h.left f
    have hr := evaluateForm_resembles s' h.right f
    exact hl.symm.trans ((h.resembles.compile f).1.trans hr)
  globals := hg

/-- Globals with the same names and values are the same. -/
theorem globals_eq_of_holds {t t' : State} {mem : Memory} (hr : t.context.Resembles t'.context)
    (h : Holds t mem) (h' : Holds t' mem) : t'.context.globals = t.context.globals := by
  refine Array.ext_getElem? fun i => ?_
  have hnames := congrArg (·[i]?) hr.globals
  simp only [Array.getElem?_map] at hnames
  cases hu : t.context.globals[i]? with
  | none =>
    rw [hu, Option.map_none] at hnames
    exact Option.map_eq_none_iff.mp hnames
  | some u =>
    rw [hu, Option.map_some] at hnames
    obtain ⟨u', hu', hname⟩ := Option.map_eq_some_iff.mp hnames
    rw [hu']
    have hv := h u (Array.mem_of_getElem? hu)
    have hv' := h' u' (Array.mem_of_getElem? hu')
    rw [hname] at hv'
    exact congrArg some (by cases u; cases u'; simp_all)

/-- Two runs of the same computation that avoid the faults which leave them free end alike. -/
theorem Reports.alike {free : Failure → Prop} {x : Eval Datum} {mem : Memory}
    {acts acts' : List Action → Prop} {e e' : Evaluation Cause Value}
    (h : Reports (fun _ => False) x mem acts e) (h' : Reports free x mem acts' e')
    (hm : ∀ error mem', x mem = some (.error error, mem') →
      e.outcome = .error (.fault error.fault) → ¬ free error)
    (ho : e.outcome ≠ .error (.fault .stackOverflow))
    (ho' : e'.outcome ≠ .error (.fault .stackOverflow)) :
    e'.outcome = e.outcome ∧ ∃ mem', e.printed = mem'.printed ∧ e'.printed = mem'.printed ∧
      Holds e.state mem' ∧ Holds e'.state mem' ∧ acts mem'.actions ∧ acts' mem'.actions := by
  -- the computation ends as the first of the two runs does, and then so does the second
  cases h with
  | value hp hout hpr hg ha =>
    have hx := hp.exact_value
    cases h' with
    | value hp' hout' hpr' hg' ha' =>
      rcases hp'.of_ok hx with heq | ⟨_, heq⟩
      · cases heq
        exact ⟨hout'.trans hout.symm, _, hpr, hpr', hg, hg', ha, ha'⟩
      · cases heq
    | fault hp' hout' =>
      rcases hp'.of_ok hx with heq | ⟨_, heq⟩
      · cases heq
      · cases heq
        exact absurd hout' ho'
  | fault hp hout hpr hg ha =>
    have hne : ∀ error, e.outcome = .error (.fault error) → error ≠ .stackOverflow :=
      fun error he heq => ho (heq ▸ he)
    obtain ⟨strict, hx⟩ := hp.exact_fault.resolve_left (hne _ hout)
    have hkept := hm _ _ hx hout
    cases h' with
    | value hp' =>
      rcases hp'.of_error hx hkept with heq | ⟨_, heq⟩
      · cases heq
      · cases heq
    | fault hp' hout' hpr' hg' ha' =>
      rcases hp'.of_error hx hkept with heq | ⟨_, heq⟩
      · cases heq
        exact ⟨hout'.trans hout.symm, _, hpr, hpr', hg, hg', ha (hne _ hout), ha' (hne _ hout)⟩
      · cases heq
        exact absurd hout' ho'

/-- A form that does not compile fails with the error of the compiler. -/
theorem evaluateForm_refused {f : Form} {error : CompileError}
    (h : (compile s.context f).outcome = .error error) :
    (s.evaluateForm f).outcome = .error (.compile error) := by
  unfold State.evaluateForm
  dsimp only
  rw [h]

theorem Reports.not_refused {free : Failure → Prop} {x : Eval Datum} {mem : Memory}
    {acts : List Action → Prop} {e : Evaluation Cause Value} (h : Reports free x mem acts e)
    (error : CompileError) : e.outcome ≠ .error (.compile error) := by
  intro he
  cases h with
  | value _ ho => cases ho.symm.trans he
  | fault _ ho => cases ho.symm.trans he

/-- A form is refused in both of two sessions at the same point, or in none. -/
theorem Twins.refused (h : Twins settings settings' s s' r) {f : Form} {error : CompileError} :
    (compile s.context f).outcome = .error error ↔
      (compile s'.context f).outcome = .error error := by
  have halike := (h.resembles.compile f).2
  constructor
  · intro he
    rw [he] at halike
    cases he' : (compile s'.context f).outcome with
    | error error' =>
      rw [he'] at halike
      exact congrArg Except.error (show error = error' from halike).symm
    | ok => rw [he'] at halike; exact halike.elim
  · intro he
    rw [he] at halike
    cases he' : (compile s.context f).outcome with
    | error error' =>
      rw [he'] at halike
      exact congrArg Except.error (show error' = error from halike)
    | ok => rw [he'] at halike; exact halike.elim

/-- Sessions at the same point evaluate a form alike. The first does not optimize, and the form
avoids the faults that the second is free to leave out. -/
theorem Twins.evaluateForm_of_free (h : Twins settings settings' s s' r) (free : Failure → Prop)
    (hsolo : Solitary settings) (hsolo' : Solitary settings') (hopt : settings.optimize = false)
    (hopt' : settings'.optimize = true → ∀ got, free (.lax (.typeMismatch got))) {f : Form}
    (hm : ∀ e mem, r.evaluate f ⟨s.contents, []⟩ = some (.error e, mem) →
      (s.evaluateForm f).outcome = .error (.fault e.fault) → ¬ free e)
    (ho : (s.evaluateForm f).outcome ≠ .error (.fault .stackOverflow))
    (ho' : (s'.evaluateForm f).outcome ≠ .error (.fault .stackOverflow)) :
    (s'.evaluateForm f).outcome = (s.evaluateForm f).outcome ∧
      (s'.evaluateForm f).printed = (s.evaluateForm f).printed ∧
      (s'.evaluateForm f).state.context.globals = (s.evaluateForm f).state.context.globals ∧
      ∃ es, s.Performs f es ∧ s'.Performs f es := by
  have hr := (evaluateForm_resembles s h.left f).symm.trans
    ((h.resembles.compile f).1.trans (evaluateForm_resembles s' h.right f))
  obtain ⟨-, he⟩ := h.left.evaluateForm (fun _ => False) hsolo
    (fun hyes => absurd (hopt.symm.trans hyes) Bool.false_ne_true) f
  obtain ⟨-, he'⟩ := h.right.evaluateForm free hsolo' hopt' f
  have hcontents := h.contents
  -- what the two sessions come to is of the same sort, and for a value the evaluator decides
  cases he with
  | refused herror hout hpr hg =>
    have herror' := h.refused.mp herror
    have hout' := evaluateForm_refused herror'
    cases he' with
    | refused _ _ hpr' hg' =>
      have hnone := performs_nil fun code hcode => nomatch herror.symm.trans hcode
      have hnone' := performs_nil fun code hcode => nomatch herror'.symm.trans hcode
      exact ⟨hout'.trans hout.symm, hpr'.trans hpr.symm, by rw [hg', hg, h.globals], [], hnone,
        hnone'⟩
    | defined _ hok => cases hok.symm.trans hout'
    | evaluated _ _ he' => exact absurd hout' (he'.not_refused _)
  | defined hd hout hpr hg =>
    cases he' with
    | refused herror' => cases hout.symm.trans (evaluateForm_refused (h.refused.mpr herror'))
    | defined hd' hout' hpr' hg' =>
      cases hd.symm.trans hd'
      rw [hcontents] at hg'
      exact ⟨hout'.trans hout.symm, hpr'.trans hpr.symm, globals_eq_of_holds hr hg hg', [],
        performs_nil (not_entry_of_definition hd), performs_nil (not_entry_of_definition hd)⟩
    | evaluated hd' => cases hd.symm.trans hd'
  | evaluated hd _ he =>
    cases he' with
    | refused herror' =>
      exact absurd (evaluateForm_refused (h.refused.mpr herror')) (he.not_refused _)
    | defined hd' => cases hd.symm.trans hd'
    | evaluated _ _ he' =>
      rw [hcontents] at he'
      obtain ⟨hout, mem', hpr, hpr', hg, hg', ⟨es, hes, hshows⟩, es', hes', hshows'⟩ :=
        he.alike he' hm ho ho'
      have hsame : es' = es := shows_unique (h.left.compiled f).traced.distinct
        (h.resembles.compile f).1.globals hshows hshows'
      exact ⟨hout, hpr'.trans hpr.symm, globals_eq_of_holds hr hg hg', es, hes, hsame ▸ hes'⟩

/-- Sessions at the same point, of which the second optimizes, evaluate a form alike. -/
theorem Twins.evaluateForm (h : Twins settings settings' s s' r) (hsolo : Solitary settings)
    (hsolo' : Solitary settings') (hopt : settings.optimize = false) {f : Form}
    (hm : ∀ e, (s.evaluateForm f).outcome = .error (.fault e) →
      ¬ (IsMismatch e ∨ e = .stackOverflow))
    (ho : ∀ e, (s'.evaluateForm f).outcome = .error (.fault e) → e ≠ .stackOverflow) :
    (s'.evaluateForm f).outcome = (s.evaluateForm f).outcome ∧
      (s'.evaluateForm f).printed = (s.evaluateForm f).printed ∧
      (s'.evaluateForm f).state.context.globals = (s.evaluateForm f).state.context.globals ∧
      ∃ es, s.Performs f es ∧ s'.Performs f es :=
  h.evaluateForm_of_free IsLax hsolo hsolo' hopt (fun _ => isLax_mismatch)
    (fun e _ _ he hx => hm e.fault he (.inl hx.1)) (fun he => hm _ he (.inr rfl))
    fun he => ho _ he rfl

/-- Every form comes to an end in sessions at the same point. -/
theorem Twins.ends (h : Twins settings settings' s s' r) (hsolo : Solitary settings)
    (hsolo' : Solitary settings') (f : Form) : s.Ends f ∧ s'.Ends f :=
  ⟨(h.left.evaluateForm (fun _ => True) hsolo (fun _ _ => trivial) f).2.ends,
    (h.right.evaluateForm (fun _ => True) hsolo' (fun _ _ => trivial) f).2.ends⟩

/-- Sessions at the same point, of which the second optimizes, go side by side. -/
theorem Twins.sideBySide (h : Twins settings settings' s s' r) (hsolo : Solitary settings)
    (hsolo' : Solitary settings') (hopt : settings.optimize = false) (fs : List Form)
    (hm : Avoids (fun e => IsMismatch e ∨ e = .stackOverflow) s fs)
    (ho : Avoids (· = .stackOverflow) s' fs) : SideBySide s s' fs := by
  induction fs generalizing s s' r with
  | nil => exact .nil
  | cons f fs ih =>
    obtain ⟨hm, hms⟩ := hm
    obtain ⟨ho, hos⟩ := ho
    obtain ⟨hout, hpr, hg, es, he, he'⟩ := h.evaluateForm hsolo hsolo' hopt hm ho
    obtain ⟨hends, hends'⟩ := h.ends hsolo hsolo' f
    exact .cons hends hends' he he' hout hpr hg (ih (h.next hsolo hsolo' hout hg) hms hos)

/-- Sessions at the same point that go side by side are at the same point afterwards. -/
theorem Twins.pass (h : Twins settings settings' s s' r) (hsolo : Solitary settings)
    (hsolo' : Solitary settings') {fs : List Form} (hs : SideBySide s s' fs) :
    Twins settings settings' (s.pass fs) (s'.pass fs) (s.follow r fs).2 := by
  induction hs generalizing r with
  | nil => exact h
  | cons _ _ _ _ ho _ hg _ ih => exact ih (h.next hsolo hsolo' ho hg)

/-- Forms that all have values avoid every fault. -/
theorem avoids_of_values (bad : Fault → Prop) {fs : List Form} (vs : List Value)
    (h : (s.evaluateForms fs).outcome = .ok vs) : Avoids bad s fs := by
  induction fs generalizing s vs with
  | nil => trivial
  | cons f fs ih =>
    unfold State.evaluateForms at h
    dsimp only at h
    split at h
    · cases h
    · rename_i v hv
      have hnone : ∀ e, (s.evaluateForm f).outcome = .error (.fault e) → ¬ bad e := by
        rw [hv]
        rintro e ⟨⟩
      refine ⟨hnone, ?_⟩
      cases hrest : ((s.evaluateForm f).state.evaluateForms fs).outcome with
      | ok vs => exact ih vs hrest
      | error e =>
        have h : (((s.evaluateForm f).state.evaluateForms fs).outcome.map (v :: ·)) = .ok vs := h
        rw [hrest] at h
        cases h

end

/-- New sessions are at the same point. -/
theorem twins_new (settings settings' : Settings) :
    Twins settings settings' (.new settings) (.new settings') .empty where
  left := sound_new settings
  right := sound_new settings'
  resembles := ⟨rfl, rfl, rfl⟩
  globals := rfl

/-- A new session that does not optimize. -/
def plain (settings : Settings) : State := .new { settings with optimize := false }

/-- A new session that optimizes. -/
def optimizing (settings : Settings) (depth budget : Nat) : State :=
  .new { settings with optimize := true, inlineDepth := depth, codeSizeBudget := budget }

theorem twins_plain (settings : Settings) (depth budget : Nat) :
    Twins { settings with optimize := false }
      { settings with optimize := true, inlineDepth := depth, codeSizeBudget := budget }
      (plain settings) (optimizing settings depth budget) .empty :=
  twins_new _ _

/-- The sessions agree on forms that all have values. -/
theorem sideBySide_single {text : String} (vs : List Value)
    (h : ((plain single).evaluateForms (formsOf text)).outcome = .ok vs)
    (h' : ((optimizing single 2 400).evaluateForms (formsOf text)).outcome = .ok vs) :
    SideBySide (plain single) (optimizing single 2 400) (formsOf text) :=
  (twins_plain single 2 400).sideBySide (.inl rfl) (.inl rfl) rfl _ (avoids_of_values _ vs h)
    (avoids_of_values _ vs h')

/-- After some forms a session fails at a strict operator in the next one, as the reference
evaluator tells. -/
def FailsStrictly (settings : Settings) (before : List Form) (f : Form) : Prop :=
  let (s, r) := (plain settings).follow .empty before
  ∃ e mem, r.evaluate f ⟨s.contents, []⟩ = some (.error e, mem) ∧ e.strict = true

/-- The optimizer keeps the faults about types of strict operators: after forms on which the
sessions agree, where the code as it was generated fails over the type of an operand of a remainder,
or of a division other than by one, the optimized code fails in the same way, and does the same
before it fails, unless its stack overflows. -/
theorem optimize_keeps_strict_mismatch (settings : Settings) (depth budget : Nat)
    (before : List Form) (f : Form) (hsolo : Solitary settings)
    (hs : SideBySide (plain settings) (optimizing settings depth budget) before)
    {e : Fault} (he : IsMismatch e)
    (h : (((plain settings).pass before).evaluateForm f).outcome = .error (.fault e))
    (hstrict : FailsStrictly settings before f)
    (ho : (((optimizing settings depth budget).pass before).evaluateForm f).outcome ≠ .error
      (.fault .stackOverflow)) :
    (((optimizing settings depth budget).pass before).evaluateForm f).outcome =
        .error (.fault e) ∧
      SideBySide ((plain settings).pass before) ((optimizing settings depth budget).pass before)
        [f] := by
  have htwins := (twins_plain settings depth budget).pass hsolo hsolo hs
  have hfollow := State.follow_fst (plain settings) .empty before
  unfold FailsStrictly at hstrict
  generalize (plain settings).follow .empty before = x at htwins hfollow hstrict
  obtain ⟨s, r⟩ := x
  obtain rfl : s = _ := hfollow
  obtain ⟨failure, mem, hfailure, hstrict⟩ := hstrict
  -- the evaluator fails in one way only, and that one the optimizer may not leave out
  have hkept : ∀ e' mem', r.evaluate f ⟨((plain settings).pass before).contents, []⟩ =
      some (.error e', mem') → ¬ IsLax e' := by
    rintro e' mem' he' ⟨-, hlax⟩
    cases hfailure.symm.trans he'
    exact Bool.false_ne_true (hlax.symm.trans hstrict)
  have hover : (((plain settings).pass before).evaluateForm f).outcome ≠ .error
      (.fault .stackOverflow) := by
    obtain ⟨got, rfl⟩ := he
    rw [h]
    nofun
  obtain ⟨hout, hpr, hg, es, hes, hes'⟩ := htwins.evaluateForm_of_free IsLax hsolo hsolo rfl
    (fun _ => isLax_mismatch) (fun e' mem' he' _ => hkept e' mem' he') hover ho
  obtain ⟨hends, hends'⟩ := htwins.ends hsolo hsolo f
  exact ⟨hout.trans h, .cons hends hends' hes hes' hout hpr hg .nil⟩

/-- Dividing by a truth value fails strictly, although the quotient is not used. -/
theorem failsStrictly_quotient :
    FailsStrictly single (formsOf "(defun f (x) (/ 8 x) 5)") (formOf "(f t)") := by
  have hbefore : formsOf "(defun f (x) (/ 8 x) 5)" = [formOf "(defun f (x) (/ 8 x) 5)"] := by cbv
  have hdefined : ((plain single).evaluateForm (formOf "(defun f (x) (/ 8 x) 5)")).outcome =
      .ok (.symbol "f") := by cbv
  have hdefinition : definition? (formOf "(defun f (x) (/ 8 x) 5)") = some ⟨"f", ["x"],
      [.list ⟨⟨1, 14⟩, ⟨1, 21⟩⟩ [.symbol ⟨⟨1, 15⟩, ⟨1, 16⟩⟩ "/", .int ⟨⟨1, 17⟩, ⟨1, 18⟩⟩ 8,
        .symbol ⟨⟨1, 19⟩, ⟨1, 20⟩⟩ "x"], .int ⟨⟨1, 22⟩, ⟨1, 23⟩⟩ 5]⟩ := by cbv
  have hcall : formOf "(f t)" = .list ⟨⟨1, 1⟩, ⟨1, 6⟩⟩
      [.symbol ⟨⟨1, 2⟩, ⟨1, 3⟩⟩ "f", .symbol ⟨⟨1, 4⟩, ⟨1, 5⟩⟩ "t"] := by cbv
  unfold FailsStrictly
  rw [hbefore, State.follow, State.follow, hdefined, Definitions.learn_ok hdefinition, hcall]
  show ∃ e mem, Reference.evaluate _ _ _ _ ⟨State.contents _, []⟩ = some (.error e, mem) ∧ _
  rw [evaluate_call rfl (show Bindings.find? _ "f" = some 0 from rfl), evaluateAll_cons,
    evaluateAll_nil, evaluate_truth (show isTruthName "t" = true from rfl)]
  simp only [pure_bind]
  rw [evaluateCall_eq (c := ⟨["x"], _, _⟩) rfl, evaluateBody_more,
    evaluate_arith (show Builtin.ofName? "/" = some (.arith .div) from rfl), evaluateAll_cons,
    evaluateAll_cons, evaluateAll_nil, evaluate_int, evaluate_param (v := .bool true) rfl rfl]
  exact ⟨⟨.typeMismatch .bool, true⟩, _, rfl, rfl⟩

theorem optimize_keeps_strict_mismatch_quotient :
    (((optimizing single 2 400).pass (formsOf "(defun f (x) (/ 8 x) 5)")).evaluateForm
        (formOf "(f t)")).outcome = .error (.fault (.typeMismatch .bool)) :=
  (optimize_keeps_strict_mismatch single 2 400 _ _ (.inl rfl)
    (sideBySide_single [.symbol "f"] (by cbv) (by cbv)) ⟨.bool, rfl⟩ (by cbv)
    failsStrictly_quotient (by
      have hmismatch : (((optimizing single 2 400).pass
          (formsOf "(defun f (x) (/ 8 x) 5)")).evaluateForm (formOf "(f t)")).outcome =
            .error (.fault (.typeMismatch .bool)) := by cbv
      rw [hmismatch]
      simp)).1

/-- The optimizer makes no fault about types: after forms on which the sessions agree, where the
optimized code fails over the type of an operand, the code as it was generated does so too, unless
its stack overflows. -/
theorem optimize_adds_no_mismatch (settings : Settings) (depth budget : Nat) (before : List Form)
    (f : Form) (hsolo : Solitary settings)
    (hs : SideBySide (plain settings) (optimizing settings depth budget) before)
    {e : Fault} (he : IsMismatch e)
    (h : (((optimizing settings depth budget).pass before).evaluateForm f).outcome =
      .error (.fault e))
    (ho : (((plain settings).pass before).evaluateForm f).outcome ≠ .error
      (.fault .stackOverflow)) :
    ∃ e', IsMismatch e' ∧
      (((plain settings).pass before).evaluateForm f).outcome = .error (.fault e') := by
  have htwins := (twins_plain settings depth budget).pass hsolo hsolo hs
  by_contra hno
  have hm : ∀ e', (((plain settings).pass before).evaluateForm f).outcome = .error (.fault e') →
      ¬ (IsMismatch e' ∨ e' = .stackOverflow) := by
    rintro e' he' (hm | rfl)
    · exact hno ⟨e', hm, he'⟩
    · exact ho he'
  have ho' : ∀ e', (((optimizing settings depth budget).pass before).evaluateForm f).outcome =
      .error (.fault e') → e' ≠ .stackOverflow := by
    rintro e' he' rfl
    obtain ⟨got, rfl⟩ := he
    cases he'.symm.trans h
  obtain ⟨hsame, -⟩ := htwins.evaluateForm hsolo hsolo rfl hm ho'
  exact hno ⟨e, he, hsame ▸ h⟩

example :
    ∃ e', IsMismatch e' ∧
      (((plain single).pass (formsOf "(setq b t)")).evaluateForm (formOf "(+ b 1)")).outcome =
        .error (.fault e') :=
  optimize_adds_no_mismatch single 2 400 _ _ (.inl rfl)
    (sideBySide_single [.bool true] (by cbv) (by cbv)) ⟨.bool, rfl⟩ (by cbv) (by
      have hmismatch : (((plain single).pass (formsOf "(setq b t)")).evaluateForm
          (formOf "(+ b 1)")).outcome = .error (.fault (.typeMismatch .bool)) := by cbv
      rw [hmismatch]
      simp)

/-- The optimizer may lose a fault about types: a sum whose result is not used is left out, although
it fails for an operand that is a truth value. -/
theorem optimize_loses_mismatch :
    ¬ ∀ (settings : Settings) (depth budget : Nat) (before : List Form) (f : Form) (e : Fault),
      settings.spawn = false →
      SideBySide (plain settings) (optimizing settings depth budget) before → IsMismatch e →
      (((plain settings).pass before).evaluateForm f).outcome = .error (.fault e) →
      (((optimizing settings depth budget).pass before).evaluateForm f).outcome ≠
        .error (.fault .stackOverflow) →
      ∃ e', IsMismatch e' ∧
        (((optimizing settings depth budget).pass before).evaluateForm f).outcome =
          .error (.fault e') := by
  intro hall
  have hvalue : (((optimizing single 2 400).pass (formsOf "(defun f (x) (+ x 1) 5)")).evaluateForm
      (formOf "(f t)")).outcome = .ok (.int 5) := by cbv
  obtain ⟨e', -, he'⟩ := hall single 2 400 (formsOf "(defun f (x) (+ x 1) 5)") (formOf "(f t)")
    (.typeMismatch .bool) rfl (sideBySide_single [.symbol "f"] (by cbv) (by cbv)) ⟨.bool, rfl⟩
    (by cbv) (by simp [hvalue])
  cases hvalue.symm.trans he'

end ForkLisp.Session
