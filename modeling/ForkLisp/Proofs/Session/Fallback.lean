/-
Operands that are calls, with and without tasks.

When no task is left in the pool, a call in operand position that was to become a task is made as a
plain call, in a layout of its own and with a join behind it. This makes no difference: two sessions
of the same forms, one that starts tasks but has none to give out and one that never starts any, do
the same form by form, until the stack of one of them overflows (`fallback_together`). Where this
happens may differ, for the layouts differ in size.

Neither session is compared with the other directly. Both conform to the reference evaluator, which
knows nothing of tasks, and as neither of them optimizes there is no fault that they may leave out.
-/
import ForkLisp.Proofs.Session.Optimizing

namespace ForkLisp.Session

open ForkLisp.Compile ForkLisp.Machine ForkLisp.Reader ForkLisp.Reference

/-- A form overflows the stack. -/
def State.Overflows (s : State) (f : Form) : Prop :=
  (s.evaluateForm f).outcome = .error (.fault .stackOverflow)

/-- A form is refused with the same error in two sessions, or compiles to a result of the same kind
and leaves contexts in which the same names stand for functions of the same kinds. -/
structure CompilesAlike (s s' : State) (f : Form) : Prop where
  outcome : Alike Compiled.Alike (compile s.context f).outcome (compile s'.context f).outcome
  kind : (generateBody [] [f] 0 s'.context).outcome = (generateBody [] [f] 0 s.context).outcome
  context : (compile s.context f).context.Resembles (compile s'.context f).context

/-- Two sessions go together: each form compiles alike and comes to an end in both, in the same way,
with the same lines, and with the same values in all globals, until the stack overflows in one of
them. What it prints and assigns on the way is the same, one thing after the other. -/
inductive Together : State → State → List Form → Prop where
  | nil {s s' : State} : Together s s' []
  | overflow {s s' : State} {f : Form} {fs : List Form} (hc : CompilesAlike s s' f)
      (hends : s.Ends f) (hends' : s'.Ends f) (h : s.Overflows f ∨ s'.Overflows f) :
      Together s s' (f :: fs)
  | cons {s s' : State} {f : Form} {fs : List Form} {es : List Effect}
      (hc : CompilesAlike s s' f) (hends : s.Ends f) (hends' : s'.Ends f)
      (he : s.Performs f es) (he' : s'.Performs f es)
      (ho : (s'.evaluateForm f).outcome = (s.evaluateForm f).outcome)
      (hp : (s'.evaluateForm f).printed = (s.evaluateForm f).printed)
      (hg : (s'.evaluateForm f).state.context.globals = (s.evaluateForm f).state.context.globals)
      (hs : Together (s.evaluateForm f).state (s'.evaluateForm f).state fs) :
      Together s s' (f :: fs)

section

variable {settings settings' : Settings} {s s' : State} {r : Definitions}

/-- Sessions at the same point compile a form alike. -/
theorem Twins.compilesAlike (h : Twins settings settings' s s' r) (f : Form) :
    CompilesAlike s s' f where
  outcome := (h.resembles.compile f).2
  kind := by
    have hout : Alike Eq _ _ := (@generateBody_matches [] [f] 0 0 _ _ h.resembles).outcome
    generalize (generateBody [] [f] 0 s.context).outcome = x at hout ⊢
    generalize (generateBody [] [f] 0 s'.context).outcome = y at hout ⊢
    cases x <;> cases y
    · exact congrArg Except.error (Eq.symm hout)
    · exact hout.elim
    · exact hout.elim
    · exact congrArg Except.ok (Eq.symm hout)
  context := (h.resembles.compile f).1

/-- Sessions at the same point go together if neither of them optimizes. -/
theorem Twins.together (h : Twins settings settings' s s' r) (hsolo : Solitary settings)
    (hsolo' : Solitary settings') (hopt : settings.optimize = false)
    (hopt' : settings'.optimize = false) (fs : List Form) : Together s s' fs := by
  induction fs generalizing s s' r with
  | nil => exact .nil
  | cons f fs ih =>
    have hc := h.compilesAlike f
    obtain ⟨hends, hends'⟩ := h.ends hsolo hsolo' f
    by_cases hover : s.Overflows f ∨ s'.Overflows f
    · exact .overflow hc hends hends' hover
    · obtain ⟨ho, ho'⟩ := not_or.mp hover
      obtain ⟨hout, hpr, hg, es, he, he'⟩ := h.evaluateForm_of_free (fun _ => False) hsolo hsolo'
        hopt (fun hyes => absurd (hopt'.symm.trans hyes) Bool.false_ne_true) (fun _ _ _ _ hx => hx)
        ho ho'
      exact .cons hc hends hends' he he' hout hpr hg (ih (h.next hsolo hsolo' hout hg))

end

/-- A new session in which calls in operand position are plain calls. -/
def calling (settings : Settings) : State :=
  .new { settings with spawn := false, optimize := false }

/-- A new session in which calls in operand position are to become tasks, and there are none. -/
def exhausted (settings : Settings) : State :=
  .new { settings with spawn := true, taskPoolSize := some 0, optimize := false }

/-- A call that was to become a task and is made as a plain call, for want of one, does what a
plain call does. -/
theorem fallback_together (settings : Settings) (fs : List Form) :
    Together (calling settings) (exhausted settings) fs :=
  (twins_new _ _).together (.inl rfl) (.inr rfl) rfl rfl fs

/-- The last of some forms that go together without overflowing the stack does the same in both
sessions. -/
theorem Together.performs {s s' : State} {fs : List Form} {f : Form}
    (h : Together s s' (fs ++ [f])) (ho : Avoids (· = .stackOverflow) s (fs ++ [f]))
    (ho' : Avoids (· = .stackOverflow) s' (fs ++ [f])) :
    ∃ es, (s.pass fs).Performs f es ∧ (s'.pass fs).Performs f es := by
  induction fs generalizing s s' with
  | nil =>
    cases h with
    | overflow _ _ _ h => exact (h.elim (ho.1 _ · rfl) (ho'.1 _ · rfl)).elim
    | cons _ _ _ he he' => exact ⟨_, he, he'⟩
  | cons g fs ih =>
    cases h with
    | overflow _ _ _ h => exact (h.elim (ho.1 _ · rfl) (ho'.1 _ · rfl)).elim
    | cons _ _ _ _ _ _ _ _ hs => exact ih hs ho.2 ho'.2

/-- The calls in the function are plain calls in one session, and in the other one calls in place of
tasks. -/
theorem fallback_together_counting :
    ((calling roomy).evaluateForms (counting ++ [counted])).outcome =
        .ok [.int 0, .symbol "f", .int 6] ∧
      ((exhausted roomy).evaluateForms (counting ++ [counted])).outcome =
        .ok [.int 0, .symbol "f", .int 6] ∧
      ∃ es, ((calling roomy).pass counting).Performs counted es ∧
        ((exhausted roomy).pass counting).Performs counted es := by
  have hcalling : ((calling roomy).evaluateForms (counting ++ [counted])).outcome =
      .ok [.int 0, .symbol "f", .int 6] := by cbv
  have hexhausted : ((exhausted roomy).evaluateForms (counting ++ [counted])).outcome =
      .ok [.int 0, .symbol "f", .int 6] := by cbv
  exact ⟨hcalling, hexhausted, (fallback_together roomy (counting ++ [counted])).performs
    (avoids_of_values _ _ hcalling) (avoids_of_values _ _ hexhausted)⟩

end ForkLisp.Session
