/-
Forms that do not compile.

Compiling a form can fail at any depth of it, when a name has been bound, a function registered and
globals created already. All of that is taken back (`compile_of_error`): the name stands for what it
stood for, and the number of the function is free again. So the forms that come later compile to
what they compile to without the one that failed (`refused_leaves_no_trace`).
-/
import ForkLisp.Proofs.Session.Lockstep

namespace ForkLisp.Session

open ForkLisp.Code ForkLisp.Compile ForkLisp.Machine ForkLisp.Reader ForkLisp.Reference

variable {settings : Settings} {c : Context} {f : Form}

/-- The names of the functions of a session are in order. -/
theorem Context.Evolves.sorted (h : Context.Evolves settings c) : c.Sorted := by
  induction h with
  | new => exact Context.sorted_new settings
  | compile _ f ih => exact compile_sorted ih f
  | @tabulate c _ ih =>
    unfold Context.functionTable
    split
    · exact ih
    · exact ih
  | assign _ _ ih => exact ih

/-- A form that does not compile leaves the context as it was. -/
theorem compile_of_error (hs : c.Sorted) {e : CompileError}
    (he : (compile c f).outcome = .error e) :
    (compile c f).context = c := by
  have hnames := compile_names hs f
  rw [he] at hnames
  have hr := compile_arises c f
  generalize compile c f = r at he hnames hr
  cases hr with
  | @failed own log e h =>
    obtain ⟨settings, functions, names, globals, table⟩ := c
    obtain ⟨settings', functions', names', globals', table'⟩ := own
    obtain rfl : settings' = settings := h.settings
    obtain rfl : functions' = functions := h.functions
    obtain rfl : names' = names := hnames
    obtain rfl : globals' = globals := h.globals
    obtain rfl : table' = table := h.table
    rfl
  | defined | entry => exact absurd he (by simp)

/-- What forms compile to, one after the other. -/
def outcomes (c : Context) : List Form → List (Except CompileError Compiled)
  | [] => []
  | f :: fs => (compile c f).outcome :: outcomes (compile c f).context fs

/-- Whatever a session has compiled and run before, a form that does not compile leaves the context
as it was: the functions with their kinds and code, what the names stand for, the globals with their
values, and the table of functions. Later forms compile as if it had never been submitted, and they
are run in the same state. -/
theorem refused_leaves_no_trace (hc : Context.Evolves settings c) {e : CompileError}
    (he : (compile c f).outcome = .error e) :
    (compile c f).context = c ∧ (∀ fs, outcomes c (f :: fs) = .error e :: outcomes c fs) ∧
      ∀ scheduler, (State.evaluateForm ⟨c, scheduler⟩ f).state = ⟨c, scheduler⟩ := by
  have hsame := compile_of_error hc.sorted he
  refine ⟨hsame, fun fs => ?_, fun scheduler => ?_⟩
  · rw [outcomes, he, hsame]
  · unfold State.evaluateForm
    simp only [he]
    rw [hsame]

/-- A session with a function and a global. -/
def functionAndGlobal : Context :=
  (compile (compile (.new single) (formOf "(defun f (x) x)")).context (formOf "(setq y 5)")).context

/-- A redefinition that fails late: it has set a global that exists and one that is new, and has
called itself once before it does so with an argument too many. -/
theorem refused_leaves_no_trace_redefinition :
    let f := formOf "(defun f () (setq y 1) (setq z (f)) (f 1))"
    (compile functionAndGlobal f).outcome =
        .error (.argumentCount ⟨⟨1, 37⟩, ⟨1, 42⟩⟩ "f" 0 1) ∧
      (compile functionAndGlobal f).context = functionAndGlobal ∧
      (∀ fs, outcomes functionAndGlobal (f :: fs) =
        .error (.argumentCount ⟨⟨1, 37⟩, ⟨1, 42⟩⟩ "f" 0 1) :: outcomes functionAndGlobal fs) ∧
      ∀ scheduler, (State.evaluateForm ⟨functionAndGlobal, scheduler⟩ f).state =
        ⟨functionAndGlobal, scheduler⟩ := by
  have he : (compile functionAndGlobal
      (formOf "(defun f () (setq y 1) (setq z (f)) (f 1))")).outcome =
      .error (.argumentCount ⟨⟨1, 37⟩, ⟨1, 42⟩⟩ "f" 0 1) := by cbv
  exact ⟨he, refused_leaves_no_trace (.compile (.compile .new _) _) he⟩

end ForkLisp.Session
