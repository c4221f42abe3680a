/-
Sessions against the reference evaluator.

Without optimizing and without tasks a form comes to what the reference evaluator makes of it, as
far as the stack suffices, whatever forms were evaluated before (`evaluateForm_conforms`).
-/
import Mathlib
import ForkLisp.Proofs.Session.Running

namespace ForkLisp.Session

open ForkLisp.Compile ForkLisp.Machine ForkLisp.Reader ForkLisp.Reference

/-- What comes of a form that is evaluated in the state `s`. It does not compile, and then nothing
changes; it defines a function; it ends as the reference evaluator says, with the value or the
fault, the lines and the globals that this one has, after the same assignments and lines one after
the other; or the stack overflows. -/
inductive Conforms (s : State) (r : Definitions) (f : Form)
    (e : Evaluation Cause Value) : Prop where
  | refused {error : CompileError} (h : (compile s.context f).outcome = .error error)
      (ho : e.outcome = .error (.compile error)) (hp : e.printed = [])
      (hg : e.state.context.globals = s.context.globals)
  | defined {d : Definition} (h : definition? f = some d) (ho : e.outcome = .ok (.symbol d.name))
      (hp : e.printed = []) (hg : Holds e.state ⟨s.contents, []⟩)
  | value {v : Datum} {mem : Memory} (h : r.evaluate f ⟨s.contents, []⟩ = some (.ok v, mem))
      (ho : e.outcome = .ok v.value) (hp : e.printed = mem.printed) (hg : Holds e.state mem)
      (ha : s.Acts f mem.actions)
  | fault {failure : Failure} {mem : Memory}
      (h : r.evaluate f ⟨s.contents, []⟩ = some (.error failure, mem))
      (ho : e.outcome = .error (.fault failure.fault)) (hp : e.printed = mem.printed)
      (hg : Holds e.state mem) (ha : failure.fault ≠ .stackOverflow → s.Acts f mem.actions)
  | overflow (h : definition? f = none) (ho : e.outcome = .error (.fault .stackOverflow))

theorem Evaluates.conforms {s : State} {r : Definitions} {f : Form} {e : Evaluation Cause Value}
    (h : Evaluates (fun _ => False) s r f e) : Conforms s r f e := by
  cases h with
  | refused h ho hp hg => exact .refused h ho hp hg
  | defined h ho hp hg => exact .defined h ho hp hg
  | evaluated hd _ he =>
    cases he with
    | value hv ho hp hg ha => exact .value hv.exact_value ho hp hg ha
    | fault hv ho hp hg ha =>
      rcases hv.exact_fault with rfl | ⟨strict, hx⟩
      · exact .overflow hd ho
      · exact .fault hx ho hp hg ha

/-- Without optimizing and without tasks a form comes to what the reference evaluator makes of it,
whatever forms were evaluated before. -/
theorem evaluateForm_conforms (settings : Settings) (before : List Form) (f : Form) :
    let (s, r) :=
      (State.new { settings with optimize := false, spawn := false }).follow .empty before
    s.Ends f ∧ Conforms s r f (s.evaluateForm f) := by
  have hsolo : Solitary { settings with optimize := false, spawn := false } := .inl rfl
  have hsound := (sound_new _).follow hsolo before
  have he :=
    (hsound.evaluateForm (fun _ => False) hsolo (fun hopt => absurd hopt Bool.false_ne_true) f).2
  exact ⟨he.ends, he.conforms⟩

/-- The reference evaluator comes to what the machine comes to. -/
theorem evaluateForm_conforms_counting :
    let (s, r) :=
      (State.new { roomy with optimize := false, spawn := false }).follow .empty counting
    ∃ mem, r.evaluate counted ⟨s.contents, []⟩ = some (.ok (.int 6), mem) ∧
      mem.printed = ["6"] ∧ mem.globals "y" = .int 3 := by
  have hconforms := (evaluateForm_conforms roomy counting counted).2
  have hpass := State.follow_fst (.new { roomy with optimize := false, spawn := false }) .empty
    counting
  generalize (State.new { roomy with optimize := false, spawn := false }).follow .empty counting =
    x at hconforms hpass ⊢
  obtain ⟨s, r⟩ := x
  obtain rfl : s = _ := hpass
  have hrun : (((State.new { roomy with optimize := false, spawn := false }).pass
      counting).evaluateForm counted).outcome = .ok (.int 6) := by cbv
  have hglobals : (((State.new { roomy with optimize := false, spawn := false }).pass
      counting).evaluateForm counted).state.context.globals = #[⟨"y", .int 3⟩] := by cbv
  have hprinted : (((State.new { roomy with optimize := false, spawn := false }).pass
      counting).evaluateForm counted).printed = ["6"] := by cbv
  cases hconforms with
  | value h ho hp hg =>
    obtain rfl := value_inj (u := .int 6) (Except.ok.inj (hrun.symm.trans ho))
    refine ⟨_, h, hp.symm.trans hprinted, ?_⟩
    have hy := hg ⟨"y", .int 3⟩ (by rw [hglobals]; exact Array.mem_singleton.mpr rfl)
    exact slot_inj hy.symm
  | refused _ ho | defined _ ho | fault _ ho | overflow _ ho => cases hrun.symm.trans ho

end ForkLisp.Session
