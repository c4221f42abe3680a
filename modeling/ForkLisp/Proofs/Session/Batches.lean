/-
Forms evaluated in several batches.

Whatever forms yield together they yield one batch after the other, each in the state that the one
before it left (`evaluateForms_append`), and it does not depend on where the forms were read from
(`evaluateForms_bare`).
-/
import ForkLisp.Proofs.Compile.Ranges
import ForkLisp.Session.Evaluate

namespace ForkLisp.Session

open ForkLisp.Compile ForkLisp.Machine ForkLisp.Reader

variable {ε ε' α : Type}

/-- What an evaluation that does not fail yields. -/
structure Yield (α : Type) where
  state : State
  log : List String
  printed : List String
  value : α

/-- What an evaluation yields, if it does not fail. -/
def Evaluation.yield? (e : Evaluation ε α) : Option (Yield α) :=
  match e.outcome with
  | .ok a => some ⟨e.state, e.log, e.printed, a⟩
  | .error _ => none

/-- What has been yielded by one batch goes in front of what the next one yields. -/
def Yield.followedBy (y z : Yield (List Value)) : Yield (List Value) :=
  ⟨z.state, y.log ++ z.log, y.printed ++ z.printed, y.value ++ z.value⟩

/-- A value as a batch of its own. -/
def Yield.single (y : Yield Value) : Yield (List Value) := { y with value := [y.value] }

theorem Yield.followedBy_assoc (x y z : Yield (List Value)) :
    (x.followedBy y).followedBy z = x.followedBy (y.followedBy z) := by
  simp only [followedBy, List.append_assoc]

theorem Evaluation.yield?_eq_some {e : Evaluation ε α} {y : Yield α} (h : e.yield? = some y) :
    e = ⟨y.state, y.log, y.printed, .ok y.value⟩ := by
  obtain ⟨state, log, printed, outcome⟩ := e
  cases outcome with
  | error => cases h
  | ok a =>
    obtain rfl := Option.some.inj h
    rfl

namespace State

variable {s : State}

theorem evaluateForm_yield? (s : State) (f : Form) : (s.evaluateForm f).yield? =
    (compile s.context f).yield?.bind fun (context, log, compiled) =>
      match compiled with
      | .function name => some ⟨{ s with context := context }, log, [], .symbol name⟩
      | .entry code => ((State.run { s with context := context } code).after log []).yield? := by
  unfold evaluateForm
  dsimp only
  generalize compile s.context f = r
  obtain ⟨context, log, outcome⟩ := r
  cases outcome with
  | error => rfl
  | ok compiled =>
    cases compiled with
    | function | entry => rfl

/-- A form without its ranges yields the same. -/
theorem evaluateForm_bare (s : State) (f : Form) :
    (s.evaluateForm f.bare).yield? = (s.evaluateForm f).yield? := by
  rw [evaluateForm_yield?, evaluateForm_yield?, compile_bare]

theorem evaluateForms_cons (s : State) (f : Form) (fs : List Form) :
    (s.evaluateForms (f :: fs)).yield? =
    (s.evaluateForm f).yield?.bind fun y =>
      (y.state.evaluateForms fs).yield?.map y.single.followedBy := by
  rw [evaluateForms]
  generalize s.evaluateForm f = e
  obtain ⟨s', log, printed, outcome⟩ := e
  cases outcome with
  | error => rfl
  | ok v =>
    dsimp only [Evaluation.yield?, Option.bind_some]
    generalize s'.evaluateForms fs = rest
    obtain ⟨s'', log', printed', outcome⟩ := rest
    cases outcome with
    | error | ok => rfl

/-- Forms without their ranges yield the same. -/
theorem evaluateForms_bare (s : State) (fs : List Form) :
    (s.evaluateForms (bareAll fs)).yield? = (s.evaluateForms fs).yield? := by
  induction fs generalizing s with
  | nil => rfl
  | cons f fs ih =>
    rw [bareAll, evaluateForms_cons, evaluateForms_cons, evaluateForm_bare]
    exact congrArg _ (funext fun y => by rw [ih])

/-- What forms yield depends on what they are and not on their ranges. -/
theorem evaluateForms_congr {fs gs : List Form} (h : bareAll fs = bareAll gs) (s : State) :
    (s.evaluateForms fs).yield? = (s.evaluateForms gs).yield? := by
  rw [← evaluateForms_bare, h, evaluateForms_bare]

/-- Two batches yield what their forms do together. -/
theorem evaluateForms_append (s : State) (fs gs : List Form) : (s.evaluateForms (fs ++ gs)).yield? =
    (s.evaluateForms fs).yield?.bind fun y =>
    (y.state.evaluateForms gs).yield?.map y.followedBy := by
  induction fs generalizing s with
  | nil =>
    -- no forms have yielded nothing that would go in front
    have hnone : (⟨s, [], [], []⟩ : Yield (List Value)).followedBy = id := rfl
    show _ = (s.evaluateForms gs).yield?.map (Yield.followedBy ⟨s, [], [], []⟩)
    rw [hnone, Option.map_id_fun, id, List.nil_append]
  | cons f fs ih =>
    rw [List.cons_append, evaluateForms_cons, evaluateForms_cons, Option.bind_assoc]
    refine congrArg _ (funext fun x => ?_)
    rw [ih, Option.map_bind, Option.bind_map]
    refine congrArg _ (funext fun y => ?_)
    dsimp only [Function.comp]
    rw [Option.map_map]
    exact congrArg (Option.map · _) (funext fun z => (Yield.followedBy_assoc x.single y z).symm)

/-- A text yields what its forms do. -/
theorem evaluate_yield? {code : String} {forms : List Form} (h : read code = .ok forms)
    (s : State) :
    (s.evaluate code).yield? = (s.evaluateForms forms).yield? := by
  unfold evaluate
  rw [h]
  dsimp only
  generalize s.evaluateForms forms = e
  obtain ⟨s', log, printed, outcome⟩ := e
  cases outcome with
  | error | ok => rfl

end State

end ForkLisp.Session
