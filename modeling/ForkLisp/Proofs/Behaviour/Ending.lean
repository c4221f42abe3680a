/-
How computations end.

An `Ending` is a value or a fault with the world that is left, or `stuck` for a computation that met
something without meaning. A set of endings says what a computation can come to. `Followed` and
`andThen` put computations together: what follows uses a value, a fault is passed on, and anything
may come of what has no meaning.
-/
import ForkLisp.Machine.Slot

namespace ForkLisp.Behaviour

open ForkLisp.Machine

variable {W α β γ : Type}

/-- How a computation ends: with a value, with a fault, or at something that has no meaning. -/
inductive Ending (α W : Type) where
  | value (v : α) (w : W)
  | fault (e : Fault) (w : W)
  | stuck

/-- What follows an ending: a value is used, a fault is passed on, and anything may come of what has
no meaning. -/
def Ending.into (r : Ending α W) (o : Ending β W) (use : α → W → Prop) : Prop :=
  match r with
  | .value v w => use v w
  | .fault e w => o = .fault e w
  | .stuck => True

/-- What follows an answer that leaves the world alone. -/
def orFault (a : Except Fault α) (w : W) (o : Ending β W) (use : α → Prop) : Prop :=
  match a with
  | .ok x => use x
  | .error e => o = .fault e w

/-- The ending with an answer that leaves the world alone. -/
def Ending.ofAnswer (a : Except Fault α) (w : W) : Ending α W :=
  match a with
  | .ok x => .value x w
  | .error e => .fault e w

theorem Ending.value_ne_stuck (v : α) (w : W) : value v w ≠ stuck := by
  intro h
  cases h

theorem Ending.fault_ne_stuck (e : Fault) (w : W) : (fault e w : Ending α W) ≠ stuck := by
  intro h
  cases h

theorem Ending.ofAnswer_inj {a a' : Except Fault α} {w w' : W} :
    ofAnswer a w = ofAnswer a' w' ↔ a = a' ∧ w = w' := by
  cases a <;> cases a' <;> simp [ofAnswer]

theorem Ending.ofAnswer_into {a : Except Fault α} {w : W} {o : Ending β W} {use : α → W → Prop} :
    (ofAnswer a w).into o use ↔ orFault a w o fun x => use x w := by
  cases a <;> exact Iff.rfl

theorem Ending.into_mono {r : Ending α W} {o : Ending β W} {p q : α → W → Prop}
    (h : ∀ v w, r = .value v w → p v w → q v w) (hp : r.into o p) : r.into o q := by
  cases r with
  | value v w => exact h v w rfl hp
  | fault e w => exact hp
  | stuck => exact trivial

theorem orFault_mono {a : Except Fault α} {w : W} {o : Ending β W} {p q : α → Prop}
    (h : ∀ x, a = .ok x → p x → q x) (hp : orFault a w o p) : orFault a w o q := by
  cases a with
  | ok x => exact h x rfl hp
  | error e => exact hp

/-! ### Sets of endings -/

/-- Some ending among `ends`, followed by what is made of it, is the ending `o`. -/
def Followed (o : Ending β W) (use : α → W → Prop) (ends : Ending α W → Prop) : Prop :=
  ∃ r, ends r ∧ r.into o use

/-- The endings of a computation and another one behind it that uses its value. -/
def andThen (ends : Ending α W → Prop) (next : α → W → Ending β W → Prop) (o : Ending β W) : Prop :=
  Followed o (fun v w => next v w o) ends

namespace Followed

variable {o : Ending β W} {use use' : γ → W → Prop} {ends ends' : Ending γ W → Prop}

/-- Anything may follow what has no meaning. -/
theorem of_stuck (h : ends .stuck) : Followed o use ends := ⟨.stuck, h, trivial⟩

theorem of_value {v : γ} {w : W} (h : ends (.value v w)) (hu : use v w) : Followed o use ends :=
  ⟨.value v w, h, hu⟩

theorem mono (hp : Followed o use ends) (h : ∀ r, ends r → ends' r) : Followed o use ends' := by
  obtain ⟨r, hr, hinto⟩ := hp
  exact ⟨r, h r hr, hinto⟩

theorem before (hp : Followed o use ends) (h : ∀ v w, use v w → use' v w) :
    Followed o use' ends := by
  obtain ⟨r, hr, hinto⟩ := hp
  exact ⟨r, hr, Ending.into_mono (fun v w _ => h v w) hinto⟩

/-- What follows the first of two computations is the second one with what follows it. -/
theorem andThen {ends : Ending α W → Prop} {next : α → W → Ending γ W → Prop}
    (h : Followed o (fun v w => Followed o use (next v w)) ends) :
    Followed o use (andThen ends next) := by
  obtain ⟨r, hr, hinto⟩ := h
  cases r with
  | value v w =>
    obtain ⟨r', hr', hinto'⟩ := hinto
    exact ⟨r', ⟨.value v w, hr, hr'⟩, hinto'⟩
  | fault e w => exact ⟨.fault e w, ⟨.fault e w, hr, rfl⟩, hinto⟩
  | stuck => exact .of_stuck ⟨.stuck, hr, trivial⟩

/-- What follows two computations follows the second one behind the first. -/
theorem of_andThen {ends : Ending α W → Prop} {next : α → W → Ending γ W → Prop}
    (h : Followed o use (Behaviour.andThen ends next)) :
    Followed o (fun v w => Followed o use (next v w)) ends := by
  obtain ⟨r, ⟨r', hr', hinto'⟩, hinto⟩ := h
  cases r' with
  | value v w => exact ⟨.value v w, hr', r, hinto', hinto⟩
  | fault e w =>
    obtain rfl := hinto'
    exact ⟨.fault e w, hr', hinto⟩
  | stuck => exact .of_stuck hr'

theorem of_eq_value {v : γ} {w : W} (h : Followed o use (· = .value v w)) : use v w := by
  obtain ⟨r, rfl, hinto⟩ := h
  exact hinto

theorem of_orFault {a : Except Fault α} {w : W} {p : α → Prop} {q : α → Ending γ W → Prop}
    (ha : orFault a w o p) (h : ∀ x, p x → Followed o use (q x)) :
    Followed o use fun r => orFault a w r fun x => q x r := by
  cases a with
  | ok x => exact h x ha
  | error e => exact ⟨.fault e w, rfl, ha⟩

theorem of_into {e : Ending α W} {p : α → W → Prop} {q : α → W → Ending γ W → Prop}
    (he : e.into o p) (h : ∀ x w, p x w → Followed o use (q x w)) :
    Followed o use fun r => e.into r fun x w => q x w r := by
  cases e with
  | value x w => exact h x w he
  | fault e w => exact ⟨.fault e w, rfl, he⟩
  | stuck => exact .of_stuck trivial

/-- A condition that fails leaves no meaning. -/
theorem of_imp {c : Prop} (h : c → Followed o use ends) :
    Followed o use fun r => c → ends r := by
  by_cases hc : c
  · exact (h hc).mono fun _ hr _ => hr
  · exact .of_stuck fun hc' => absurd hc' hc

/-- So does an operand that has no value. -/
theorem of_option {x : Option α} {q : α → Ending γ W → Prop}
    (h : ∀ v, x = some v → Followed o use (q v)) :
    Followed o use fun r => ∀ v, x = some v → q v r := by
  cases hx : x with
  | none => exact .of_stuck fun v hv => absurd hv (by simp)
  | some v =>
    refine (h v hx).mono fun r hr u hu => ?_
    obtain rfl := Option.some.inj hu
    exact hr

end Followed

end ForkLisp.Behaviour
