/-
Waking workers up.

A signal counts the occasions on which work was added. A worker notes the count before it looks for
work, and goes to sleep only if the count is still the same, so that no work is added unseen between
the look and the sleep.
-/

namespace ForkLisp.Schedule

/-- How often work was added. -/
structure Signal where
  epoch : UInt64
  deriving DecidableEq, Repr

namespace Signal

/-- No work was added yet. -/
def new : Signal := ⟨0⟩

/-- Tells that work was added. -/
def notify (s : Signal) : Signal := ⟨s.epoch + 1⟩

/-- Whether a worker that noted the count `seen` may sleep. -/
def allowsSleep (s : Signal) (seen : UInt64) : Bool := s.epoch == seen

end Signal

end ForkLisp.Schedule
