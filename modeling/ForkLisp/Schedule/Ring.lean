/-
A bounded queue.

A ring is an array whose size is a power of two, with two counters that only go up and wrap around:
the next element comes out at `head` and the next one goes in at `tail`. What the ring holds, in
order, is `toList`.
-/

namespace ForkLisp.Schedule

/-- Elements between two counters. -/
structure Ring (α : Type) where
  cells : Array (Option α)
  head : UInt64
  tail : UInt64

namespace Ring

variable {α : Type}

/-- The least power of two from `p` on that is at least `n`. -/
def powerFrom (n : Nat) : Nat → Nat → Nat
  | 0, p => p
  | fuel + 1, p => if n ≤ p then p else powerFrom n fuel (2 * p)

/-- The least power of two that is at least `n`. -/
def nextPower (n : Nat) : Nat := powerFrom n n 1

/-- An empty ring for at least `capacity` elements whose counters both stand at `start`. -/
def ofCapacity (capacity : Nat) (start : UInt64) : Ring α :=
  ⟨Array.replicate (nextPower (max capacity 1)) none, start, start⟩

/-- How many elements a ring can hold. -/
def size (r : Ring α) : Nat := r.cells.size

/-- How many elements a ring holds. -/
def count (r : Ring α) : Nat := (r.tail - r.head).toNat

/-- The cell that a counter stands for. -/
def cell (r : Ring α) (counter : UInt64) : Nat :=
  (counter &&& (UInt64.ofNat r.cells.size - 1)).toNat

/-- Appends an element; a full ring has no room for it. -/
def push? (r : Ring α) (a : α) : Option (Ring α) :=
  if r.count = r.size then none
  else some { r with cells := r.cells.setIfInBounds (r.cell r.tail) (some a), tail := r.tail + 1 }

/-- The element that comes out next, and the ring without it. -/
def pop? (r : Ring α) : Option (α × Ring α) :=
  if r.count = 0 then none
  else
    let i := r.cell r.head
    match (r.cells[i]?).join with
    | none => none
    | some a => some (a, { r with cells := r.cells.setIfInBounds i none, head := r.head + 1 })

/-- The elements in the order in which they come out. -/
def toList (r : Ring α) : List α :=
  (List.range r.count).filterMap fun k => (r.cells[r.cell (r.head + UInt64.ofNat k)]?).join

end Ring

end ForkLisp.Schedule
