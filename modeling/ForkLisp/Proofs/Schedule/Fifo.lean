/-
A ring is a bounded queue.

A run of pushes and pops goes through as long as no push meets a full ring and no pop an empty one,
which is a matter of how many there were so far (`Fits`). What has come out by then is what was
pushed first, in order, and the ring has the rest: one access keeps this (`Ring.Holds.access`), and
so does a run (`Ring.Holds.run`). Where the counters stand is of no account, for they wrap around at
a multiple of the size (`Ring.is_fifo`).
-/
import ForkLisp.Proofs.Schedule.Contents
import ForkLisp.Proofs.Session.Room

namespace ForkLisp.Schedule

variable {α : Type}

/-- What is done to a queue. -/
inductive Access (α : Type) where
  | push (a : α)
  | pop

namespace Access

/-- The elements that are pushed, in order. -/
def pushed : List (Access α) → List α
  | [] => []
  | push a :: xs => a :: pushed xs
  | pop :: xs => pushed xs

/-- How many elements are popped. -/
def pops : List (Access α) → Nat
  | [] => 0
  | push _ :: xs => pops xs
  | pop :: xs => pops xs + 1

end Access

open Access

/-- A queue for `size` elements that has `n` of them is never full before a push or empty
before a pop. -/
def Fits (size n : Nat) (xs : List (Access α)) : Prop :=
  ∀ k, pops (xs.take k) ≤ n + (pushed (xs.take k)).length ∧
    n + (pushed (xs.take k)).length ≤ pops (xs.take k) + size

theorem fits_nil {size n : Nat} : Fits size n ([] : List (Access α)) ↔ n ≤ size := by
  simp [Fits, pushed, pops]

theorem fits_push {size n : Nat} {a : α} {xs : List (Access α)} :
    Fits size n (.push a :: xs) ↔ n ≤ size ∧ Fits size (n + 1) xs := by
  constructor
  · intro h
    refine ⟨?_, fun k => ?_⟩
    · simpa [pushed, pops] using (h 0).2
    · have hk := h (k + 1)
      rw [List.take_succ_cons, pushed, pops, List.length_cons] at hk
      omega
  · rintro ⟨hn, h⟩ k
    cases k with
    | zero => simpa [pushed, pops] using hn
    | succ k =>
      have hk := h k
      rw [List.take_succ_cons, pushed, pops, List.length_cons]
      omega

theorem fits_pop {size n : Nat} {xs : List (Access α)} :
    Fits size n (.pop :: xs) ↔ n ≤ size ∧ 0 < n ∧ Fits size (n - 1) xs := by
  constructor
  · intro h
    have hone := (h 1).1
    rw [List.take_succ_cons, List.take_zero, pushed, pops, pushed, pops, List.length_nil] at hone
    refine ⟨by simpa [pushed, pops] using (h 0).2, by omega, fun k => ?_⟩
    have hk := h (k + 1)
    rw [List.take_succ_cons, pushed, pops] at hk
    omega
  · rintro ⟨hn, hpos, h⟩ k
    cases k with
    | zero => simpa [pushed, pops] using hn
    | succ k =>
      have hk := h k
      rw [List.take_succ_cons, pushed, pops]
      omega

theorem Fits.le {size n : Nat} {xs : List (Access α)} (h : Fits size n xs) : n ≤ size := by
  simpa [pushed, pops] using (h 0).2

/-- A run of accesses fits if the first one does, and the others do for what there is then. -/
theorem fits_cons {size n : Nat} {x : Access α} {xs : List (Access α)} :
    Fits size n (x :: xs) ↔
      Fits size n [x] ∧ Fits size (n + (pushed [x]).length - pops [x]) xs := by
  cases x with
  | push a =>
    rw [fits_push, fits_push, fits_nil]
    exact ⟨fun ⟨hn, h⟩ => ⟨⟨hn, h.le⟩, h⟩, fun ⟨⟨hn, _⟩, h⟩ => ⟨hn, h⟩⟩
  | pop =>
    rw [fits_pop, fits_pop, fits_nil]
    exact ⟨fun ⟨hn, hpos, h⟩ => ⟨⟨hn, hpos, h.le⟩, h⟩, fun ⟨⟨hn, hpos, _⟩, h⟩ => ⟨hn, hpos, h⟩⟩

namespace Ring

/-- Does one thing to a ring: what comes out, if that is a pop, and the ring after it. -/
def access? (r : Ring α) : Access α → Option (Option α × Ring α)
  | .push a => (r.push? a).map fun r => (none, r)
  | .pop => r.pop?.map fun (a, r) => (some a, r)

/-- Does one thing after the other to a ring: what comes out, in order, and the ring after that. It
ends where a push meets a full ring or a pop an empty one. -/
def run? (r : Ring α) : List (Access α) → Option (List α × Ring α)
  | [] => some ([], r)
  | x :: xs => do
    let (out, r) ← r.access? x
    let (outs, r) ← r.run? xs
    return (out.toList ++ outs, r)

section

variable {r r' : Ring α} {as popped : List α} {xs : List (Access α)}

theorem filterMap_range {f : Nat → Option α} (h : ∀ j a, as[j]? = some a → f j = some a) :
    (List.range as.length).filterMap f = as := by
  induction as using List.reverseRecOn with
  | nil => rfl
  | append_singleton as a ih =>
    have hlast : f as.length = some a := h _ _ (by simp)
    rw [List.length_append, List.length_singleton, List.range_succ, List.filterMap_append,
      ih fun j b hj => h j b ?_]
    · simp [hlast]
    · rw [List.getElem?_append_left (List.getElem?_eq_some_iff.mp hj).1, hj]

/-- What a ring holds is what it has between its counters. -/
theorem Holds.toList_eq (h : r.Holds as) : r.toList = as := by
  rw [toList, h.count]
  refine filterMap_range fun j a hj => ?_
  rw [h.cells j a hj]
  rfl

/-- Pushing takes place unless the ring is full, and appends. -/
theorem Holds.push?_eq (h : r.Holds as) (a : α) (hroom : as.length ≠ r.size) :
    ∃ r', r.push? a = some r' ∧ r'.size = r.size ∧ r'.Holds (as ++ [a]) := by
  obtain ⟨r', hr'⟩ := Option.isSome_iff_exists.mp (push?_isSome (h.count ▸ hroom) a)
  exact ⟨r', hr', (count_of_push hr').1, h.push hr'⟩

/-- Popping takes place unless the ring is empty, and takes the first element. -/
theorem Holds.pop?_eq {a : α} (h : r.Holds (a :: as)) :
    ∃ r', r.pop? = some (a, r') ∧ r'.size = r.size ∧ r'.Holds as := by
  have hhead : r.cells[r.cell r.head]? = some (some a) := by simpa using h.cells 0 a rfl
  obtain ⟨⟨b, r'⟩, hr'⟩ : ∃ x, r.pop? = some x := by
    have hcount : r.count ≠ 0 := by rw [h.count]; exact Nat.succ_ne_zero _
    simp [pop?, hcount, hhead]
  obtain ⟨bs, hbs, hholds⟩ := h.pop hr'
  obtain ⟨rfl, rfl⟩ := List.cons.inj hbs
  exact ⟨r', hr', (count_of_pop hr').1, hholds⟩

/-- An access of a ring that holds `as` takes place if there is room or something to take. What
comes out and what the ring then holds is what it held and what was pushed. -/
theorem Holds.access (h : r.Holds as) (x : Access α) :
    ((r.access? x).isSome = true ↔ Fits r.size as.length [x]) ∧
      ∀ out r', r.access? x = some (out, r') → r'.size = r.size ∧
        ∃ as', r'.Holds as' ∧ as ++ pushed [x] = out.toList ++ as' ∧
        out.toList.length = pops [x] := by
  cases x with
  | push a =>
    rw [fits_push, fits_nil]
    by_cases hroom : as.length = r.size
    -- a full ring refuses the push, and there is no room for it either
    · have hfull : r.push? a = none := by
        rw [push?, if_pos (h.count.trans hroom)]
      refine ⟨?_, fun out r' hr' => ?_⟩
      · rw [access?, hfull]
        simp [hroom]
      · rw [access?, hfull] at hr'
        exact absurd hr' (by simp)
    · obtain ⟨r₁, hpush, hsize, hholds⟩ := h.push?_eq a hroom
      refine ⟨?_, fun out r' hr' => ?_⟩
      · rw [access?, hpush]
        have := h.room
        simp only [Option.map_some, Option.isSome_some, true_iff]
        omega
      · rw [access?, hpush] at hr'
        obtain ⟨rfl, rfl⟩ := Prod.mk.inj (Option.some.inj hr')
        exact ⟨hsize, as ++ [a], hholds, rfl, rfl⟩
  | pop =>
    rw [fits_pop, fits_nil]
    cases as with
    | nil =>
      -- an empty ring refuses the pop
      have hempty : r.pop? = none := by
        unfold pop?
        exact if_pos h.count
      refine ⟨?_, fun out r' hr' => ?_⟩
      · rw [access?, hempty]
        simp
      · rw [access?, hempty] at hr'
        exact absurd hr' (by simp)
    | cons a as =>
      obtain ⟨r₁, hpop, hsize, hholds⟩ := h.pop?_eq
      refine ⟨?_, fun out r' hr' => ?_⟩
      · rw [access?, hpop]
        have := h.room
        rw [List.length_cons] at this ⊢
        simp only [Option.map_some, Option.isSome_some, true_iff]
        omega
      · rw [access?, hpop] at hr'
        obtain ⟨rfl, rfl⟩ := Prod.mk.inj (Option.some.inj hr')
        exact ⟨hsize, as, hholds, by simp [pushed], rfl⟩

theorem pushed_cons (x : Access α) (xs : List (Access α)) :
    pushed (x :: xs) = pushed [x] ++ pushed xs := by
  cases x <;> rfl

theorem pops_cons (x : Access α) (xs : List (Access α)) : pops (x :: xs) = pops [x] + pops xs := by
  cases x with
  | push a => exact (Nat.zero_add _).symm
  | pop => exact Nat.add_comm _ _

/-- A run on a ring that holds `as` goes through if it fits. What came out and what the ring then
holds is what it held and what was pushed. -/
theorem Holds.run (h : r.Holds as) (xs : List (Access α)) :
    ((r.run? xs).isSome = true ↔ Fits r.size as.length xs) ∧
      ∀ popped r', r.run? xs = some (popped, r') → r'.size = r.size ∧
        ∃ as', r'.Holds as' ∧ as ++ pushed xs = popped ++ as' ∧ popped.length = pops xs := by
  induction xs generalizing r as with
  | nil =>
    refine ⟨by simp [run?, fits_nil, h.room], fun popped r' hr' => ?_⟩
    obtain ⟨rfl, rfl⟩ := Prod.mk.inj (Option.some.inj hr')
    exact ⟨rfl, as, h, List.append_nil _, rfl⟩
  | cons x xs ih =>
    obtain ⟨hfits, hgives⟩ := h.access x
    rw [fits_cons, ← hfits, run?]
    cases haccess : r.access? x with
    | none => simp
    | some first =>
      obtain ⟨out, r₁⟩ := first
      -- the rest of the run starts from what the ring holds after the first access
      obtain ⟨hsize, as₁, hholds, hsplit, hout⟩ := hgives out r₁ haccess
      have hlength : as.length + (pushed [x]).length - pops [x] = as₁.length := by
        have := congrArg List.length hsplit
        rw [List.length_append, List.length_append] at this
        omega
      obtain ⟨hfits₁, hgives₁⟩ := ih hholds
      rw [hlength, ← hsize, ← hfits₁]
      cases hrest : r₁.run? xs with
      | none => simp [hrest]
      | some rest =>
        obtain ⟨outs, r₂⟩ := rest
        refine ⟨by simp [hrest], fun popped r' hr' => ?_⟩
        simp only [Option.bind_eq_bind, Option.bind_some, hrest, Option.pure_def, Option.some.injEq,
          Prod.mk.injEq] at hr'
        obtain ⟨rfl, rfl⟩ := hr'
        obtain ⟨hsize₂, as₂, hholds₂, hsplit₂, houts⟩ := hgives₁ outs r₂ hrest
        refine ⟨hsize₂, as₂, hholds₂, ?_, ?_⟩
        · rw [pushed_cons, ← List.append_assoc, hsplit, List.append_assoc,
            hsplit₂, List.append_assoc]
        · rw [List.length_append, hout, houts, pops_cons x xs]

end

/-- A ring is a bounded queue, wherever its counters start: its size is a power of two that is not
below the capacity asked for. A run of pushes and pops goes through exactly if no push meets a
full ring and no pop an empty one; what comes out is what was pushed, in order, and the ring has
what is left of it. -/
theorem is_fifo {capacity : Nat} (h : capacity ≤ 2 ^ 63) (start : UInt64) :
    (∃ k, (ofCapacity capacity start : Ring α).size = 2 ^ k) ∧
    capacity ≤ (ofCapacity capacity start : Ring α).size ∧
    ∀ xs : List (Access α),
      (((ofCapacity capacity start).run? xs).isSome = true ↔
        Fits (ofCapacity capacity start : Ring α).size 0 xs) ∧
      ∀ popped r', (ofCapacity capacity start).run? xs = some (popped, r') →
        popped = (pushed xs).take (pops xs) ∧ popped.length = pops xs ∧
        r'.toList = (pushed xs).drop (pops xs) ∧ r'.count = (pushed xs).length - pops xs := by
  have hempty : Holds (ofCapacity capacity start : Ring α) [] := holds_ofCapacity h start
  obtain ⟨k, -, hk⟩ := hempty.size
  refine ⟨⟨k, hk⟩, le_size_ofCapacity capacity start, fun xs => ?_⟩
  obtain ⟨hfits, hgives⟩ := hempty.run xs
  refine ⟨hfits, fun popped r' hr' => ?_⟩
  obtain ⟨-, as, hholds, hsplit, hlength⟩ := hgives popped r' hr'
  rw [List.nil_append] at hsplit
  refine ⟨?_, hlength, ?_, ?_⟩
  · rw [hsplit, ← hlength, List.take_left]
  · rw [hholds.toList_eq, hsplit, ← hlength, List.drop_left]
  · rw [hholds.count, hsplit, List.length_append, ← hlength, Nat.add_sub_cancel_left]

/-- A ring for three elements has room for four, and hands them out in order while its counters wrap
around. -/
theorem is_fifo_wrapping :
    ∃ r : Ring Nat, (ofCapacity 3 (0 - 1)).run?
        [.push 1, .push 2, .pop, .push 3, .push 4, .push 5, .pop] = some ([1, 2], r) ∧
      r.toList = [3, 4, 5] ∧ r.count = 3 := by
  have hcapacity : 3 ≤ 2 ^ 63 := by decide
  obtain ⟨-, -, hrun⟩ := is_fifo hcapacity (0 - 1)
  obtain ⟨-, hgives⟩ := hrun [.push (1 : Nat), .push 2, .pop, .push 3, .push 4, .push 5, .pop]
  have hsome : ((ofCapacity 3 (0 - 1) : Ring Nat).run?
      [.push 1, .push 2, .pop, .push 3, .push 4, .push 5, .pop]).isSome = true := by decide
  obtain ⟨⟨popped, r⟩, hr⟩ := Option.isSome_iff_exists.mp hsome
  obtain ⟨rfl, -, hlist, hcount⟩ := hgives popped r hr
  exact ⟨r, hr, hlist, hcount⟩

end Ring

end ForkLisp.Schedule
