/-
What queues hold.

A ring `Holds` a list if its counters are as far apart as the list is long and the cells between
them have its elements, in order; then pushing appends and popping takes the first
(`Ring.Holds.push`, `Ring.Holds.pop`). The counters wrap around at a multiple of the size, which is
a power of two, so that nothing is said of where they stand. In which order queues of work stealing
give their elements out does not matter here: a queue `Holds` a list up to its order.
-/
import Mathlib
import ForkLisp.Schedule.Queues

namespace ForkLisp.Schedule

variable {α : Type}

namespace Ring

variable {r r' : Ring α} {as : List α} {a : α}

/-- The elements between the counters, in order. -/
structure Holds (r : Ring α) (as : List α) : Prop where
  size : ∃ k, k < 64 ∧ r.size = 2 ^ k
  count : r.count = as.length
  room : as.length ≤ r.size
  cells : ∀ j a, as[j]? = some a → r.cells[r.cell (r.head + UInt64.ofNat j)]? = some (some a)

theorem Holds.size_lt (h : r.Holds as) : r.size < 2 ^ 64 := by
  obtain ⟨k, hk, hsize⟩ := h.size
  rw [hsize]
  exact Nat.pow_lt_pow_right (by decide) hk

theorem Holds.cell_eq (h : r.Holds as) (c : UInt64) : r.cell c = c.toNat % r.size := by
  obtain ⟨k, hk, hsize⟩ := h.size
  have hlt := h.size_lt
  have hpos : 0 < 2 ^ k := Nat.two_pow_pos k
  unfold Ring.size at hsize hlt ⊢
  have hmask : (UInt64.ofNat r.cells.size - 1).toNat = 2 ^ k - 1 := by
    rw [UInt64.toNat_sub, UInt64.toNat_ofNat']
    have : (1 : UInt64).toNat = 1 := rfl
    omega
  rw [cell, UInt64.toNat_and, hmask, hsize, Nat.and_two_pow_sub_one_eq_mod]

/-- The cells of a ring are far enough apart from each other. -/
theorem Holds.cell_inj (h : r.Holds as) {i j : Nat} (hi : i < r.size) (hj : j < r.size)
    (heq : r.cell (r.head + UInt64.ofNat i) = r.cell (r.head + UInt64.ofNat j)) : i = j := by
  obtain ⟨k, hk, hsize⟩ := h.size
  have hdvd : r.size ∣ 2 ^ 64 := hsize ▸ Nat.pow_dvd_pow 2 (Nat.le_of_lt hk)
  rw [h.cell_eq, h.cell_eq, UInt64.toNat_add, UInt64.toNat_add, Nat.mod_mod_of_dvd _ hdvd,
    Nat.mod_mod_of_dvd _ hdvd, UInt64.toNat_ofNat', UInt64.toNat_ofNat'] at heq
  have hlt := h.size_lt
  rw [Nat.mod_eq_of_lt (a := i) (by omega), Nat.mod_eq_of_lt (a := j) (by omega)] at heq
  have hmod : i % r.size = j % r.size := Nat.ModEq.add_left_cancel' r.head.toNat heq
  rwa [Nat.mod_eq_of_lt hi, Nat.mod_eq_of_lt hj] at hmod

theorem Holds.cell_lt (h : r.Holds as) (c : UInt64) : r.cell c < r.cells.size := by
  obtain ⟨k, _, hsize⟩ := h.size
  rw [h.cell_eq]
  exact Nat.mod_lt _ (hsize ▸ Nat.two_pow_pos k)

theorem powerFrom_pow (n fuel k : Nat) : ∃ k', powerFrom n fuel (2 ^ k) = 2 ^ k' := by
  induction fuel generalizing k with
  | zero => exact ⟨k, rfl⟩
  | succ fuel ih =>
    unfold powerFrom
    split
    · exact ⟨k, rfl⟩
    · rw [← Nat.pow_succ']
      exact ih (k + 1)

theorem powerFrom_lt {n fuel p : Nat} (h : p < 2 * n) : powerFrom n fuel p < 2 * n := by
  induction fuel generalizing p with
  | zero => exact h
  | succ fuel ih =>
    unfold powerFrom
    split
    · exact h
    · exact ih (by omega)

/-- An empty ring holds nothing, wherever its counters stand. -/
theorem holds_ofCapacity {capacity : Nat} (h : capacity ≤ 2 ^ 63) (start : UInt64) :
    (ofCapacity capacity start : Ring α).Holds [] := by
  have hsize : (ofCapacity capacity start : Ring α).size = nextPower (max capacity 1) :=
    Array.size_replicate
  obtain ⟨k, hk⟩ : ∃ k, nextPower (max capacity 1) = 2 ^ k := powerFrom_pow _ _ 0
  have hlt : nextPower (max capacity 1) < 2 ^ 64 :=
    Nat.lt_of_lt_of_le (powerFrom_lt (by omega)) (by omega)
  refine ⟨⟨k, ?_, hsize.trans hk⟩, ?_, Nat.zero_le _, by simp⟩
  · rw [hk] at hlt
    exact (Nat.pow_lt_pow_iff_right (by decide)).mp hlt
  · simp [count, ofCapacity]

/-- What is pushed comes behind all others. -/
theorem Holds.push (h : r.Holds as) (hp : r.push? a = some r') : r'.Holds (as ++ [a]) := by
  unfold push? at hp
  split at hp
  · exact absurd hp (by simp)
  · rename_i hfull
    cases hp
    have hlt := h.size_lt
    have hroom : as.length < r.size := Nat.lt_of_le_of_ne h.room (h.count ▸ hfull)
    have htail : r.tail = r.head + UInt64.ofNat as.length := by
      rw [← h.count, Ring.count, UInt64.ofNat_toNat]
      grind
    refine ⟨?_, ?_, ?_, fun j b hj => ?_⟩
    · simpa [Ring.size] using h.size
    · rw [List.length_append, List.length_singleton, Ring.count]
      have : r.tail + 1 - r.head = (r.tail - r.head) + 1 := by grind
      have hcount : (r.tail - r.head).toNat = as.length := h.count
      rw [this, UInt64.toNat_add, hcount]
      exact Nat.mod_eq_of_lt (by have : (1 : UInt64).toNat = 1 := rfl; omega)
    · simpa [Ring.size] using hroom
    · have hcell : ∀ c, cell { r with
          cells := r.cells.setIfInBounds (r.cell r.tail) (some a), tail := r.tail + 1 } c =
          r.cell c := fun c => by simp [cell]
      rw [hcell]
      -- the new entry is read back at the tail, and no other stands in its cell
      by_cases hlast : j = as.length
      · subst hlast
        obtain rfl : a = b := by simpa using hj
        rw [← htail]
        exact Array.getElem?_setIfInBounds_self_of_lt (h.cell_lt _)
      · have hj' : as[j]? = some b := by
          rw [← hj, List.getElem?_append_left]
          have := (List.getElem?_eq_some_iff.mp hj).1
          rw [List.length_append, List.length_singleton] at this
          omega
        have hjlt := (List.getElem?_eq_some_iff.mp hj').1
        rw [Array.getElem?_setIfInBounds_ne, h.cells j b hj']
        intro heq
        rw [htail] at heq
        exact hlast (h.cell_inj hroom (by omega) heq).symm

/-- What is popped comes before all others. -/
theorem Holds.pop (h : r.Holds as) (hp : r.pop? = some (a, r')) :
    ∃ bs, as = a :: bs ∧ r'.Holds bs := by
  unfold pop? at hp
  split at hp
  · exact absurd hp (by simp)
  · rename_i hcount
    cases as with
    | nil => exact absurd h.count hcount
    | cons b bs =>
      have hhead : r.cells[r.cell r.head]? = some (some b) := by
        simpa using h.cells 0 b rfl
      simp only [hhead, Option.join_some, Option.some.injEq, Prod.mk.injEq] at hp
      obtain ⟨rfl, rfl⟩ := hp
      have hlt := h.size_lt
      have hroom := h.room
      rw [List.length_cons] at hroom
      refine ⟨bs, rfl, ?_, ?_, ?_, fun j x hj => ?_⟩
      · simpa [Ring.size] using h.size
      · have hlen : (r.tail - r.head).toNat = bs.length + 1 := h.count
        have hone : (1 : UInt64).toNat = 1 := rfl
        have : r.tail - (r.head + 1) = (r.tail - r.head) - 1 := by grind
        show (r.tail - (r.head + 1)).toNat = _
        rw [this, UInt64.toNat_sub_of_le, hlen, hone, Nat.add_sub_cancel]
        rw [UInt64.le_iff_toNat_le, hlen, hone]
        exact Nat.le_add_left 1 _
      · simp only [Ring.size, Array.size_setIfInBounds] at hroom ⊢
        omega
      · have hcell : ∀ c, cell { r with
            cells := r.cells.setIfInBounds (r.cell r.head) none, head := r.head + 1 } c =
            r.cell c := fun c => by simp [cell]
        have hnext : r.head + 1 + UInt64.ofNat j = r.head + UInt64.ofNat (j + 1) := by
          rw [UInt64.ofNat_add]
          grind
        have hjlt := (List.getElem?_eq_some_iff.mp hj).1
        have hkept := h.cells (j + 1) x (List.getElem?_cons_succ.trans hj)
        -- the cell that was emptied is none of those still in use
        have hne : r.cell r.head ≠ r.cell (r.head + UInt64.ofNat (j + 1)) := by
          intro heq
          have hzero : r.head + UInt64.ofNat 0 = r.head := UInt64.add_zero _
          have hsame : 0 = j + 1 := h.cell_inj (by omega) (by omega) (hzero.symm ▸ heq)
          exact Nat.succ_ne_zero j hsame.symm
        show (r.cells.setIfInBounds (r.cell r.head) none)[_]? = _
        rw [hcell, hnext, Array.getElem?_setIfInBounds_ne hne, hkept]

end Ring

namespace Stealing

variable {q q' : Stealing α} {workers worker : Nat} {as bs : List α} {a : α}

/-- The elements of all queues. -/
def elements (q : Stealing α) : List α := q.injector ++ q.locals.toList.flatten

/-- An element was taken out of one of the queues. -/
structure Gives (q : Stealing α) (a : α) (q' : Stealing α) : Prop where
  size : q'.locals.size = q.locals.size
  perm : q.elements.Perm (a :: q'.elements)

/-- One of several lists is replaced by another one. -/
theorem flatten_set {xss : List (List α)} {i : Nat} {xs : List α} (ys : List α)
    (h : xss[i]? = some xs) : ((xss.set i ys).flatten ++ xs).Perm (xss.flatten ++ ys) := by
  induction xss generalizing i with
  | nil => exact absurd h (by simp)
  | cons zs xss ih =>
    cases i with
    | zero =>
      obtain rfl : zs = xs := by simpa using h
      simp only [List.set_cons_zero, List.flatten_cons, List.append_assoc]
      exact ((List.perm_append_comm_assoc _ _ _).trans (List.perm_append_comm.append_left _)).trans
        (List.perm_append_comm_assoc _ _ _)
    | succ i =>
      simp only [List.set_cons_succ, List.flatten_cons, List.append_assoc]
      exact (ih (by simpa using h)).append_left zs

theorem flatten_modify {locals : Array (List α)} {i : Nat} (ys : List α) (hi : i < locals.size) :
    (locals.modify i (ys ++ ·)).toList.flatten.Perm (ys ++ locals.toList.flatten) := by
  have h : locals.toList[i]? = some locals[i] := by simp [hi]
  rw [Array.toList_modify, List.modify_eq_set_getElem?, h]
  refine (List.perm_append_right_iff locals[i]).mp ((flatten_set _ h).trans ?_)
  rw [← List.append_assoc]
  exact List.perm_append_comm.append_right _

theorem flatten_set! {locals : Array (List α)} {i : Nat} {xs ys zs : List α}
    (h : locals[i]? = some zs) (hzs : zs.Perm (xs ++ ys)) :
    locals.toList.flatten.Perm (xs ++ (locals.set! i ys).toList.flatten) := by
  have h' : locals.toList[i]? = some zs := by simpa using h
  have hset := flatten_set ys h'
  rw [Array.set!_eq_setIfInBounds, Array.toList_setIfInBounds]
  refine (List.perm_append_right_iff ys).mp (hset.symm.trans ?_)
  refine (hzs.append_left _).trans ?_
  rw [← List.append_assoc]
  exact List.perm_append_comm.append_right _

theorem elements_inject (q : Stealing α) (a : α) :
    (q.inject a).elements.Perm (a :: q.elements) := by
  show ((q.injector ++ [a]) ++ _).Perm _
  rw [List.append_assoc]
  exact List.perm_middle

theorem elements_push (h : worker < q.locals.size) (a : α) :
    (q.push worker a).elements.Perm (a :: q.elements) :=
  ((flatten_modify [a] h).append_left _).trans List.perm_middle

theorem popLocal?_gives (h : q.popLocal? worker = some (a, q')) : q.Gives a q' := by
  unfold popLocal? at h
  split at h
  · rename_i b bs hlocal
    cases h
    refine ⟨by simp, ?_⟩
    have hbs : (a :: bs).Perm ([a] ++ bs) := .refl _
    exact ((flatten_set! hlocal hbs).append_left _).trans List.perm_middle
  · exact absurd h (by simp)

theorem takeBatch?_gives (hw : worker < q.locals.size) (h : q.takeBatch? worker = some (a, q')) :
    q.Gives a q' := by
  unfold takeBatch? at h
  split at h
  · exact absurd h (by simp)
  · rename_i b bs hinjector
    cases h
    refine ⟨by simp, ?_⟩
    unfold elements
    rw [hinjector, List.cons_append]
    refine .cons a (.trans ?_ ((flatten_modify _ hw).append_left _).symm)
    rw [← List.append_assoc]
    refine .append_right _ (.trans ?_ List.perm_append_comm)
    rw [List.take_append_drop]

theorem stealFrom?_gives {victim : Nat}
    (h : q.stealFrom? victim = some (a, q')) : q.Gives a q' := by
  unfold stealFrom? at h
  split at h
  · rename_i bs hlocal
    split at h
    · rename_i b hlast
      cases h
      refine ⟨by simp, ?_⟩
      have hbs : bs.Perm ([a] ++ bs.dropLast) := by
        conv_lhs => rw [← List.dropLast_append_getLast? a hlast]
        exact List.perm_append_comm
      exact ((flatten_set! hlocal hbs).append_left _).trans List.perm_middle
    · exact absurd h (by simp)
  · exact absurd h (by simp)

/-- A worker finds an element that is there. -/
theorem find?_gives (hw : worker < q.locals.size) (h : q.find? worker = some (a, q')) :
    q.Gives a q' := by
  unfold find? at h
  rcases Option.or_eq_some_iff.mp h with h | ⟨-, h⟩
  · exact popLocal?_gives h
  · rcases Option.or_eq_some_iff.mp h with h | ⟨-, h⟩
    · exact takeBatch?_gives hw h
    · obtain ⟨victim, -, h⟩ := List.exists_of_findSome?_eq_some h
      exact stealFrom?_gives h

end Stealing

namespace RunQueue

variable {q q' : RunQueue α} {workers worker : Nat} {as bs : List α} {a : α}

/-- The queues of some workers hold elements, in any order. -/
def Holds (workers : Nat) (as : List α) : RunQueue α → Prop
  | .stealing q => q.locals.size = workers ∧ as.Perm q.elements
  | .shared r => ∃ bs, r.Holds bs ∧ as.Perm bs

theorem Holds.of_perm (h : q.Holds workers as) (hp : bs.Perm as) : q.Holds workers bs := by
  cases q with
  | stealing q => exact ⟨h.1, hp.trans h.2⟩
  | shared r =>
    obtain ⟨cs, hr, hcs⟩ := h
    exact ⟨cs, hr, hp.trans hcs⟩

theorem Holds.inject (h : q.Holds workers as) (hq : q.inject? a = some q') :
    q'.Holds workers (as ++ [a]) := by
  cases q with
  | stealing q =>
    cases hq
    exact ⟨h.1, List.perm_append_comm.trans ((h.2.cons a).trans (q.elements_inject a).symm)⟩
  | shared r =>
    obtain ⟨bs, hr, hbs⟩ := h
    obtain ⟨r', hpush, rfl⟩ := Option.map_eq_some_iff.mp hq
    exact ⟨bs ++ [a], hr.push hpush, hbs.append_right _⟩

theorem Holds.push (h : q.Holds workers as) (hw : worker < workers)
    (hq : q.push? worker a = some q') :
    q'.Holds workers (as ++ [a]) := by
  cases q with
  | stealing q =>
    cases hq
    refine ⟨?_, List.perm_append_comm.trans ((h.2.cons a).trans ?_)⟩
    · rw [← h.1]
      exact Array.size_modify
    · exact (Stealing.elements_push (h.1 ▸ hw) a).symm
  | shared r => exact h.inject hq

/-- What a worker takes was there, and all else stays. -/
theorem Holds.take (h : q.Holds workers as) (hw : worker < workers)
    (hq : q.take? worker = some (a, q')) : ∃ bs, as.Perm (a :: bs) ∧ q'.Holds workers bs := by
  cases q with
  | stealing q =>
    obtain ⟨⟨b, q'⟩, hfind, heq⟩ := Option.map_eq_some_iff.mp hq
    cases heq
    have hgives := Stealing.find?_gives (h.1 ▸ hw) hfind
    exact ⟨q'.elements, h.2.trans hgives.perm, hgives.size.trans h.1, .refl _⟩
  | shared r =>
    obtain ⟨bs, hr, hbs⟩ := h
    obtain ⟨⟨b, r'⟩, hpop, heq⟩ := Option.map_eq_some_iff.mp hq
    cases heq
    obtain ⟨cs, rfl, hr'⟩ := hr.pop hpop
    exact ⟨cs, hbs, cs, hr', .refl _⟩

end RunQueue

end ForkLisp.Schedule
