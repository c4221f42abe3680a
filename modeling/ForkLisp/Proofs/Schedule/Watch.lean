/-
No announcement of work is lost.

Workers look for work in one place after the other, while work is added and moved between the
places, and an announcement wakes one of those who sleep. Two things are kept whatever happens next
(`Sound.moves`):

* where a worker has looked since the last announcement, there is no more work than what is still to
  be announced (`Stance.Watchful`). Work comes to such a place only from outside or from a worker,
  which then owes an announcement; the worker that moves some of the common work to its own deque
  does not make it more, for everybody looks at the common queue before the deques of others;
* unless somebody is to be woken up from outside, there is a worker that does not sleep, or that
  fell asleep after the last announcement (`Stance.Alert`).

When all sleep and nothing is to be announced, the second names a worker that has looked everywhere
since the last announcement, and the first says that it missed nothing (`no_wakeup_lost`). The count
of the signal has 64 bits, so a worker that takes `2 ^ 64` announcements to look around sees the
count that it noted and may sleep while there is work (`wakeup_lost_after_turn`).
-/
import Mathlib
import ForkLisp.Schedule.Watch

namespace ForkLisp.Schedule

variable {α : Type}

/-! ### How much work there is -/

namespace Stealing

variable {q q' : Stealing α} {left : List Place} {worker more : Nat} {place : Place} {a : α}

/-- How much work is in a deque. -/
def length (q : Stealing α) (owner : Nat) : Nat := (q.locals[owner]?.getD []).length

/-- How much of the common work is where a worker has looked that has some places left. -/
def commonWeight (q : Stealing α) (left : List Place) : Nat :=
  if .common ∈ left then 0 else q.injector.length

/-- How much work is in the deques where a worker has looked that has some places left. -/
def dequeWeight (q : Stealing α) (left : List Place) : Nat :=
  ∑ owner ∈ Finset.range q.locals.size, if .deque owner ∈ left then 0 else q.length owner

/-- How much work is where a worker has looked that has some places left. -/
def weight (q : Stealing α) (left : List Place) : Nat := q.commonWeight left + q.dequeWeight left

theorem length_modify {owner : Nat} {f : List α → List α} (h : owner ≠ worker) :
    (({ q with locals := q.locals.modify worker f } : Stealing α)).length owner =
    q.length owner := by
  simp [length, Array.getElem?_modify, h.symm]

/-- One deque grows by some work, if it counts, and no other one does. -/
theorem dequeWeight_le {n : Nat} (owner : Nat) (hsize : q'.locals.size = q.locals.size)
    (hothers : ∀ other, other ≠ owner → q'.length other ≤ q.length other)
    (howner : .deque owner ∈ left ∨ q'.length owner ≤ q.length owner + n) :
    q'.dequeWeight left ≤ q.dequeWeight left + n := by
  have hone : ∑ other ∈ Finset.range q.locals.size, (if other = owner then n else 0) ≤ n := by
    rw [Finset.sum_ite_eq']
    split <;> omega
  refine Nat.le_trans ?_ (Nat.add_le_add_left hone _)
  unfold dequeWeight
  rw [hsize, ← Finset.sum_add_distrib]
  refine Finset.sum_le_sum fun other _ => ?_
  by_cases hleft : .deque other ∈ left
  · rw [if_pos hleft]
    exact Nat.zero_le _
  · rw [if_neg hleft, if_neg hleft]
    by_cases heq : other = owner
    · subst heq
      rw [if_pos rfl]
      exact howner.resolve_left hleft
    · rw [if_neg heq]
      exact hothers other heq

theorem weight_append (q : Stealing α) (a : α) (left : List Place) :
    (q.append a).weight left ≤ q.weight left + 1 := by
  have hcommon : (q.append a).commonWeight left ≤ q.commonWeight left + 1 := by
    unfold commonWeight
    split
    · omega
    · exact Nat.le_of_eq List.length_append
  have hdeques : (q.append a).dequeWeight left = q.dequeWeight left := rfl
  unfold weight
  omega

theorem weight_stack (q : Stealing α) (worker : Nat) (a : α) (left : List Place) :
    (q.stack worker a).weight left ≤ q.weight left + 1 := by
  have hcommon : (q.stack worker a).commonWeight left = q.commonWeight left := rfl
  have hdeques : (q.stack worker a).dequeWeight left ≤ q.dequeWeight left + 1 := by
    refine dequeWeight_le worker Array.size_modify ?_ (.inr ?_)
    · intro other hne
      exact Nat.le_of_eq (length_modify hne)
    · cases h : q.locals[worker]? <;> simp [length, stack, Array.getElem?_modify, h]
  unfold weight
  omega

/-! ### Looking into a place -/

/-- Every place is looked into. -/
theorem mem_round {owner : Nat} (hworker : worker < q.locals.size)
    (howner : owner < q.locals.size) :
    .deque owner ∈ q.round worker := by
  by_cases heq : owner = worker
  · rw [heq]
    exact List.mem_cons_self
  · refine List.mem_cons_of_mem _ (List.mem_cons_of_mem _ (List.mem_map_of_mem ?_))
    -- the owner is as many places behind the worker, around the circle
    by_cases hlt : worker < owner
    · refine List.mem_map.mpr ⟨owner - worker, List.mem_range'_1.mpr ⟨by omega, by omega⟩, ?_⟩
      rw [Nat.add_sub_cancel' (Nat.le_of_lt hlt), Nat.mod_eq_of_lt howner]
    · refine List.mem_map.mpr ⟨q.locals.size + owner - worker,
        List.mem_range'_1.mpr ⟨by omega, by omega⟩, ?_⟩
      have hround : worker + (q.locals.size + owner - worker) = owner + q.locals.size := by omega
      rw [hround, Nat.add_mod_right, Nat.mod_eq_of_lt howner]

theorem round_congr (h : q'.locals.size = q.locals.size) (worker : Nat) :
    q'.round worker = q.round worker := by
  unfold round victims
  rw [h]

/-- A worker that has yet to look at the common work has yet to look into the deques of others. -/
theorem mem_of_common {owner : Nat} (hleft : left <:+ q.round worker) (hcommon : .common ∈ left)
    (hworker : worker < q.locals.size) (howner : owner < q.locals.size) (hne : owner ≠ worker) :
    .deque owner ∈ left := by
  have hothers : .deque owner ∈ (q.victims worker).map Place.deque := by
    have hmem := mem_round hworker howner
    simpa [round, hne] using hmem
  rcases List.suffix_cons_iff.mp hleft with rfl | hleft
  · exact mem_round hworker howner
  · rcases List.suffix_cons_iff.mp hleft with rfl | hleft
    · exact List.mem_cons_of_mem _ hothers
    · have hmem := hleft.subset hcommon
      simp at hmem

/-- A worker that has looked nowhere has overlooked nothing. -/
theorem weight_round (h : worker < q.locals.size) : q.weight (q.round worker) = 0 := by
  have hcommon : q.commonWeight (q.round worker) = 0 :=
    if_pos (List.mem_cons_of_mem _ List.mem_cons_self)
  have hdeques : q.dequeWeight (q.round worker) = 0 := by
    refine Finset.sum_eq_zero fun owner howner => ?_
    exact if_pos (mem_round h (Finset.mem_range.mp howner))
  unfold weight
  omega

/-- How much work is in a place. -/
def held (q : Stealing α) : Place → Nat
  | .common => q.injector.length
  | .deque owner => q.length owner

/-- A look finds nothing only where nothing is. -/
theorem held_of_look?_none (h : q.look? worker more place = none) : q.held place = 0 := by
  cases place with
  | common =>
    simp only [look?, takeSome?] at h
    split at h
    · rename_i hnil
      exact congrArg List.length hnil
    · exact absurd h (by simp)
  | deque owner =>
    show (q.locals[owner]?.getD []).length = 0
    simp only [look?] at h
    split at h
    · rename_i heq
      subst heq
      unfold popLocal? at h
      split at h
      · exact absurd h (by simp)
      · rename_i hnone
        cases hl : q.locals[owner]? with
        | none => rfl
        | some as =>
          cases as with
          | nil => rfl
          | cons a as => exact absurd hl (hnone a as)
    · unfold stealFrom? at h
      cases hl : q.locals[owner]? with
      | none => rfl
      | some as =>
        rw [hl] at h
        cases hlast : as.getLast? with
        | none => exact congrArg List.length (List.getLast?_eq_none_iff.mp hlast)
        | some a => simp [hlast] at h

/-- A place in which nothing is may be looked into. -/
theorem weight_le_cons (h : q.held place = 0) (left : List Place) :
    q.weight left ≤ q.weight (place :: left) := by
  refine Nat.add_le_add ?_ (Finset.sum_le_sum fun owner _ => ?_)
  · unfold commonWeight
    by_cases heq : place = .common
    · subst heq
      have hnil : q.injector.length = 0 := h
      split <;> omega
    · have hiff : .common ∈ place :: left ↔ .common ∈ left := by
        simp [Ne.symm heq]
      exact Nat.le_of_eq (if_congr hiff.symm rfl rfl)
  · by_cases heq : place = .deque owner
    · subst heq
      have hnil : q.length owner = 0 := h
      split <;> omega
    · have hiff : .deque owner ∈ place :: left ↔ .deque owner ∈ left := by
        simp [Ne.symm heq]
      exact Nat.le_of_eq (if_congr hiff.symm rfl rfl)

/-- Work is taken out of a deque, and nothing else happens. -/
structure TakesFrom (q : Stealing α) (owner : Nat) (q' : Stealing α) : Prop where
  injector : q'.injector = q.injector
  signal : q'.signal = q.signal
  size : q'.locals.size = q.locals.size
  length_le : ∀ other, q'.length other ≤ q.length other

theorem takesFrom_set {owner : Nat} {as bs : List α} (h : q.locals[owner]? = some as)
    (hle : bs.length ≤ as.length) :
    q.TakesFrom owner { q with locals := q.locals.set! owner bs } where
  injector := rfl
  signal := rfl
  size := by simp
  length_le other := by
    obtain ⟨hlt, rfl⟩ := Array.getElem?_eq_some_iff.mp h
    by_cases heq : owner = other
    · subst heq
      simpa [length, hlt] using hle
    · simp [length, heq]

theorem takesFrom_of_look? {owner : Nat} (h : q.look? worker more (.deque owner) = some (a, q')) :
    q.TakesFrom owner q' := by
  simp only [look?] at h
  split at h
  · rename_i heq
    subst heq
    unfold popLocal? at h
    split at h
    · rename_i b bs hlocal
      obtain ⟨-, rfl⟩ := Prod.mk.inj (Option.some.inj h)
      exact takesFrom_set hlocal (Nat.le_succ _)
    · exact absurd h (by simp)
  · unfold stealFrom? at h
    split at h
    · rename_i bs hlocal
      split at h
      · obtain ⟨-, rfl⟩ := Prod.mk.inj (Option.some.inj h)
        refine takesFrom_set hlocal ?_
        rw [List.length_dropLast]
        exact Nat.sub_le _ _
      · exact absurd h (by simp)
    · exact absurd h (by simp)

/-- A look changes neither the number of deques nor the signal. -/
theorem same_of_look? (h : q.look? worker more place = some (a, q')) :
    q'.locals.size = q.locals.size ∧ q'.signal = q.signal := by
  cases place with
  | common =>
    simp only [look?, takeSome?] at h
    split at h
    · exact absurd h (by simp)
    · obtain ⟨-, rfl⟩ := Prod.mk.inj (Option.some.inj h)
      exact ⟨Array.size_modify, rfl⟩
  | deque owner => exact ⟨(takesFrom_of_look? h).size, (takesFrom_of_look? h).signal⟩

/-- Whatever a worker takes or moves, there is no more work where another one has looked. -/
theorem weight_look? {other : Nat} (hleft : left <:+ q.round other) (hother : other < q.locals.size)
    (hworker : worker < q.locals.size) (hne : worker ≠ other)
    (h : q.look? worker more place = some (a, q')) : q'.weight left ≤ q.weight left := by
  cases place with
  -- what is taken from a deque goes to the hand of the worker, and no deque grows
  | deque owner =>
    have htakes := takesFrom_of_look? h
    have hcommon : q'.commonWeight left = q.commonWeight left := by
      unfold commonWeight
      rw [htakes.injector]
    have hdeques : q'.dequeWeight left ≤ q.dequeWeight left + 0 :=
      dequeWeight_le owner htakes.size (fun j _ => htakes.length_le j)
        (.inr (htakes.length_le owner))
    unfold weight
    omega
  | common =>
    simp only [look?, takeSome?] at h
    split at h
    · exact absurd h (by simp)
    · rename_i b bs hinjector
      obtain ⟨-, rfl⟩ := Prod.mk.inj (Option.some.inj h)
      have hsame : ∀ j, j ≠ worker → length { q with
          injector := bs.drop more, locals := q.locals.modify worker (bs.take more ++ ·) } j ≤
          q.length j := fun j hj => Nat.le_of_eq (length_modify hj)
      unfold weight
      by_cases hcommon : .common ∈ left
      · -- the deque that the work is moved to is still to be looked into
        have hmem := mem_of_common hleft hcommon hother hworker hne
        have hdeques := dequeWeight_le (n := 0) worker Array.size_modify hsame (.inl hmem)
        unfold commonWeight
        rw [if_pos hcommon, if_pos hcommon]
        omega
      · have hgrows : length { q with
            injector := bs.drop more, locals :=
              q.locals.modify worker (bs.take more ++ ·) } worker ≤
            q.length worker + (bs.take more).length := by
          obtain ⟨as, has⟩ : ∃ as, q.locals[worker]? = some as :=
            ⟨_, Array.getElem?_eq_getElem hworker⟩
          simp [length, Array.getElem?_modify, has, Nat.add_comm]
        have hdeques := @dequeWeight_le _ _ _ left _ worker Array.size_modify hsame (.inr hgrows)
        unfold commonWeight
        rw [if_neg hcommon, if_neg hcommon, hinjector, List.length_cons]
        rw [List.length_take] at hdeques
        rw [List.length_drop]
        omega

/-- Nothing is anywhere. -/
def IsEmpty (q : Stealing α) : Prop := q.injector = [] ∧ ∀ as ∈ q.locals, as = []

theorem isEmpty_of_weight (h : q.weight [] = 0) : q.IsEmpty := by
  unfold weight at h
  have hcommon : q.commonWeight [] = q.injector.length := if_neg List.not_mem_nil
  have hdeques : q.dequeWeight [] = 0 := by omega
  refine ⟨List.length_eq_zero_iff.mp (by omega), fun as has => ?_⟩
  obtain ⟨i, hi, rfl⟩ := Array.mem_iff_getElem.mp has
  have hzero := Finset.sum_eq_zero_iff.mp hdeques i (Finset.mem_range.mpr hi)
  rw [if_neg List.not_mem_nil] at hzero
  simpa [length, hi] using hzero

end Stealing

/-! ### What is kept -/

namespace Watch

variable {s s' : Watch α} {i : Nat} {st st' : Stance α} {stances : List (Stance α)}

/-- How many announcements are owed. -/
def owed (s : Watch α) : Nat := s.pushed + s.stances.countP Stance.isPushed

/-- A note that was taken in the past. -/
structure Remembers (s : Watch α) (note : Note) : Prop where
  le : note.since ≤ s.announced
  seen : note.seen = UInt64.ofNat note.since

/-- Where a worker has looked since the last announcement, there is no more work than is to be
announced. A worker falls asleep right after an announcement only if the count has come round. -/
def Watchful (s : Watch α) (i : Nat) : Stance α → Prop
  | .seeking note left => s.Remembers note ∧ left <:+ s.queues.round i ∧
      (note.since = s.announced → s.queues.weight left ≤ s.owed)
  | .asleep note missed => s.Remembers note ∧
      (note.since = s.announced → s.queues.weight [] ≤ s.owed) ∧ (missed = 0 ∨ 2 ^ 64 ≤ missed)
  | _ => True

/-- A worker does not sleep, or has begun to look after the last announcement, or took `2 ^ 64`
announcements to look. -/
def Alert (s : Watch α) : Stance α → Prop
  | .asleep note missed => note.since = s.announced ∨ 2 ^ 64 ≤ missed
  | _ => True

structure Sound (s : Watch α) : Prop where
  size : s.queues.locals.size = s.stances.length
  epoch : s.queues.signal.epoch = UInt64.ofNat s.announced
  unmanned : s.stances = [] → s.queues.injector = []
  watchful : ∀ i st, s.stances[i]? = some st → s.Watchful i st
  alert : s.stopping = true ∨ 0 < s.calling ∨ s.stances = [] ∨ ∃ st ∈ s.stances, s.Alert st

theorem sound_new (workers : Nat) : (new workers : Watch α).Sound where
  size := by simp [new, Stealing.ofWorkers]
  epoch := rfl
  unmanned _ := rfl
  watchful i st h := by
    obtain rfl := List.eq_of_mem_replicate (List.mem_of_getElem? h)
    trivial
  alert := by
    cases workers with
    | zero => exact .inr (.inr (.inl rfl))
    | succ n => exact .inr (.inr (.inr ⟨.ready, by simp [new], trivial⟩))

/-- Nothing was announced, and there is more work only where more is owed. -/
theorem Watchful.frame (h : s.Watchful i st) (hsize : s'.queues.locals.size = s.queues.locals.size)
    (hannounced : s'.announced = s.announced)
    (hweight : ∀ left, left <:+ s.queues.round i →
      s'.queues.weight left + s.owed ≤ s.queues.weight left + s'.owed) : s'.Watchful i st := by
  have hremembers : ∀ note, s.Remembers note → s'.Remembers note := fun note hn =>
    ⟨hannounced ▸ hn.le, hn.seen⟩
  cases st with
  | seeking note left =>
    obtain ⟨hn, hleft, hw⟩ := h
    refine ⟨hremembers note hn, Stealing.round_congr hsize i ▸ hleft, fun hsince => ?_⟩
    have hold := hw (hsince.trans hannounced)
    have hgrow := hweight left hleft
    omega
  | asleep note missed =>
    obtain ⟨hn, hw, hmissed⟩ := h
    refine ⟨hremembers note hn, fun hsince => ?_, hmissed⟩
    have hold := hw (hsince.trans hannounced)
    have hgrow := hweight [] List.nil_suffix
    omega
  | _ => trivial

/-- After an announcement nobody has looked anywhere. -/
theorem Watchful.announce (h : s.Watchful i st)
    (hsize : s'.queues.locals.size = s.queues.locals.size)
    (hannounced : s'.announced = s.announced + 1) : s'.Watchful i st := by
  have hremembers : ∀ note, s.Remembers note → s'.Remembers note := fun note hn =>
    ⟨by have := hn.le; omega, hn.seen⟩
  cases st with
  | seeking note left =>
    obtain ⟨hn, hleft, -⟩ := h
    refine ⟨hremembers note hn, Stealing.round_congr hsize i ▸ hleft, fun hsince => ?_⟩
    have hle := hn.le
    omega
  | asleep note missed =>
    obtain ⟨hn, -, hmissed⟩ := h
    refine ⟨hremembers note hn, fun hsince => ?_, hmissed⟩
    have hle := hn.le
    omega
  | _ => trivial

theorem Watchful.rouse (h : s.Watchful i st) : s.Watchful i st.rouse := by
  cases st with
  | asleep note missed => exact ⟨h.1, List.nil_suffix, h.2.1⟩
  | _ => exact h

/-! ### What a worker does -/

theorem owed_set {l : List (Stance α)} (h : l[i]? = some st) (st' : Stance α) :
    (l.set i st').countP Stance.isPushed + st.isPushed.toNat =
      l.countP Stance.isPushed + st'.isPushed.toNat := by
  obtain ⟨hi, rfl⟩ := List.getElem?_eq_some_iff.mp h
  have hmem : l[i].isPushed = true → 0 < l.countP Stance.isPushed := fun hp =>
    List.countP_pos_iff.mpr ⟨_, List.getElem_mem hi, hp⟩
  rw [List.countP_set hi]
  cases hp : l[i].isPushed with
  | false => cases st'.isPushed <;> simp
  | true =>
    have hpos := hmem hp
    cases st'.isPushed <;> simp <;> omega

/-- What one worker does leaves all others as watchful as they were. -/
theorem watchful_set (hs : s.Sound) (hi : s.stances[i]? = some st)
    (hstances : s'.stances = s.stances.set i st') (hnew : s'.Watchful i st')
    (hothers : ∀ k st, k ≠ i → k < s.stances.length → s.Watchful k st → s'.Watchful k st) :
    ∀ k st, s'.stances[k]? = some st → s'.Watchful k st := by
  intro k other hk
  have hlt : i < s.stances.length := (List.getElem?_eq_some_iff.mp hi).1
  rw [hstances] at hk
  by_cases heq : i = k
  · subst heq
    rw [List.getElem?_set_self hlt] at hk
    obtain rfl := Option.some.inj hk
    exact hnew
  · rw [List.getElem?_set_ne heq] at hk
    exact hothers k other (Ne.symm heq) (List.getElem?_eq_some_iff.mp hk).1 (hs.watchful k other hk)

/-- The count is the one that was noted if nothing was announced, or if `2 ^ 64`
announcements were made. -/
theorem missed_of_allowsSleep {note : Note} (hs : s.Sound) (hn : s.Remembers note)
    (h : s.queues.signal.allowsSleep note.seen = true) :
    note.since = s.announced ∨ 2 ^ 64 ≤ s.announced - note.since := by
  have hle := hn.le
  have hseen : UInt64.ofNat s.announced = UInt64.ofNat note.since := by
    rw [← hs.epoch, ← hn.seen]
    simpa [Signal.allowsSleep] using h
  have hmod := congrArg UInt64.toNat hseen
  rw [UInt64.toNat_ofNat', UInt64.toNat_ofNat'] at hmod
  omega

/-- What a worker does leaves the queues as many as they were, and the signal alone. -/
theorem Does.same {q : Stealing α} (h : s.Does i st q st') :
    q.locals.size = s.queues.locals.size ∧ q.signal = s.queues.signal := by
  cases h with
  | find h => exact Stealing.same_of_look? h
  | push => exact ⟨Array.size_modify, rfl⟩
  | _ => exact ⟨rfl, rfl⟩

/-- Where another worker has looked, no more is added than is owed for it. -/
theorem Does.weight_le {q : Stealing α} (hs : s.Sound) (hi : s.stances[i]? = some st)
    (h : s.Does i st q st') {k : Nat} {left : List Place} (hk : k ≠ i) (hlen : k < s.stances.length)
    (hleft : left <:+ s.queues.round k) :
    q.weight left + s.owed ≤
      s.queues.weight left + (s.pushed + (s.stances.set i st').countP Stance.isPushed) := by
  have howed := owed_set hi st'
  unfold owed
  cases h with
  | find h =>
    have hworker : i < s.queues.locals.size := hs.size ▸ (List.getElem?_eq_some_iff.mp hi).1
    have hle := Stealing.weight_look? hleft (hs.size ▸ hlen) hworker (Ne.symm hk) h
    simp only [Stance.isPushed, Bool.toNat_false] at howed
    omega
  | push b =>
    have hle := s.queues.weight_stack i b left
    simp only [Stance.isPushed, Bool.toNat_false, Bool.toNat_true] at howed
    omega
  | @suspend a =>
    have hle := s.queues.weight_append a left
    simp only [Stance.isPushed, Bool.toNat_false, Bool.toNat_true] at howed
    omega
  | _ =>
    simp only [Stance.isPushed, Bool.toNat_false] at howed
    omega

/-- When a worker goes on that owes no announcement, no fewer are owed, so that a bound by
them still holds. -/
theorem weight_le_owed_set {queues : Stealing α} {before after : List Place}
    (hi : s.stances[i]? = some st) (hst : st.isPushed = false)
    (hw : s.queues.weight before ≤ s.owed) (hle : queues.weight after ≤ s.queues.weight before) :
    queues.weight after ≤ s.pushed + (s.stances.set i st').countP Stance.isPushed := by
  have howed := owed_set hi st'
  unfold owed at hw
  rw [hst, Bool.toNat_false] at howed
  omega

/-- A worker that goes on is as watchful as it has to be. -/
theorem Does.watchful {q : Stealing α} (hs : s.Sound) (hi : s.stances[i]? = some st)
    (h : s.Does i st q st') :
    Watchful { s with queues := q, stances := s.stances.set i st' } i st' := by
  have hwatchful := hs.watchful i st hi
  cases h with
  | note =>
    refine ⟨⟨Nat.le_refl _, hs.epoch⟩, List.suffix_refl _, fun _ => ?_⟩
    show s.queues.weight _ ≤ _
    rw [Stealing.weight_round (hs.size ▸ (List.getElem?_eq_some_iff.mp hi).1)]
    exact Nat.zero_le _
  | @miss note place left more h =>
    -- nothing is in the place that was looked into last
    obtain ⟨hn, hleft, hw⟩ := hwatchful
    refine ⟨⟨hn.le, hn.seen⟩, (List.suffix_cons place left).trans hleft, fun hsince => ?_⟩
    exact weight_le_owed_set hi rfl (hw hsince)
      (Stealing.weight_le_cons (Stealing.held_of_look?_none h) left)
  | @sleep note h hrun =>
    obtain ⟨hn, hleft, hw⟩ := hwatchful
    refine ⟨⟨hn.le, hn.seen⟩, fun hsince => weight_le_owed_set hi rfl
      (hw hsince) (Nat.le_refl _), ?_⟩
    rcases missed_of_allowsSleep hs hn h with hsince | hturn
    · exact .inl (by omega)
    · exact .inr hturn
  | @wake note missed =>
    -- it has looked everywhere, and is back where it was before it fell asleep
    obtain ⟨hn, hw, -⟩ := hwatchful
    exact ⟨⟨hn.le, hn.seen⟩, List.nil_suffix, fun hsince =>
      weight_le_owed_set hi rfl (hw hsince) (Nat.le_refl _)⟩
  | _ => trivial

/-- A worker that falls asleep has missed no announcement, or so many that the count came round. -/
theorem Does.alert {q : Stealing α} (hs : s.Sound) (hi : s.stances[i]? = some st)
    (h : s.Does i st q st') :
    Alert { s with queues := q, stances := s.stances.set i st' } st' := by
  have hwatchful := hs.watchful i st hi
  cases h with
  | sleep h hrun =>
    have hmissed := missed_of_allowsSleep hs hwatchful.1 h
    exact hmissed
  | _ => trivial

/-- A worker that goes on is watchful and alert, and owes an announcement for what it adds. -/
theorem Sound.work (hs : s.Sound) {q : Stealing α} (hi : s.stances[i]? = some st)
    (hdoes : s.Does i st q st') : Sound { s with queues := q, stances := s.stances.set i st' } := by
  have hlt : i < s.stances.length := (List.getElem?_eq_some_iff.mp hi).1
  obtain ⟨hsize, hsignal⟩ := hdoes.same
  refine ⟨?_, ?_, fun hnil => ?_, ?_, ?_⟩
  · show q.locals.size = _
    rw [hsize, hs.size, List.length_set]
  · show q.signal.epoch = _
    rw [hsignal]
    exact hs.epoch
  · rw [(List.set_eq_nil_iff ..).mp hnil] at hlt
    exact absurd hlt (Nat.not_lt_zero i)
  · refine watchful_set hs hi rfl (hdoes.watchful hs hi) fun k other hk hlen hold => ?_
    exact hold.frame hsize rfl fun left hleft => hdoes.weight_le hs hi hk hlen hleft
  · exact .inr (.inr (.inr ⟨st', List.mem_set hlt st', hdoes.alert hs hi⟩))

/-! ### Announcements and calls -/

theorem Sound.announce (hs : s.Sound) {next : Option α} (hi : s.stances[i]? = some (.pushed next)) :
    Sound { s with
      queues := s.queues.announce
      announced := s.announced + 1
      stances := s.stances.set i (.calling next) } := by
  have hlt : i < s.stances.length := (List.getElem?_eq_some_iff.mp hi).1
  refine ⟨?_, ?_, fun hnil => ?_, ?_, ?_⟩
  · show s.queues.locals.size = _
    rw [hs.size, List.length_set]
  · show s.queues.signal.epoch + 1 = _
    rw [hs.epoch, UInt64.ofNat_add]
    rfl
  · exact hs.unmanned ((List.set_eq_nil_iff ..).mp hnil)
  · exact watchful_set hs hi rfl trivial fun k other _ _ hold => hold.announce rfl rfl
  · exact .inr (.inr (.inr ⟨.calling next, List.mem_set hlt _, trivial⟩))

/-- Somebody is woken up, if anybody sleeps, and nothing else changes. -/
theorem Wakes.sound (hs : s.Sound) (hw : Wakes s.stances stances) (calling : Nat) :
    Sound { s with stances, calling } ∧ stances.length = s.stances.length ∧
      ∀ st, st.isAsleep = false → st ∈ s.stances → st ∈ stances := by
  cases hw with
  -- the worker that is woken looks for work again, and it alone is alert
  | @one j note missed hj =>
    have hlt : j < s.stances.length := (List.getElem?_eq_some_iff.mp hj).1
    have howed := owed_set hj (.seeking note [])
    refine ⟨⟨?_, hs.epoch, fun hnil => ?_, ?_, ?_⟩, List.length_set, fun st hst hmem => ?_⟩
    · exact hs.size.trans List.length_set.symm
    · exact hs.unmanned ((List.set_eq_nil_iff ..).mp hnil)
    · have hframe : ∀ k st, s.Watchful k st → Watchful { s with
          stances := s.stances.set j (.seeking note []), calling } k st := by
        intro k st hold
        refine hold.frame rfl rfl fun left _ => ?_
        simp only [Stance.isPushed, Bool.toNat_false] at howed
        show s.queues.weight left + (s.pushed + s.stances.countP Stance.isPushed) ≤
          s.queues.weight left + (s.pushed + (s.stances.set j _).countP Stance.isPushed)
        omega
      exact watchful_set hs hj rfl (hframe j _ (hs.watchful j _ hj).rouse) fun k st _ _ =>
        hframe k st
    · exact .inr (.inr (.inr ⟨_, List.mem_set hlt _, trivial⟩))
    · obtain ⟨k, hk⟩ := List.mem_iff_getElem?.mp hmem
      have hne : j ≠ k := by
        rintro rfl
        obtain rfl := Option.some.inj (hj.symm.trans hk)
        exact absurd hst (by simp [Stance.isAsleep])
      exact List.mem_of_getElem? ((List.getElem?_set_ne hne).trans hk)
  | nobody h =>
    refine ⟨⟨hs.size, hs.epoch, hs.unmanned, fun k st hk => ?_, ?_⟩, rfl, fun _ _ hmem => hmem⟩
    · exact (hs.watchful k st hk).frame rfl rfl fun left _ => Nat.le_refl _
    · -- nobody sleeps, so everybody is alert
      cases hnil : s.stances with
      | nil => exact .inr (.inr (.inl rfl))
      | cons st rest =>
        refine .inr (.inr (.inr ⟨st, List.mem_cons_self, ?_⟩))
        have hst := h st (hnil ▸ List.mem_cons_self)
        cases st with
        | asleep => exact absurd hst (by simp [Stance.isAsleep])
        | _ => trivial

theorem Sound.call (hs : s.Sound) {next : Option α} (hi : s.stances[i]? = some (.calling next))
    (hw : Wakes s.stances stances) : Sound { s with stances := stances.set i (.resume next) } := by
  obtain ⟨hsound, hlength, hkept⟩ := hw.sound hs s.calling
  have hlt : i < stances.length := hlength ▸ (List.getElem?_eq_some_iff.mp hi).1
  -- the worker that calls does not sleep, so it is not the one that is woken up
  have hcalling : stances[i]? = some (.calling next) := by
    cases hw with
    | @one j note missed hj =>
      have hne : j ≠ i := by
        rintro rfl
        exact absurd (hj.symm.trans hi) (by simp)
      exact (List.getElem?_set_ne hne).trans hi
    | nobody => exact hi
  have howed := owed_set hcalling (.resume next)
  have hresume : (Stance.resume next).isPushed = false := by cases next <;> rfl
  have hframe : ∀ k st, Watchful { s with stances } k st → Watchful { s with
      stances := stances.set i (.resume next) } k st := by
    intro k st hold
    refine hold.frame rfl rfl fun left _ => ?_
    rw [hresume] at howed
    simp only [Stance.isPushed, Bool.toNat_false] at howed
    show s.queues.weight left + (s.pushed + stances.countP Stance.isPushed) ≤
      s.queues.weight left + (s.pushed + (stances.set i _).countP Stance.isPushed)
    omega
  refine ⟨?_, hsound.epoch, fun hnil => ?_, ?_, ?_⟩
  · exact hsound.size.trans List.length_set.symm
  · exact hsound.unmanned ((List.set_eq_nil_iff ..).mp hnil)
  · refine watchful_set hsound hcalling rfl ?_ fun k st _ _ => hframe k st
    cases next <;> trivial
  · refine .inr (.inr (.inr ⟨_, List.mem_set hlt _, ?_⟩))
    cases next <;> trivial

/-- Whatever happens next, what is kept is kept. -/
theorem Sound.moves (hs : s.Sound) (hm : s.Moves s') : s'.Sound := by
  cases hm with
  | work hi hdoes => exact hs.work hi hdoes
  | announce hi => exact hs.announce hi
  | call hi hw => exact hs.call hi hw
  | submit a hmanned =>
    refine ⟨hs.size, hs.epoch, fun hnil => absurd hnil hmanned, fun k st hk => ?_, hs.alert⟩
    refine (hs.watchful k st hk).frame rfl rfl fun left _ => ?_
    have hle := s.queues.weight_append a left
    show (s.queues.append a).weight left + (s.pushed + s.stances.countP Stance.isPushed) ≤
      s.queues.weight left + (s.pushed + 1 + s.stances.countP Stance.isPushed)
    omega
  | announceSubmitted hn =>
    refine ⟨hs.size, ?_, hs.unmanned, fun k st hk => (hs.watchful k st hk).announce rfl rfl, ?_⟩
    · show s.queues.signal.epoch + 1 = _
      rw [hs.epoch, UInt64.ofNat_add]
      rfl
    · exact .inr (.inl (Nat.succ_pos _))
  | @callSubmitted n stances hn hw => exact (hw.sound hs n).1
  | stop =>
    refine ⟨hs.size, hs.epoch, hs.unmanned, fun k st hk => ?_, .inl rfl⟩
    exact (hs.watchful k st hk).frame rfl rfl fun left _ => Nat.le_refl _
  | callAll hstop =>
    refine ⟨?_, ?_, fun hnil => hs.unmanned (List.map_eq_nil_iff.mp hnil),
      fun k st hk => ?_, .inl hstop⟩
    · exact hs.size.trans (List.length_map _).symm
    · show s.queues.signal.epoch + 1 = _
      rw [hs.epoch, UInt64.ofNat_add]
      rfl
    · obtain ⟨st, hst, rfl⟩ := List.getElem?_map .. ▸ hk |> Option.map_eq_some_iff.mp
      exact (hs.watchful k st hst).rouse.announce rfl rfl

theorem sound_of_reaches {workers : Nat} (h : (new workers).Reaches s) : s.Sound := by
  induction h with
  | refl => exact sound_new workers
  | step _ hm ih => exact ih.moves hm

/-! ### Nobody sleeps while there is work -/

/-- Nobody interrupts a worker that finds nothing. -/
theorem Reaches.miss {i : Nat} {note : Note} {left : List Place} (h : s.Reaches s')
    (hi : s'.stances[i]? = some (.seeking note left))
    (hnone : ∀ place ∈ left, s'.queues.look? i 0 place = none) :
    s.Reaches { s' with stances := s'.stances.set i (.seeking note []) } := by
  induction left generalizing s' with
  | nil =>
    obtain ⟨hlt, heq⟩ := List.getElem?_eq_some_iff.mp hi
    rw [← heq, List.set_getElem_self]
    exact h
  | cons place left ih =>
    have hlt := (List.getElem?_eq_some_iff.mp hi).1
    have hmiss := h.step (.work hi (.miss (hnone place List.mem_cons_self)))
    have hrest := ih hmiss (List.getElem?_set_self hlt) fun p hp =>
      hnone p (List.mem_cons_of_mem place hp)
    simpa [List.set_set] using hrest

/-- However workers look for work, fall asleep and are woken up, and however work is added meanwhile
and moved from one queue to another: when all that was added has been announced and every worker
sleeps, there is no work in any of the queues. No worker may have fallen asleep when work had been
announced `2 ^ 64` times since it began to look, for then it saw the count that it had noted. -/
theorem no_wakeup_lost (workers : Nat) (h : (new workers).Reaches s) (hsettled : s.Settled)
    (hrun : s.stopping = false) (hasleep : ∀ st ∈ s.stances, st.isAsleep = true)
    (hfew : ∀ st ∈ s.stances, st.missed < 2 ^ 64) : s.queues.IsEmpty := by
  have hs := sound_of_reaches h
  have howed : s.owed = 0 := by
    have hnone : s.stances.countP Stance.isPushed = 0 := by
      refine List.countP_eq_zero.mpr fun st hst => ?_
      have hsleeps := hasleep st hst
      cases st with
      | pushed => exact absurd hsleeps (by simp [Stance.isAsleep])
      | _ => simp [Stance.isPushed]
    unfold owed
    rw [hsettled.pushed, hnone]
  rcases hs.alert with hstop | hcalling | hnil | ⟨st, hmem, halert⟩
  · exact absurd (hrun.symm.trans hstop) (by simp)
  · exact absurd hsettled.calling (Nat.ne_of_gt hcalling)
  · have hsize : s.queues.locals.size = 0 := by rw [hs.size, hnil]; rfl
    refine ⟨hs.unmanned hnil, fun as has => ?_⟩
    rw [Array.eq_empty_of_size_eq_zero hsize] at has
    exact absurd has (by simp)
  · obtain ⟨i, hi⟩ := List.mem_iff_getElem?.mp hmem
    have hwatchful := hs.watchful i st hi
    have hsleeps := hasleep st hmem
    have hmissed := hfew st hmem
    cases st with
    | asleep note missed =>
      rcases halert with hsince | hturn
      · -- this worker has looked everywhere since the last announcement
        have hle := hwatchful.2.1 hsince
        rw [howed] at hle
        exact Stealing.isEmpty_of_weight (Nat.le_zero.mp hle)
      · exact absurd hmissed (Nat.not_lt.mpr hturn)
    | _ => exact absurd hsleeps (by simp [Stance.isAsleep])

/-- Work comes from outside, one of two workers takes it before it is announced, and the other one
has looked for work too early: it may not sleep until it has looked again. -/
theorem no_wakeup_lost_early : ∃ s : Watch Nat, (new 2).Reaches s ∧ s.announced = 1 ∧ s.Settled ∧
    s.stopping = false ∧ (∀ st ∈ s.stances, st.isAsleep = true) ∧
    (∀ st ∈ s.stances, st.missed < 2 ^ 64) ∧ s.queues.IsEmpty := by
  let q : Stealing Nat := .ofWorkers 2
  have hearly : (new 2).Reaches ⟨q, 0, [.ready, .seeking ⟨0, 0⟩ []], 0, 0, false⟩ :=
    (Reaches.refl.step (.work (i := 1) rfl .note)).miss (i := 1) rfl (by decide)
  have hfound : (new 2).Reaches ⟨q, 0, [.busy 7, .seeking ⟨0, 0⟩ []], 1, 0, false⟩ :=
    (((hearly.step (.submit 7 (by simp))).step (.work (i := 0) rfl .note)).step
      (.work (i := 0) rfl (.miss (show (q.append 7).look? 0 0 (.deque 0) = none from rfl)))).step
      (.work (i := 0) rfl (.find (show (q.append 7).look? 0 0 .common = some (7, q) from rfl)))
  have hdone : (new 2).Reaches ⟨q.announce, 1, [.ready, .ready], 0, 0, false⟩ :=
    (((hfound.step (.announceSubmitted rfl)).step
      (.callSubmitted rfl (.nobody (by simp [Stance.isAsleep])))).step
      (.work (i := 0) rfl .finish)).step (.work (i := 1) rfl (.stay (.inl rfl)))
  have hlooked : (new 2).Reaches
      ⟨q.announce, 1, [.seeking ⟨1, 1⟩ [], .seeking ⟨1, 1⟩ []], 0, 0, false⟩ :=
    ((hdone.step (.work (i := 0) rfl .note)).miss (i := 0) rfl (by decide)).step
      (.work (i := 1) rfl .note) |>.miss (i := 1) rfl (by decide)
  have hasleep : (new 2).Reaches
      ⟨q.announce, 1, [.asleep ⟨1, 1⟩ 0, .asleep ⟨1, 1⟩ 0], 0, 0, false⟩ :=
    (hlooked.step (.work (i := 0) rfl (.sleep rfl rfl))).step
      (.work (i := 1) rfl (.sleep rfl rfl))
  have hsettled : Settled
      (⟨q.announce, 1, [.asleep ⟨1, 1⟩ 0, .asleep ⟨1, 1⟩ 0], 0, 0, false⟩ : Watch Nat) :=
    ⟨rfl, rfl, by simp [Stance.owes]⟩
  have hsleep : ∀ st ∈ ([.asleep ⟨1, 1⟩ 0, .asleep ⟨1, 1⟩ 0] : List (Stance Nat)),
      st.isAsleep = true := by
    simp [Stance.isAsleep]
  have hfew : ∀ st ∈ ([.asleep ⟨1, 1⟩ 0, .asleep ⟨1, 1⟩ 0] : List (Stance Nat)),
      st.missed < 2 ^ 64 := by
    simp [Stance.missed]
  exact ⟨_, hasleep, rfl, hsettled, rfl, hsleep, hfew,
    no_wakeup_lost 2 hasleep hsettled rfl hsleep hfew⟩

/-! ### The count comes round -/

/-- The queues of two workers: some common work, which has been announced `n` times. -/
def pair (injector : List Nat) (n : Nat) : Stealing Nat :=
  ⟨injector, #[[], []], ⟨UInt64.ofNat n⟩⟩

theorem pair_announce (injector : List Nat) (n : Nat) :
    (pair injector n).announce = pair injector (n + 1) := by
  unfold pair Stealing.announce Signal.notify
  rw [UInt64.ofNat_add]
  rfl

/-- The first of two workers has looked everywhere before work was announced for the first time, and
is held up before it falls asleep. The second one does all the work meanwhile. -/
def heldUp (n : Nat) : Watch Nat :=
  ⟨pair [] n, n, [.seeking ⟨0, 0⟩ [], .ready], 0, 0, false⟩

theorem reaches_heldUp (n : Nat) : (new 2).Reaches (heldUp n) := by
  induction n with
  | zero => exact (Reaches.refl.step (.work (i := 0) rfl .note)).miss (i := 0) rfl (by decide)
  | succ n ih =>
    have hannounced : (new 2).Reaches
        ⟨pair [7] (n + 1), n + 1, [.seeking ⟨0, 0⟩ [], .ready], 0, 1, false⟩ :=
      pair_announce [7] n ▸ (ih.step (.submit 7 (by simp [heldUp]))).step (.announceSubmitted rfl)
    have hnoted := (hannounced.step (.callSubmitted rfl
      (.nobody (by simp [Stance.isAsleep])))).step (.work (i := 1) rfl .note)
    have hmissed := hnoted.step (.work (i := 1) rfl
      (.miss (show (pair [7] (n + 1)).look? 1 0 (.deque 1) = none from rfl)))
    have hfound := hmissed.step (.work (i := 1) rfl
      (.find (show (pair [7] (n + 1)).look? 1 0 .common = some (7, pair [] (n + 1)) from rfl)))
    exact hfound.step (.work (i := 1) rfl .finish)

/-- A worker is held up while work is announced `2 ^ 64` times, and the other one sleeps when work
is announced for the last time. The first sees the count that it noted and falls asleep, it is the
one that is woken up, and it falls asleep again: the work is left where it is. -/
theorem wakeup_lost_after_turn : ∃ s : Watch Nat, (new 2).Reaches s ∧ s.Settled ∧
    s.stopping = false ∧ (∀ st ∈ s.stances, st.isAsleep = true) ∧ ¬ s.queues.IsEmpty := by
  -- the number of announcements stays a variable: only the count that it leaves is looked at
  obtain ⟨n, hn⟩ : ∃ n, UInt64.ofNat (n + 1) = 0 := ⟨2 ^ 64 - 1, rfl⟩
  have hlooked : (new 2).Reaches ⟨pair [] n, n,
      [.seeking ⟨0, 0⟩ [], .seeking ⟨UInt64.ofNat n, n⟩ []], 0, 0, false⟩ :=
    ((reaches_heldUp n).step (.work (i := 1) rfl .note)).miss (i := 1) rfl (by
      intro place hplace
      have hcases : place = .deque 1 ∨ place = .common ∨ place = .deque 0 := by
        simpa [heldUp, pair, Stealing.round, Stealing.victims] using hplace
      rcases hcases with rfl | rfl | rfl <;> rfl)
  have hslept := hlooked.step (.work (i := 1) rfl (.sleep (by simp [Signal.allowsSleep, pair]) rfl))
  have hannounced : (new 2).Reaches ⟨pair [7] (n + 1), n + 1,
      [.seeking ⟨0, 0⟩ [], .asleep ⟨UInt64.ofNat n, n⟩ (n - n)], 0, 1, false⟩ :=
    pair_announce [7] n ▸ (hslept.step (.submit 7 (by simp))).step (.announceSubmitted rfl)
  have hcount : (pair [7] (n + 1)).signal.allowsSleep 0 = true := by
    simp [Signal.allowsSleep, pair, hn]
  have hcalled := (hannounced.step (.work (i := 0) rfl (.sleep hcount rfl))).step
    (.callSubmitted rfl (.one (i := 0) rfl))
  refine ⟨_, hcalled.step (.work (i := 0) rfl (.sleep hcount rfl)), ?_, rfl, ?_, ?_⟩
  · exact ⟨rfl, rfl, by simp [Stance.owes]⟩
  · simp [Stance.isAsleep]
  · exact fun hempty => absurd hempty.1 (by simp [pair])

end Watch

end ForkLisp.Schedule
