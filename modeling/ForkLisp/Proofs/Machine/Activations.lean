/-
Activations on the stack of a task.

A stack holds a frame for every call that is under way, with the linkage of the call right below it.

* `Fits` relates the registers of a frame to the slots of a stack.
* `Below` says what lies below a frame: the frames of the callers, each of which is ready to go on
  with whatever the activation above it may return.

Nothing of this depends on the slots above, so that callees may overwrite those (`Below.agree`).
-/
import ForkLisp.Machine.Step
import ForkLisp.Proofs.Behaviour.Meaning
import ForkLisp.Proofs.Reference.Evaluator

namespace ForkLisp.Machine

open ForkLisp.Code ForkLisp.Behaviour ForkLisp.Reference

variable {H W : Type}

/-- Whose stack the handle of a pooled task is on, at which slot, and what it stands for. -/
structure Lease (H : Type) where
  owner : Option TaskId
  slot : Nat
  handle : H

/-- The leases of the pooled tasks that somebody waits for. -/
abbrev Leases (H : Type) := TaskId → Option (Lease H)

namespace Leases

/-- A lease begins. -/
def start (leases : Leases H) (id : TaskId) (lease : Lease H) : Leases H :=
  fun other => if other = id then some lease else leases other

/-- A lease is over. -/
def drop (leases : Leases H) (id : TaskId) : Leases H :=
  fun other => if other = id then none else leases other

@[simp] theorem start_self (leases : Leases H) (id : TaskId) (lease : Lease H) :
    leases.start id lease id = some lease := if_pos rfl

theorem start_of_ne {leases : Leases H} {id other : TaskId} {lease : Lease H} (h : other ≠ id) :
    leases.start id lease other = leases other := if_neg h

@[simp] theorem drop_self (leases : Leases H) (id : TaskId) : leases.drop id id = none := if_pos rfl

theorem drop_of_ne {leases : Leases H} {id other : TaskId} (h : other ≠ id) :
    leases.drop id other = leases other := if_neg h

theorem of_drop {leases : Leases H} {id other : TaskId} {lease : Lease H}
    (h : leases.drop id other = some lease) : other ≠ id ∧ leases other = some lease := by
  by_cases ho : other = id
  · rw [ho, drop_self] at h
    exact absurd h (by simp)
  · rw [drop_of_ne ho] at h
    exact ⟨ho, h⟩

end Leases

/-! ### Frames -/

section

variable (m : Meaning Datum H W) (owner : Option TaskId)

/-- A slot holds a handle that stands for `h`: that of a pooled task, or that of a call which was
made at once and whose result is in the slot above. -/
def Promised (leases : Leases H) (stack : Array Slot) (i : Nat) (h : H) : Prop :=
  (stack[i]? = some (.future none) ∧
    ∃ v : Datum, stack[i + 1]? = some v.slot ∧ ∀ w, m.join h w (.value v w)) ∨
  ∃ id, stack[i]? = some (.future (some id)) ∧ leases id = some ⟨owner, i, h⟩

/-- The slots from `base` on hold what is known of the registers of a frame. -/
structure Fits (leases : Leases H) (stack : Array Slot) (base : Nat)
    (f : Frame Datum H) : Prop where
  val : ∀ r v, f.val r = some v → stack[base + r]? = some v.slot
  pend : ∀ r h, f.pend r = some h → Promised m owner leases stack (base + r) h

/-- Two stacks with their leases do not differ below a slot, as far as leases there go. -/
structure Agree (n : Nat) (leases leases' : Leases H) (stack stack' : Array Slot) : Prop where
  size : stack'.size = stack.size
  slots : ∀ i, i < n → stack'[i]? = stack[i]?
  leases : ∀ id i h, i < n → leases id = some ⟨owner, i, h⟩ → leases' id = some ⟨owner, i, h⟩

end

section

variable {m : Meaning Datum H W} {owner : Option TaskId} {leases leases' : Leases H}
  {stack stack' : Array Slot} {base n : Nat} {f : Frame Datum H}

namespace Agree

theorem refl (n : Nat) (leases : Leases H) (stack : Array Slot) :
    Agree owner n leases leases stack stack :=
  ⟨rfl, fun _ _ => rfl, fun _ _ _ _ h => h⟩

theorem mono (h : Agree owner n leases leases' stack stack') {k : Nat} (hk : k ≤ n) :
    Agree owner k leases leases' stack stack' :=
  ⟨h.size, fun i hi => h.slots i (Nat.lt_of_lt_of_le hi hk),
    fun id i p hi => h.leases id i p (Nat.lt_of_lt_of_le hi hk)⟩

theorem trans (h : Agree owner n leases leases' stack stack') {leases'' : Leases H}
    {stack'' : Array Slot} (h' : Agree owner n leases' leases'' stack' stack'') :
    Agree owner n leases leases'' stack stack'' :=
  ⟨h'.size.trans h.size, fun i hi => (h'.slots i hi).trans (h.slots i hi),
    fun id i p hi hl => h'.leases id i p hi (h.leases id i p hi hl)⟩

/-- Writing a slot changes nothing below it. -/
theorem set (owner : Option TaskId) (leases : Leases H) (stack : Array Slot) (i : Nat) (s : Slot) :
    Agree owner i leases leases stack (stack.setIfInBounds i s) :=
  ⟨Array.size_setIfInBounds, fun j hj => Array.getElem?_setIfInBounds_ne (by omega),
    fun _ _ _ _ h => h⟩

/-- A lease that begins changes none of the others. -/
theorem start {id : TaskId} {lease : Lease H} (h : leases id = none) :
    Agree owner n leases (leases.start id lease) stack stack := by
  refine ⟨rfl, fun _ _ => rfl, fun other i p _ hl => ?_⟩
  rw [Leases.start_of_ne, hl]
  rintro rfl
  rw [h] at hl
  exact absurd hl (by simp)

/-- A lease that is over changes none of those of slots below. -/
theorem drop {id : TaskId} {lease : Lease H} (h : leases id = some lease)
    (hn : lease.owner = owner → n ≤ lease.slot) :
    Agree owner n leases (leases.drop id) stack stack := by
  refine ⟨rfl, fun _ _ => rfl, fun other i p hi hl => ?_⟩
  rw [Leases.drop_of_ne, hl]
  rintro rfl
  rw [h, Option.some_inj] at hl
  have := hn (by rw [hl])
  rw [hl] at this
  exact absurd hi (Nat.not_lt.mpr this)

end Agree

theorem Promised.agree {i : Nat} {p : H} (h : Promised m owner leases stack i p)
    (ha : Agree owner n leases leases' stack stack') (hi : i + 1 < n) :
    Promised m owner leases' stack' i p := by
  rcases h with ⟨hs, v, hv, hj⟩ | ⟨id, hs, hl⟩
  · exact .inl ⟨by rw [ha.slots i (by omega), hs], v, by rw [ha.slots _ hi, hv], hj⟩
  · exact .inr ⟨id, by rw [ha.slots i (by omega), hs], ha.leases id i p (by omega) hl⟩

namespace Fits

/-- Writing a register that no handle needs. -/
theorem set (h : Fits m owner leases stack base f) {d : Nat} (hf : f.Free d)
    (hd : base + d < stack.size) (v : Datum) :
    Fits m owner leases (stack.setIfInBounds (base + d) v.slot) base (f.set d v) := by
  constructor
  · intro r u hu
    by_cases hr : r = d
    · subst hr
      rw [Frame.val_set_self, Option.some_inj] at hu
      rw [Array.getElem?_setIfInBounds_self_of_lt hd, hu]
    · rw [Frame.val_set_of_ne f v hr] at hu
      rw [Array.getElem?_setIfInBounds_ne (by omega), h.val r u hu]
  · intro r p hp
    have hr : r ≠ d := by
      rintro rfl
      rw [Frame.pend_set, hf.1] at hp
      exact absurd hp (by simp)
    have hr' : r + 1 ≠ d := by
      intro hr'
      rw [Frame.pend_set, hf.2 r hr'] at hp
      exact absurd hp (by simp)
    rcases h.pend r p hp with ⟨hs, u, hu, hj⟩ | ⟨id, hs, hl⟩
    · refine .inl ⟨?_, u, ?_, hj⟩
      · rw [Array.getElem?_setIfInBounds_ne (by omega), hs]
      · rw [Array.getElem?_setIfInBounds_ne (by omega), hu]
    · exact .inr ⟨id, by rw [Array.getElem?_setIfInBounds_ne (by omega), hs], hl⟩

/-- The result of a call stands where the linkage was. -/
theorem afterCall (h : Fits m owner leases stack base f) {shift : Nat} (hs : 2 ≤ shift)
    (hc : f.Clear (shift - 2)) (ha : Agree owner (base + shift - 2) leases leases' stack stack')
    {v : Datum} (hv : stack'[base + shift - 2]? = some v.slot) :
    Fits m owner leases' stack' base (f.afterCall shift v) := by
  constructor
  · intro r u hu
    unfold Frame.afterCall at hu
    simp only at hu
    split at hu
    · rename_i hr
      rw [Option.some_inj] at hu
      rw [hr, ← Nat.add_sub_assoc hs, hv, hu]
    · split at hu
      · rw [ha.slots (base + r) (by omega), h.val r u hu]
      · exact absurd hu (by simp)
  · intro r p hp
    have := hc.pend_lt hp
    exact (h.pend r p hp).agree ha (by omega)

/-- A handle stands three slots below the arguments of its task. -/
theorem afterSpawn (h : Fits m owner leases stack base f) {shift : Nat} (hs : 3 ≤ shift)
    (hc : f.Clear (shift - 3)) (ha : Agree owner (base + shift - 3) leases leases' stack stack')
    {p : H} (hp : Promised m owner leases' stack' (base + shift - 3) p) :
    Fits m owner leases' stack' base (f.afterSpawn shift p) := by
  constructor
  · intro r u hu
    unfold Frame.afterSpawn at hu
    simp only at hu
    split at hu
    · rw [ha.slots (base + r) (by omega), h.val r u hu]
    · exact absurd hu (by simp)
  · intro r q hq
    unfold Frame.afterSpawn at hq
    simp only at hq
    split at hq
    · rename_i hr
      rw [Option.some_inj] at hq
      rw [hr, ← Nat.add_sub_assoc hs, ← hq]
      exact hp
    · have := hc.pend_lt hq
      exact (h.pend r q hq).agree ha (by omega)

/-- The outcome of a task stands where its handle was. -/
theorem afterJoin (h : Fits m owner leases stack base f) {r : Nat} {p : H} (hp : f.pend r = some p)
    (hu : f.Unshadowed r) (hl : ∀ id i q, i ≠ base + r → leases id = some ⟨owner, i, q⟩ →
      leases' id = some ⟨owner, i, q⟩) (v : Datum) :
    Fits m owner leases' (stack.setIfInBounds (base + r) v.slot) base (f.afterJoin r v) := by
  have hr : base + r < stack.size := by
    rcases h.pend r p hp with ⟨hs, -⟩ | ⟨id, hs, -⟩
    · exact (Array.getElem?_eq_some_iff.mp hs).1
    · exact (Array.getElem?_eq_some_iff.mp hs).1
  constructor
  · intro s u hv
    unfold Frame.afterJoin at hv
    simp only at hv
    split at hv
    · rename_i hs
      rw [Option.some_inj] at hv
      rw [hs, Array.getElem?_setIfInBounds_self_of_lt hr, hv]
    · rw [Array.getElem?_setIfInBounds_ne (by omega), h.val s u hv]
  · intro s q hq
    unfold Frame.afterJoin at hq
    simp only at hq
    split at hq
    · exact absurd hq (by simp)
    · have hs : s + 1 ≠ r := by
        intro hs
        rw [hu s hs] at hq
        exact absurd hq (by simp)
      rcases h.pend s q hq with ⟨hf, u, hv, hj⟩ | ⟨id, hf, hid⟩
      · refine .inl ⟨?_, u, ?_, hj⟩
        · rw [Array.getElem?_setIfInBounds_ne (by omega), hf]
        · rw [Array.getElem?_setIfInBounds_ne (by omega), hv]
      · refine .inr ⟨id, ?_, hl id _ q (by omega) hid⟩
        rw [Array.getElem?_setIfInBounds_ne (by omega), hf]

/-- A frame needs the leases of its own task alone. -/
theorem ofLeases (h : Fits m owner leases stack base f)
    (hl : ∀ id i p, leases id = some ⟨owner, i, p⟩ → leases' id = some ⟨owner, i, p⟩) :
    Fits m owner leases' stack base f :=
  ⟨h.val, fun r p hp => (h.pend r p hp).imp_right fun ⟨id, hs, hid⟩ => ⟨id, hs, hl id _ p hid⟩⟩

/-- A frame that was entered with arguments. -/
theorem enter {args : List Datum}
    (h : ∀ j v, args[j]? = some v → stack[base + j]? = some v.slot) :
    Fits m owner leases stack base (Frame.enter args) :=
  ⟨h, fun _ _ hp => absurd hp (by simp [Frame.enter])⟩

end Fits

end

/-! ### What lies below a frame -/

section

variable (m : Meaning Datum H W) (program : Program) (owner : Option TaskId)
  (post : Outcome → W → Prop)

/-- What lies below the frame at `base`, whose activation may end in one of `ends`: nothing, and
these endings are wanted of the task, or the frame of a caller that goes on with them. -/
inductive Below : Leases H → Array Slot → Nat → (Ending Datum W → Prop) → Prop where
  | bottom {leases : Leases H} {stack : Array Slot} {ends : Ending Datum W → Prop}
      (hs : ¬ ends .stuck) (hv : ∀ v w, ends (.value v w) → post (.ok v.slot) w)
      (he : ∀ e w, ends (.fault e w) → post (.error e) w) : Below leases stack 0 ends
  | caller {leases : Leases H} {stack : Array Slot} {base : Nat} {ends : Ending Datum W → Prop}
      {below pc : Nat} {ref : CodeRef} {l : Lowered} {ends' : Ending Datum W → Prop}
      (hs : ¬ ends .stuck) (hb : below + 2 ≤ base)
      (hframe : stack[base - 2]? = some (.frame below))
      (hreturn : stack[base - 1]? = some (.returnTo ref pc))
      (hl : program.code? ref = some l) (hroom : below + l.frameSize ≤ stack.size)
      (he : ∀ e w, ends (.fault e w) → ends' (.fault e w))
      (hv : ∀ v w leases' stack', ends (.value v w) →
        Agree owner (base - 2) leases leases' stack stack' → stack'[base - 2]? = some v.slot →
        ∃ f, Fits m owner leases' stack' below f ∧
          ∀ o, m.Runs Meaning.done l.code pc f w o → ends' o)
      (hbelow : Below leases stack below ends') : Below leases stack base ends

end

namespace Below

variable {m : Meaning Datum H W} {program : Program} {owner : Option TaskId}
  {post : Outcome → W → Prop} {leases leases' : Leases H} {stack stack' : Array Slot} {base : Nat}
  {ends : Ending Datum W → Prop}

theorem not_stuck (h : Below m program owner post leases stack base ends) : ¬ ends .stuck := by
  cases h with
  | bottom hs _ _ => exact hs
  | caller hs _ _ _ _ _ _ _ _ => exact hs

/-- What lies below a frame does not depend on the slots from the frame on. -/
theorem agree (h : Below m program owner post leases stack base ends)
    (ha : Agree owner base leases leases' stack stack') :
    Below m program owner post leases' stack' base ends := by
  induction h with
  | bottom hs hv he => exact .bottom hs hv he
  | caller hs hb hframe hreturn hl hroom he hv _ ih =>
    have hframe' := (ha.slots _ (by omega)).trans hframe
    have hreturn' := (ha.slots _ (by omega)).trans hreturn
    refine .caller hs hb hframe' hreturn' hl ?_ he ?_ (ih (ha.mono (by omega)))
    · rw [ha.size]
      exact hroom
    · intro v w leases'' stack'' hend ha' hslot
      exact hv v w leases'' stack'' hend ((ha.mono (by omega)).trans ha') hslot

/-- A fault of an activation is one of the task. -/
theorem fault (h : Below m program owner post leases stack base ends) {e : Fault} {w : W}
    (hend : ends (.fault e w)) : post (.error e) w := by
  induction h with
  | bottom _ _ he => exact he e w hend
  | caller _ _ _ _ _ _ he _ _ ih => exact ih (he e w hend)

/-- More may be wanted of the task. -/
theorem weaken {post' : Outcome → W → Prop} (hp : ∀ o w, post o w → post' o w)
    (h : Below m program owner post leases stack base ends) :
    Below m program owner post' leases stack base ends := by
  induction h with
  | bottom hs hv he =>
    exact .bottom hs (fun v w h => hp _ _ (hv v w h)) fun e w h => hp _ _ (he e w h)
  | caller hs hb hframe hreturn hl hroom he hv _ ih =>
    exact .caller hs hb hframe hreturn hl hroom he hv ih

end Below

end ForkLisp.Machine
