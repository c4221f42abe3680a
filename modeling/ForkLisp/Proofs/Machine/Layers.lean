/-
Two stacks side by side.

Two tasks are at the same place of the same program, and their stacks have the same size. In which
slots they have to hold the same, so that the tasks go on alike?

* `Shows`: in a frame it is those registers which have a value or hold a handle in its outline.
* `Layers`: below a frame it is the linkage, and the frames of the callers, each of which is safe to
  go on in once there is a result.
* `Poised`: where a task stands its code is safe, and the handle of every task that it has started
  and not joined is in a register of which some outline says so.

Nothing of this depends on slots that no outline speaks of. These may hold whatever earlier
activations have left there.
-/
import ForkLisp.Machine.Step
import ForkLisp.Proofs.Behaviour.Outline
import ForkLisp.Proofs.Reference.Evaluator

namespace ForkLisp.Machine

open ForkLisp.Code ForkLisp.Behaviour ForkLisp.Reference

/-! ### Stacks -/

/-- Two stacks of one size. -/
structure Stacks where
  left : Array Slot
  right : Array Slot
  size_eq : right.size = left.size

namespace Stacks

variable {p q : Stacks} {i j n : Nat} {s s' : Slot}

/-- Both stacks hold the same in a slot. -/
def At (p : Stacks) (i : Nat) (s : Slot) : Prop := p.left[i]? = some s ∧ p.right[i]? = some s

/-- Both stacks hold a value of the language in a slot. -/
def Data (p : Stacks) (i : Nat) : Prop := ∃ v : Datum, p.At i v.slot

/-- A stack beside itself. -/
def twice (stack : Array Slot) : Stacks := ⟨stack, stack, rfl⟩

/-- Writes a slot of both stacks. -/
def set (p : Stacks) (i : Nat) (s : Slot) : Stacks :=
  ⟨p.left.setIfInBounds i s, p.right.setIfInBounds i s, by
    rw [Array.size_setIfInBounds, Array.size_setIfInBounds, p.size_eq]⟩

/-- What both stacks hold below a slot, two others hold as well. -/
def Under (n : Nat) (p q : Stacks) : Prop := ∀ i s, i < n → p.At i s → q.At i s

@[simp] theorem size_set (p : Stacks) (i : Nat) (s : Slot) : (p.set i s).left.size = p.left.size :=
  Array.size_setIfInBounds

theorem At.lt_size (h : p.At i s) : i < p.left.size := (Array.getElem?_eq_some_iff.mp h.1).1

theorem at_set_self (h : i < p.left.size) (s : Slot) : (p.set i s).At i s :=
  ⟨Array.getElem?_setIfInBounds_self_of_lt h,
    Array.getElem?_setIfInBounds_self_of_lt (p.size_eq ▸ h)⟩

theorem At.set (h : p.At i s) (hne : i ≠ j) (s' : Slot) : (p.set j s').At i s :=
  ⟨(Array.getElem?_setIfInBounds_ne hne.symm).trans h.1,
    (Array.getElem?_setIfInBounds_ne hne.symm).trans h.2⟩

theorem Data.set (h : p.Data i) (hne : i ≠ j) (s : Slot) : (p.set j s).Data i :=
  h.imp fun _ hv => hv.set hne s

theorem data_set_self (h : i < p.left.size) (v : Datum) : (p.set i v.slot).Data i :=
  ⟨v, at_set_self h _⟩

namespace Under

theorem refl (n : Nat) (p : Stacks) : Under n p p := fun _ _ _ h => h

theorem trans {r : Stacks} (h : Under n p q) (h' : Under n q r) : Under n p r :=
  fun i s hi hs => h' i s hi (h i s hi hs)

theorem mono (h : Under n p q) {k : Nat} (hk : k ≤ n) : Under k p q :=
  fun i s hi => h i s (Nat.lt_of_lt_of_le hi hk)

/-- Writing a slot changes nothing below it. -/
theorem set (p : Stacks) (hn : n ≤ j) (s : Slot) : Under n p (p.set j s) :=
  fun i _ hi h => h.set (by omega) s

theorem data (h : Under n p q) (hi : i < n) (hd : p.Data i) : q.Data i :=
  hd.imp fun _ hv => h i _ hi hv

end Under

end Stacks

/-! ### Frames -/

/-- Both stacks hold a handle: that of a pooled task, or that of a call which was made at once and
whose result is in the slot above. -/
def Stacks.Handle (p : Stacks) (i : Nat) : Prop :=
  p.At i (.future none) ∧ p.Data (i + 1) ∨ ∃ id, p.At i (.future (some id))

/-- From `base` on both stacks hold the same values and handles, as the outline of a frame says. -/
structure Shows (p : Stacks) (base : Nat) (f : Outline) : Prop where
  val : ∀ r, f.val r = some () → p.Data (base + r)
  pend : ∀ r, f.pend r = some () → p.Handle (base + r)

section

variable {p q : Stacks} {base n : Nat} {f : Outline}

theorem Stacks.Handle.set {i j : Nat} (h : p.Handle i) (hi : i ≠ j) (hi' : i + 1 ≠ j) (s : Slot) :
    (p.set j s).Handle i := by
  rcases h with ⟨hf, hd⟩ | ⟨id, hf⟩
  · exact .inl ⟨hf.set hi s, hd.set hi' s⟩
  · exact .inr ⟨id, hf.set hi s⟩

theorem Stacks.Under.handle {i : Nat} (h : Under n p q) (hi : i + 1 < n) (hh : p.Handle i) :
    q.Handle i := by
  rcases hh with ⟨hf, hd⟩ | ⟨id, hf⟩
  · exact .inl ⟨h i _ (by omega) hf, h.data hi hd⟩
  · exact .inr ⟨id, h i _ (by omega) hf⟩

namespace Shows

/-- Writing a register that no handle needs. -/
theorem set (h : Shows p base f) {d : Nat} (hf : f.Free d) (hd : base + d < p.left.size)
    (v : Datum) :
    Shows (p.set (base + d) v.slot) base (f.set d ()) := by
  refine ⟨fun r hr => ?_, fun r hr => ?_⟩
  · by_cases hrd : r = d
    · rw [hrd]
      exact Stacks.data_set_self hd v
    · rw [Frame.val_set_of_ne f () hrd] at hr
      exact (h.val r hr).set (by omega) _
  · have hne : r ≠ d := fun heq => by cases hf.1.symm.trans (heq ▸ hr)
    have hne' : r + 1 ≠ d := fun heq => by cases (hf.2 r heq).symm.trans hr
    exact (h.pend r hr).set (by omega) (by omega) _

/-- The result of a call stands where the linkage was. -/
theorem afterCall (h : Shows p base f) {shift : Nat} (hs : 2 ≤ shift) (hc : f.Clear (shift - 2))
    (hu : p.Under (base + shift - 2) q) (hd : q.Data (base + shift - 2)) :
    Shows q base (f.afterCall shift ()) := by
  refine ⟨fun r hr => ?_, fun r hr => ?_⟩
  · unfold Frame.afterCall at hr
    dsimp only at hr
    split at hr
    · rename_i heq
      rw [heq, ← Nat.add_sub_assoc hs]
      exact hd
    · split at hr
      · exact hu.data (by omega) (h.val r hr)
      · cases hr
  · have := hc.pend_lt hr
    exact hu.handle (by omega) (h.pend r hr)

/-- A handle stands three slots below the arguments of its task. -/
theorem afterSpawn (h : Shows p base f) {shift : Nat} (hs : 3 ≤ shift) (hc : f.Clear (shift - 3))
    (hu : p.Under (base + shift - 3) q) (hh : q.Handle (base + shift - 3)) :
    Shows q base (f.afterSpawn shift ()) := by
  refine ⟨fun r hr => ?_, fun r hr => ?_⟩
  · unfold Frame.afterSpawn at hr
    dsimp only at hr
    split at hr
    · exact hu.data (by omega) (h.val r hr)
    · cases hr
  · unfold Frame.afterSpawn at hr
    dsimp only at hr
    split at hr
    · rename_i heq
      rw [heq, ← Nat.add_sub_assoc hs]
      exact hh
    · have := hc.pend_lt hr
      exact hu.handle (by omega) (h.pend r hr)

/-- The outcome of a task stands where its handle was. -/
theorem afterJoin (h : Shows p base f) {d : Nat} (hd : f.pend d = some ()) (hu : f.Unshadowed d)
    (v : Datum) : Shows (p.set (base + d) v.slot) base (f.afterJoin d ()) := by
  have hlt : base + d < p.left.size := by
    rcases h.pend d hd with ⟨hf, -⟩ | ⟨id, hf⟩
    · exact hf.lt_size
    · exact hf.lt_size
  refine ⟨fun r hr => ?_, fun r hr => ?_⟩
  · unfold Frame.afterJoin at hr
    dsimp only at hr
    split at hr
    · rename_i heq
      rw [heq]
      exact Stacks.data_set_self hlt v
    · exact (h.val r hr).set (by omega) _
  · unfold Frame.afterJoin at hr
    dsimp only at hr
    split at hr
    · cases hr
    · have hne : r + 1 ≠ d := fun heq => by cases (hu r heq).symm.trans hr
      exact (h.pend r hr).set (by omega) (by omega) _

/-- A frame that was entered with arguments. -/
theorem enter (h : ∀ j, j < n → p.Data (base + j)) : Shows p base (.enter n) := by
  refine ⟨fun r hr => h r ?_, fun r hr => by cases hr⟩
  have hr : (List.replicate n ())[r]? = some () := hr
  rw [← List.length_replicate (n := n) (a := ())]
  exact (List.getElem?_eq_some_iff.mp hr).1

end Shows

end

/-! ### What lies below a frame -/

/-- How many arguments a function of a program takes. -/
def Program.arity? (program : Program) (id : FuncId) : Option Nat :=
  (program.func? id).map Lowered.arity

/-- All code of a program is safe. -/
structure Program.Secure (program : Program) : Prop where
  safe : ∀ ref l, program.code? ref = some l → Safe program.arity? l.code 0 (.enter l.arity)
  room : ∀ ref l, program.code? ref = some l → l.arity ≤ l.frameSize

/-- The slot of a register that holds a handle, in a frame at `base`. -/
def Holder (base : Nat) (f : Outline) (i : Nat) : Prop := ∃ r, i = base + r ∧ f.pend r = some ()

/-- What lies below the frame at `base`: nothing, or the frame of a caller that is safe to go
on in once there is a result. The slots of which the outlines of callers say that they hold
handles are `open`. -/
inductive Layers (program : Program) (p : Stacks) : Nat → (Nat → Prop) → Prop where
  | bottom : Layers program p 0 fun _ => False
  | caller {base below pc : Nat} {ref : CodeRef} {l : Lowered} {g : Outline} {opens : Nat → Prop}
      (hb : below + 2 ≤ base) (hframe : p.At (base - 2) (.frame below))
      (hreturn : p.At (base - 1) (.returnTo ref pc)) (hl : program.code? ref = some l)
      (hsafe : Safe program.arity? l.code pc g)
      (hshows : ∀ q, p.Under (base - 2) q → q.Data (base - 2) → Shows q below g)
      (hopens : ∀ r, g.pend r = some () → below + r + 2 < base)
      (hbelow : Layers program p below opens) :
      Layers program p base fun i => opens i ∨ Holder below g i

namespace Layers

variable {program : Program} {p q : Stacks} {base : Nat} {opens : Nat → Prop}

/-- What lies below a frame does not depend on the slots from the frame on. -/
theorem under (h : Layers program p base opens) (hu : p.Under base q) :
    Layers program q base opens := by
  induction h with
  | bottom => exact .bottom
  | caller hb hframe hreturn hl hsafe hshows hopens _ ih =>
    refine .caller hb (hu _ _ (by omega) hframe) (hu _ _ (by omega) hreturn) hl hsafe
      (fun q' hu' => hshows q' ((hu.mono (by omega)).trans hu')) hopens (ih (hu.mono (by omega)))

/-- Handles of callers lie below the linkage. -/
theorem opens_lt (h : Layers program p base opens) {i : Nat} (hi : opens i) : i + 2 < base := by
  induction h with
  | bottom => exact hi.elim
  | caller hb _ _ _ _ _ hopens _ ih =>
    rcases hi with hi | ⟨r, rfl, hr⟩
    · have := ih hi
      omega
    · exact hopens r hr

end Layers

/-! ### Tasks -/

/-- The handle of every task that was started and not joined is on both stacks, where an
outline says so. -/
def Covered (p : Stacks) (opens : Nat → Prop) (children : List TaskId) : Prop :=
  ∀ id ∈ children, ∃ i, opens i ∧ p.At i (.future (some id))

/-- A task stands at a safe place of the code `l`, with an outline that its stacks show. -/
structure Poised (p : Stacks) (t : Task) (l : Lowered) (f : Outline)
    (opens : Nat → Prop) : Prop where
  secure : t.program.Secure
  lowered : t.lowered? = some l
  safe : Safe t.program.arity? l.code t.pc f
  shows : Shows p t.base f
  layers : Layers t.program p t.base opens
  covered : Covered p (fun i => opens i ∨ Holder t.base f i) t.children

namespace Covered

variable {p q : Stacks} {opens opens' : Nat → Prop} {children : List TaskId}

theorem mono (h : Covered p opens children)
    (hi : ∀ i id, opens i → p.At i (.future (some id)) → opens' i ∧ q.At i (.future (some id))) :
    Covered q opens' children := fun id hid => by
  obtain ⟨i, hopen, hat⟩ := h id hid
  obtain ⟨hopen, hat⟩ := hi i id hopen hat
  exact ⟨i, hopen, hat⟩

/-- Where no slot may hold a handle, every task has been joined. -/
theorem eq_nil (h : Covered p opens children) (hno : ∀ i, ¬ opens i) : children = [] :=
  List.eq_nil_iff_forall_not_mem.mpr fun id hid => by
    obtain ⟨i, hopen, -⟩ := h id hid
    exact hno i hopen

end Covered

end ForkLisp.Machine
