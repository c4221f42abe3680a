/-
Tasks that keep step.

Two worlds are `Alike` if they differ in nothing but what is left on the stacks of tasks that are
over. Two tasks are `Paired` if they are at the same place and their stacks show the same layers.
Then they take the same step: they write the same values, print the same lines, start tasks that are
in step with each other, come to the same end (`Poised.exec`), and go on alike with the outcome of
another task (`Paired.resume`). A task that ends with a value has joined every task that it started.
-/
import Mathlib.Data.List.Forall2
import ForkLisp.Proofs.Behaviour.Paths
import ForkLisp.Proofs.Machine.Conduct
import ForkLisp.Proofs.Machine.Layers

namespace ForkLisp.Machine

open ForkLisp.Code ForkLisp.Behaviour ForkLisp.Reference

/-! ### Tasks and worlds -/

/-- A task with another stack. -/
def Task.on (t : Task) (stack : Array Slot) : Task := { t with stack }

@[simp] theorem Task.on_pc (t : Task) (stack : Array Slot) : (t.on stack).pc = t.pc := rfl

@[simp] theorem Task.on_base (t : Task) (stack : Array Slot) : (t.on stack).base = t.base := rfl

@[simp] theorem Task.on_stack (t : Task) (stack : Array Slot) : (t.on stack).stack = stack := rfl

@[simp] theorem Task.on_id (t : Task) (stack : Array Slot) : (t.on stack).id = t.id := rfl

@[simp] theorem Task.on_children (t : Task) (stack : Array Slot) :
    (t.on stack).children = t.children := rfl

@[simp] theorem Task.on_program (t : Task) (stack : Array Slot) :
    (t.on stack).program = t.program := rfl

@[simp] theorem Task.on_lowered? (t : Task) (stack : Array Slot) :
    (t.on stack).lowered? = t.lowered? := rfl

/-- Two tasks differ in nothing but the contents of their stacks. -/
inductive Task.Alike (size : Nat) : Task → Task → Prop where
  | mk (t : Task) (p : Stacks) (hsize : p.left.size = size) :
      Alike size (t.on p.left) (t.on p.right)

/-- Two tasks are at the same place, and their stacks show what they go on to read. -/
inductive Paired (size : Nat) : Task → Task → Prop where
  | mk {t : Task} {p : Stacks} {l : Lowered} {f : Outline} {opens : Nat → Prop}
      (hsize : p.left.size = size) (h : Poised p t l f opens) :
      Paired size (t.on p.left) (t.on p.right)

/-- Two pooled tasks that are free. -/
structure Spare (size : Nat) (t t' : Task) : Prop where
  alike : t.Alike size t'
  pooled : t.id.isSome = true
  children : t.children = []

/-- Two pooled tasks that have come to the same end. -/
structure Parked (size : Nat) (x x' : Task × Outcome) : Prop where
  alike : x.1.Alike size x'.1
  pooled : x.1.id.isSome = true
  outcome : x'.2 = x.2
  data : IsData x.2

/-- Two berths have the same stage, and tasks that have come to the same end. -/
structure Berth.Alike (size : Nat) (b b' : Berth) : Prop where
  stage : b'.stage = b.stage
  parked : Option.Rel (Parked size) b.parked b'.parked

/-- Two pools have the same tasks, except for what is left on their stacks. -/
structure Pool.Alike (size : Nat) (p p' : Pool) : Prop where
  berths : ∀ id : TaskId, Option.Rel (Berth.Alike size) p.berths[id]? p'.berths[id]?
  free : List.Forall₂ (Spare size) p.free p'.free

/-- Two worlds have the same globals, which hold values, the same lines, and pools
that are alike. -/
structure World.Alike (size : Nat) (w w' : World) : Prop where
  globals : w'.globals = w.globals
  data : ∀ (i : Nat) s, w.globals[i]? = some s → ∃ v : Datum, s = v.slot
  printed : w'.printed = w.printed
  pool : w.pool.Alike size w'.pool

/-- What a task may have come to: a value of the language, with every task joined that it
started, or a fault. -/
structure Ends (t : Task) (outcome : Outcome) : Prop where
  data : IsData outcome
  children : ∀ s, outcome = .ok s → t.children = []

/-- Two steps come to the same, and what they leave is in step again. -/
inductive Step.Alike (size : Nat) : Step → Step → Prop where
  | next {t t' : Task} {w w' : World} (ht : Paired size t t') (hw : w.Alike size w') :
      Alike size (.next t w) (.next t' w')
  | spawned {t t' c c' : Task} {w w' : World} (ht : Paired size t t') (hc : Paired size c c')
      (hw : w.Alike size w') : Alike size (.spawned t c w) (.spawned t' c' w')
  | ended {t t' : Task} {outcome : Outcome} {w w' : World} (ht : t.Alike size t')
      (ho : Ends t outcome) (hw : w.Alike size w') :
      Alike size (.ended t outcome w) (.ended t' outcome w')
  | crashed {w w' : World} (hw : w.Alike size w') : Alike size (.crashed w) (.crashed w')

variable {size : Nat}

theorem isData_error (e : Fault) : IsData (.error e) := fun _ h => by cases h

theorem ends_error (t : Task) (e : Fault) : Ends t (.error e) :=
  ⟨isData_error e, fun _ h => by cases h⟩

theorem Paired.alike {t t' : Task} (h : Paired size t t') : t.Alike size t' := by
  cases h with
  | mk hsize h => exact .mk _ _ hsize

/-! ### Pools -/

theorem Task.Alike.id {t t' : Task} (h : t.Alike size t') : t'.id = t.id := by
  cases h with
  | mk t p hsize => rfl

theorem Task.Alike.base {t t' : Task} (h : t.Alike size t') : t'.base = t.base := by
  cases h with
  | mk t p hsize => rfl

theorem Task.Alike.reset {t t' : Task} (h : t.Alike size t') : t.reset.Alike size t'.reset := by
  cases h with
  | mk t p hsize => exact .mk t.reset p hsize

namespace Pool.Alike

variable {p p' : Pool} {id other : TaskId}

theorem stage? (h : p.Alike size p') (id : TaskId) : p'.stage? id = p.stage? id := by
  unfold Pool.stage?
  have hberth := h.berths id
  generalize p.berths[id]? = x, p'.berths[id]? = x' at hberth
  cases hberth with
  | none => rfl
  | some hb => exact congrArg some hb.stage

theorem hasEnded (h : p.Alike size p') (id : TaskId) : p'.hasEnded id = p.hasEnded id := by
  unfold Pool.hasEnded
  rw [h.stage? id]

theorem parked? (h : p.Alike size p') (id : TaskId) :
    Option.Rel (Parked size) (p.parked? id) (p'.parked? id) := by
  unfold Pool.parked?
  have hberth := h.berths id
  generalize p.berths[id]? = x, p'.berths[id]? = x' at hberth
  cases hberth with
  | none => exact .none
  | some hb => exact hb.parked

/-- Changing a berth in both pools. -/
theorem modify (h : p.Alike size p') (g g' : Berth → Berth)
    (hg : ∀ b b', Berth.Alike size b b' → Berth.Alike size (g b) (g' b')) (id : TaskId) :
    Pool.Alike size { p with berths := p.berths.modify id g }
      { p' with berths := p'.berths.modify id g' } := by
  refine ⟨fun other => ?_, h.free⟩
  have hberth := h.berths other
  show Option.Rel _ (p.berths.modify id g)[other]? (p'.berths.modify id g')[other]?
  rw [Array.getElem?_modify, Array.getElem?_modify]
  generalize p.berths[other]? = x, p'.berths[other]? = x' at hberth
  split
  · cases hberth with
    | none => exact .none
    | some hb => exact .some (hg _ _ hb)
  · exact hberth

theorem setStage (h : p.Alike size p') (id : TaskId) (stage : Stage) :
    (p.setStage id stage).Alike size (p'.setStage id stage) :=
  h.modify (fun b => { b with stage }) (fun b => { b with stage })
    (fun _ _ hb => ⟨rfl, hb.parked⟩) id

theorem setParked (h : p.Alike size p') (id : TaskId) {x x' : Option (Task × Outcome)}
    (hx : Option.Rel (Parked size) x x') : (p.setParked id x).Alike size (p'.setParked id x') :=
  h.modify (fun b => { b with parked := x }) (fun b => { b with parked := x' })
    (fun _ _ hb => ⟨hb.stage, hx⟩) id

theorem take? (h : p.Alike size p') :
    Option.Rel (fun x x' => Spare size x.1 x'.1 ∧ x.2.Alike size x'.2) p.take? p'.take? := by
  have hfree := h.free
  unfold Pool.take?
  generalize p.free = free, p'.free = free' at hfree
  cases hfree with
  | nil => exact .none
  | @cons t t' free free' ht hrest =>
    obtain ⟨id, hid⟩ := Option.isSome_iff_exists.mp ht.pooled
    have hrest' : Pool.Alike size { p with free } { p' with free := free' } := ⟨h.berths, hrest⟩
    simp only [ht.alike.id, hid]
    exact .some ⟨ht, hrest'.setStage id .running⟩

theorem release (h : p.Alike size p') {t t' : Task} (ht : t.Alike size t')
    (hid : t.id.isSome = true) :
    (p.release t).Alike size (p'.release t') := by
  obtain ⟨id, hid⟩ := Option.isSome_iff_exists.mp hid
  have hstage := h.setStage id .free
  have hspare : Spare size t.reset t'.reset :=
    ⟨ht.reset, by rw [show t.reset.id = t.id from rfl, hid]; rfl, rfl⟩
  unfold Pool.release
  simp only [ht.id, hid]
  exact ⟨hstage.berths, List.rel_append hstage.free (.cons hspare .nil)⟩

theorem finish (h : p.Alike size p') {t t' : Task} {outcome : Outcome}
    (hp : Parked size (t, outcome) (t', outcome)) (id : TaskId) :
    (p.finish id t outcome).Alike size (p'.finish id t' outcome) := by
  unfold Pool.finish
  rw [h.stage? id]
  split
  · exact h.release hp.alike hp.pooled
  · exact (h.setParked id (.some hp)).setStage id .ended

end Pool.Alike

theorem World.Alike.withPool {w w' : World} (h : w.Alike size w') {p p' : Pool}
    (hp : p.Alike size p') : World.Alike size { w with pool := p } { w' with pool := p' } :=
  ⟨h.globals, h.data, h.printed, hp⟩

/-! ### Instructions -/

namespace Poised

variable {p q : Stacks} {t : Task} {l : Lowered} {f g : Outline} {opens : Nat → Prop} {w w' : World}

theorem inst?_eq (h : Poised p t l f opens) {i : Inst} (hi : l.code[t.pc]? = some i)
    (stack : Array Slot) : (t.on stack).inst? = some i := by
  unfold Task.inst?
  rw [show (t.on stack).lowered? = some l from h.lowered]
  exact hi

/-- The same activation at another place of its code. -/
theorem go (h : Poised p t l f opens) (hq : q.left.size = size) {pc : Nat}
    (hsafe : Safe t.program.arity? l.code pc g) (hu : p.Under t.base q) (hshows : Shows q t.base g)
    {children : List TaskId}
    (hcovered : Covered q (fun i => opens i ∨ Holder t.base g i) children) :
    Paired size { t.on q.left with pc, children } { t.on q.right with pc, children } :=
  .mk (t := { t with pc, children }) hq
    ⟨h.secure, h.lowered, hsafe, hshows, h.layers.under hu, hcovered⟩

theorem advance (h : Poised p t l f opens) (hp : p.left.size = size) (hw : w.Alike size w')
    (hsafe : Safe t.program.arity? l.code (t.pc + 1) f) :
    Step.Alike size (Step.advance (t.on p.left) w) (Step.advance (t.on p.right) w') :=
  .next (h.go hp hsafe (.refl _ _) h.shows h.covered) hw

theorem fault (hp : p.left.size = size) (hw : w.Alike size w') (e : Fault) :
    Step.Alike size (.ended (t.on p.left) (.error e) w) (.ended (t.on p.right) (.error e) w') :=
  .ended (.mk _ _ hp) (ends_error _ e) hw

/-- Both stacks are long enough for a slot, or neither is. -/
theorem write (hw : w.Alike size w') {d : Nat} {s : Slot}
    {k k' : Task → World → Step}
    (hk : t.base + d < p.left.size → Step.Alike size (k (t.on (p.set (t.base + d) s).left) w)
      (k' (t.on (p.set (t.base + d) s).right) w')) :
    Step.Alike size (Step.write d s (t.on p.left) w k) (Step.write d s (t.on p.right) w' k') := by
  by_cases hlt : t.base + d < p.left.size
  · have hlt' : t.base + d < p.right.size := p.size_eq ▸ hlt
    rw [Step.write_of_lt (t := t.on p.left) hlt, Step.write_of_lt (t := t.on p.right) hlt']
    exact hk hlt
  · unfold Step.write
    rw [dif_neg (show ¬ (t.on p.left).base + d < (t.on p.left).stack.size from hlt),
      dif_neg (show ¬ (t.on p.right).base + d < (t.on p.right).stack.size from p.size_eq ▸ hlt)]
    exact .crashed hw

/-- Writing a register and going on. -/
theorem put (h : Poised p t l f opens) (hp : p.left.size = size) (hw : w.Alike size w') {d : Nat}
    {s : Slot} (hsafe : Safe t.program.arity? l.code (t.pc + 1) g)
    (hshows : t.base + d < p.left.size → Shows (p.set (t.base + d) s) t.base g)
    {children : List TaskId}
    (hcovered : Covered (p.set (t.base + d) s) (fun i => opens i ∨ Holder t.base g i) children) :
    Step.Alike size (Step.put d s { t.on p.left with children } w)
      (Step.put d s { t.on p.right with children } w') := by
  refine write (t := { t with children }) hw fun hlt => ?_
  have hsize : (p.set (t.base + d) s).left.size = size := (Stacks.size_set _ _ _).trans hp
  exact .next (h.go hsize hsafe (.set p (Nat.le_add_right _ _) s) (hshows hlt) hcovered) hw

/-- Writing a register that no handle needs. -/
theorem put_free (h : Poised p t l f opens) (hp : p.left.size = size) (hw : w.Alike size w')
    {d : Nat} (hf : f.Free d) (v : Datum)
    (hsafe : Safe t.program.arity? l.code (t.pc + 1) (f.set d ())) :
    Step.Alike size (Step.put d v.slot (t.on p.left) w) (Step.put d v.slot (t.on p.right) w') := by
  refine h.put hp hw hsafe (fun hlt => h.shows.set hf hlt v) (h.covered.mono ?_)
  refine fun i id hi hat => ⟨hi, hat.set ?_ _⟩
  rcases hi with hi | ⟨r, rfl, hr⟩
  · have := h.layers.opens_lt hi
    omega
  · have hne : r ≠ d := fun heq => by cases hf.1.symm.trans (heq ▸ hr)
    omega

/-- Writing the outcome of a task over its handle. -/
theorem put_joined (h : Poised p t l f opens) (hp : p.left.size = size) (hw : w.Alike size w')
    {d : Nat} (hd : f.pend d = some ()) (hu : f.Unshadowed d) (v : Datum)
    (hsafe : Safe t.program.arity? l.code (t.pc + 1) (f.afterJoin d ())) {children : List TaskId}
    (hc : ∀ id ∈ children, id ∈ t.children ∧ ¬ p.At (t.base + d) (.future (some id))) :
    Step.Alike size (Step.put d v.slot { t.on p.left with children } w)
      (Step.put d v.slot { t.on p.right with children } w') := by
  refine h.put hp hw hsafe (fun _ => h.shows.afterJoin hd hu v) fun id hid => ?_
  obtain ⟨hmem, hno⟩ := hc id hid
  obtain ⟨i, hi, hat⟩ := h.covered id hmem
  have hne : i ≠ t.base + d := fun heq => hno (heq ▸ hat)
  refine ⟨i, hi.imp_right fun ⟨r, hr, hp⟩ => ⟨r, hr, ?_⟩, hat.set hne _⟩
  exact (if_neg fun heq => hne (by rw [hr, heq])).trans hp

theorem jump (h : Poised p t l f opens) (hp : p.left.size = size) (hw : w.Alike size w')
    {offset : Int}
    (hsafe : ∀ target, jumpTarget t.pc offset = some target →
      Safe t.program.arity? l.code target f) :
    Step.Alike size (Step.jump offset (t.on p.left) w) (Step.jump offset (t.on p.right) w') := by
  unfold Step.jump
  simp only [Task.on_pc]
  cases htarget : jumpTarget t.pc offset with
  | none => exact .crashed hw
  | some target => exact .next (h.go hp (hsafe target htarget) (.refl _ _) h.shows h.covered) hw

/-- Both tasks read the same value. -/
theorem read (h : Poised p t l f opens) {r : Nat} (hr : f.val r = some ()) :
    ∃ v : Datum, (∀ w k, Step.withReg r (t.on p.left) w k = k v.slot (t.on p.left) w) ∧
      ∀ w k, Step.withReg r (t.on p.right) w k = k v.slot (t.on p.right) w := by
  obtain ⟨v, hleft, hright⟩ := h.shows.val r hr
  refine ⟨v, fun w k => ?_, fun w k => ?_⟩
  · unfold Step.withReg Task.read?
    rw [show (t.on p.left).stack[(t.on p.left).base + r]? = _ from hleft]
  · unfold Step.withReg Task.read?
    rw [show (t.on p.right).stack[(t.on p.right).base + r]? = _ from hright]

theorem withReg (h : Poised p t l f opens) {r : Nat} (hr : f.val r = some ())
    {k k' : Slot → Task → World → Step}
    (hk : ∀ v : Datum, Step.Alike size (k v.slot (t.on p.left) w) (k' v.slot (t.on p.right) w')) :
    Step.Alike size (Step.withReg r (t.on p.left) w k) (Step.withReg r (t.on p.right) w' k') := by
  obtain ⟨v, hleft, hright⟩ := h.read hr
  rw [hleft, hright]
  exact hk v

theorem operate (h : Poised p t l f opens) (hp : p.left.size = size) (hw : w.Alike size w')
    (op : ArithOp) {d : Nat} (v : Datum) (hd : f.val d = some ()) (hf : f.Free d)
    (hsafe : Safe t.program.arity? l.code (t.pc + 1) (f.set d ())) :
    Step.Alike size (Step.arith op d v.slot.int64 (t.on p.left) w)
      (Step.arith op d v.slot.int64 (t.on p.right) w') := by
  obtain ⟨u, hleft, hright⟩ := h.read hd
  rw [Step.arith_eq op d u v _ _ (hleft w), Step.arith_eq op d u v _ _ (hright w')]
  cases u.arith op v with
  | error e => exact fault hp hw e
  | ok x => exact h.put_free hp hw hf x hsafe

theorem branch (h : Poised p t l f opens) (hp : p.left.size = size) (hw : w.Alike size w')
    (c : Comparison) {offset : Int} {r : Nat} (v : Datum) (hr : f.val r = some ())
    (hjump : ∀ target, jumpTarget t.pc offset = some target → Safe t.program.arity? l.code target f)
    (hsafe : Safe t.program.arity? l.code (t.pc + 1) f) :
    Step.Alike size (Step.branch c offset r v.slot.integral (t.on p.left) w)
      (Step.branch c offset r v.slot.integral (t.on p.right) w') := by
  obtain ⟨u, hleft, hright⟩ := h.read hr
  rw [Step.branch_eq c offset r u v _ _ (hleft w), Step.branch_eq c offset r u v _ _ (hright w')]
  cases u.compare c v with
  | error e => exact fault hp hw e
  | ok b =>
    cases b with
    | true => exact h.jump hp hw hjump
    | false => exact h.advance hp hw hsafe

theorem printLine (h : Poised p t l f opens) (hp : p.left.size = size) (hw : w.Alike size w')
    (line : Except Fault String) (hsafe : Safe t.program.arity? l.code (t.pc + 1) f) :
    Step.Alike size (Step.printLine line (t.on p.left) w)
      (Step.printLine line (t.on p.right) w') := by
  cases line with
  | error e => exact fault hp hw e
  | ok s =>
    refine h.advance hp ⟨hw.globals, hw.data, ?_, hw.pool⟩ hsafe
    exact congrArg (·.push s) hw.printed

/-- Leaving an activation in which nothing is left that was not joined. -/
theorem leave (h : Poised p t l f opens) (hp : p.left.size = size) (hw : w.Alike size w')
    (v : Datum) (hnone : ∀ r, f.pend r = none) :
    Step.Alike size (Step.leave v.slot (t.on p.left) w) (Step.leave v.slot (t.on p.right) w') := by
  have hholder : ∀ i, ¬ Holder t.base f i := fun i ⟨r, _, hr⟩ => by cases (hnone r).symm.trans hr
  -- what this activation started it has joined; the handles of all other children lie below
  have hcovered : Covered p opens t.children :=
    h.covered.mono fun i id hi hat => ⟨hi.resolve_right (hholder i), hat⟩
  have hlayers := h.layers
  unfold Step.leave
  generalize hb : t.base = base at hlayers
  cases hlayers with
  | bottom =>
    rw [if_pos (show (t.on p.left).base = 0 from hb), if_pos (show (t.on p.right).base = 0 from hb)]
    refine .ended (.mk t p hp) ⟨fun s hs => ⟨v, ?_⟩, fun _ _ => hcovered.eq_nil fun _ => id⟩ hw
    cases hs
    rfl
  | @caller _ below pc ref l' g opens' hle hframe hreturn hl hsafe hshows hopens hbelow =>
    subst hb
    have h0 : t.base ≠ 0 := by omega
    have h1 : t.base ≠ 1 := by omega
    have hunder : p.Under (t.base - 2) (p.set (t.base - 2) v.slot) := .set p (Nat.le_refl _) _
    have hdata : (p.set (t.base - 2) v.slot).Data (t.base - 2) :=
      Stacks.data_set_self hframe.lt_size v
    have hpaired : Paired size
        ({ t with pc, base := below, code := ref }.on (p.set (t.base - 2) v.slot).left)
        ({ t with pc, base := below, code := ref }.on (p.set (t.base - 2) v.slot).right) := by
      refine .mk ((Stacks.size_set _ _ _).trans hp)
        ⟨h.secure, hl, hsafe, hshows _ hunder hdata, hbelow.under (hunder.mono (by omega)), ?_⟩
      refine hcovered.mono fun i id hi hat => ⟨hi, hat.set ?_ _⟩
      have := h.layers.opens_lt hi
      omega
    rw [if_neg (show ¬ (t.on p.left).base = 0 from h0),
      if_neg (show ¬ (t.on p.left).base = 1 from h1),
      if_neg (show ¬ (t.on p.right).base = 0 from h0),
      if_neg (show ¬ (t.on p.right).base = 1 from h1)]
    rw [show (t.on p.left).stack[(t.on p.left).base - 2]? = _ from hframe.1,
      show (t.on p.left).stack[(t.on p.left).base - 1]? = _ from hreturn.1,
      show (t.on p.right).stack[(t.on p.right).base - 2]? = _ from hframe.2,
      show (t.on p.right).stack[(t.on p.right).base - 1]? = _ from hreturn.2]
    exact .next hpaired hw

/-- Entering a function from stacks whose slots below the frame are those of the task. -/
theorem enter (h : Poised p t l f opens) (hq : q.left.size = size) (hw : w.Alike size w')
    {n : FuncId} {k shift : Nat} (hn : t.program.arity? n = some k) (hs : 2 ≤ shift)
    (hu : p.Under t.base q) (hargs : ∀ j, j < k → q.Data (t.base + shift + j))
    (hsafe : Safe t.program.arity? l.code (t.pc + 1) g)
    (hshows : ∀ q', q.Under (t.base + shift - 2) q' → q'.Data (t.base + shift - 2) →
      Shows q' t.base g)
    (hopens : ∀ r, g.pend r = some () → r + 2 < shift)
    (hcovered : Covered q (fun i => opens i ∨ Holder t.base g i) t.children) :
    Step.Alike size (Step.enter n shift (t.on q.left) w)
      (Step.enter n shift (t.on q.right) w') := by
  obtain ⟨callee, hcallee, rfl⟩ := Option.map_eq_some_iff.mp hn
  have hle : t.base + 2 ≤ t.base + shift := Nat.add_le_add_left hs _
  unfold Step.enter
  simp only [Task.on_program, hcallee]
  show Step.Alike size (if q.left.size < t.base + shift + callee.frameSize then _ else
      if t.base + shift < 2 then _ else _)
    (if q.right.size < t.base + shift + callee.frameSize then _ else
      if t.base + shift < 2 then _ else _)
  rw [q.size_eq]
  split
  · exact fault hq hw _
  · rename_i hroom
    rw [if_neg (by omega), if_neg (by omega)]
    -- the stacks with the linkage in place
    let r := (q.set (t.base + shift - 2) (.frame t.base)).set (t.base + shift - 1)
      (.returnTo t.code (t.pc + 1))
    have hqr : q.Under (t.base + shift - 2) r :=
      (Stacks.Under.set q (Nat.le_refl _) _).trans (.set _ (by omega) _)
    have hframe : r.At (t.base + shift - 2) (.frame t.base) :=
      (Stacks.at_set_self (by omega) _).set (by omega) _
    have hreturn : r.At (t.base + shift - 1) (.returnTo t.code (t.pc + 1)) :=
      Stacks.at_set_self (by rw [Stacks.size_set]; omega) _
    have hlayers : Layers t.program r (t.base + shift) fun i => opens i ∨ Holder t.base g i :=
      .caller hle hframe hreturn h.lowered hsafe (fun q' hu' => hshows q' (hqr.trans hu'))
        (fun r hr => by have := hopens r hr; omega)
        (h.layers.under (hu.trans (hqr.mono (by omega))))
    refine .next (.mk (t := { t with pc := 0, base := t.base + shift, code := .func n }) (p := r) ?_
      ⟨h.secure, hcallee, h.secure.safe (.func n) callee hcallee,
        .enter fun j hj => ?_, hlayers, ?_⟩) hw
    · rw [Stacks.size_set, Stacks.size_set]
      exact hq
    · exact ((hargs j hj).set (by omega) _).set (by omega) _
    · refine hcovered.mono fun i id hi hat => ⟨.inl hi, hqr i _ ?_ hat⟩
      have := hlayers.opens_lt hi
      omega

/-- Arguments that stand side by side on both stacks. -/
theorem exists_args {k i : Nat} (h : ∀ j, j < k → p.Data (i + j)) :
    ∃ args : List Datum, args.length = k ∧ ∀ j v, args[j]? = some v → p.At (i + j) v.slot := by
  induction k with
  | zero => exact ⟨[], rfl, fun _ _ hj => by cases hj⟩
  | succ k ih =>
    obtain ⟨args, rfl, hargs⟩ := ih fun j hj => h j (by omega)
    obtain ⟨v, hv⟩ := h args.length (Nat.lt_succ_self _)
    refine ⟨args ++ [v], List.length_append, fun j u hj => ?_⟩
    rcases Nat.lt_or_ge j args.length with hlt | hge
    · rw [List.getElem?_append_left hlt] at hj
      exact hargs j u hj
    · rw [List.getElem?_append_right hge, List.getElem?_singleton] at hj
      split at hj
      · obtain rfl := Option.some.inj hj
        rw [show j = args.length by omega]
        exact hv
      · cases hj

end Poised

/-- Two free tasks that are started alike are in step. -/
theorem Spare.start {c c' : Task} (hc : Spare size c c') {program : Program}
    (hprogram : program.Secure) {n : FuncId} {callee : Lowered}
    (hcallee : program.func? n = some callee) {args : List Datum} (hn : args.length = callee.arity)
    (hroom : callee.frameSize ≤ size) :
    Paired size (c.start program n (args.map Datum.slot))
      (c'.start program n (args.map Datum.slot)) := by
  obtain ⟨halike, -, hchildren⟩ := hc
  cases halike with
  | mk c p hsize =>
    have hle : args.length ≤ p.left.size := by
      have := hprogram.room (.func n) callee hcallee
      omega
    let q : Stacks := ⟨Task.writeAll p.left 0 (args.map Datum.slot),
      Task.writeAll p.right 0 (args.map Datum.slot),
      by rw [size_writeAll, size_writeAll, p.size_eq]⟩
    have hargs : ∀ j, j < callee.arity → q.Data (0 + j) := by
      intro j hj
      have hlt : j < args.length := hn ▸ hj
      have hj : j < (args.map Datum.slot).length := by rwa [List.length_map]
      have hslot : (args.map Datum.slot)[j]? = some args[j].slot := by
        rw [List.getElem?_eq_getElem hj, List.getElem_map]
      refine ⟨_, (writeAll_add ?_ hj).trans hslot, (writeAll_add ?_ hj).trans hslot⟩
      · rw [List.length_map]; omega
      · rw [List.length_map, p.size_eq]; omega
    refine .mk (t := { c with pc := 0, base := 0, code := .func n, program := program }) (p := q) ?_
      ⟨hprogram, hcallee, hprogram.safe (.func n) callee hcallee, .enter hargs, .bottom, ?_⟩
    · show (Task.writeAll _ _ _).size = size
      rw [size_writeAll, hsize]
    · intro id hid
      rw [show c.children = [] from hchildren] at hid
      cases hid

namespace Poised

variable {p q : Stacks} {t : Task} {l : Lowered} {f g : Outline} {opens : Nat → Prop} {w w' : World}

theorem call (h : Poised p t l f opens) (hp : p.left.size = size) (hw : w.Alike size w')
    {n : FuncId} {shift : Reg} (ha : Asks t.program.arity? (.call n shift) f)
    (hsafe : Safe t.program.arity? l.code (t.pc + 1) (f.afterCall shift ())) :
    Step.Alike size (Step.enter n shift (t.on p.left) w)
      (Step.enter n shift (t.on p.right) w') := by
  obtain ⟨k, hn, hs, hargs, hclear⟩ := ha
  refine h.enter hp hw hn hs (.refl _ _) (fun j hj => ?_) hsafe
    (fun q' hu hd => h.shows.afterCall hs hclear hu hd) (fun r hr => ?_) h.covered
  · rw [Nat.add_assoc]
    exact h.shows.val _ (hargs j hj)
  · have := hclear.pend_lt hr
    omega

/-- Handles that a spawn finds, and the one that it leaves, lie below the linkage. -/
theorem afterSpawn_lt {shift r : Nat} (hs : 3 ≤ shift) (hclear : f.Clear (shift - 3))
    (hr : (f.afterSpawn shift ()).pend r = some ()) : r + 2 < shift := by
  unfold Frame.afterSpawn at hr
  dsimp only at hr
  split at hr
  · omega
  · have := hclear.pend_lt hr
    omega

/-- A spawn leaves the handles where they are that it finds. -/
theorem covered_afterSpawn (h : Poised p t l f opens) {shift : Nat} (hs : 3 ≤ shift)
    (hclear : f.Clear (shift - 3)) (s : Slot) : Covered (p.set (t.base + shift - 3) s)
      (fun i => opens i ∨ Holder t.base (f.afterSpawn shift ()) i) t.children := by
  refine h.covered.mono fun i id hi hat => ?_
  rcases hi with hi | ⟨r, rfl, hr⟩
  · have := h.layers.opens_lt hi
    exact ⟨.inl hi, hat.set (by omega) _⟩
  · have := hclear.pend_lt hr
    exact ⟨.inr ⟨r, rfl, (if_neg (by omega)).trans hr⟩, hat.set (by omega) _⟩

/-- A spawn that is made as a call. Its result will lie right above the handle. -/
theorem spawnAtOnce (h : Poised p t l f opens) (hp : p.left.size = size) (hw : w.Alike size w')
    {n : FuncId} {k shift : Nat} (hn : t.program.arity? n = some k) (hs : 3 ≤ shift)
    (hclear : f.Clear (shift - 3)) (hargs : ∀ j, j < k → p.Data (t.base + shift + j))
    (hsafe : Safe t.program.arity? l.code (t.pc + 1) (f.afterSpawn shift ())) :
    Step.Alike size (Step.write (shift - 3) (.future none) (t.on p.left) w (Step.enter n shift))
      (Step.write (shift - 3) (.future none) (t.on p.right) w' (Step.enter n shift)) := by
  have hslot : t.base + (shift - 3) = t.base + shift - 3 := (Nat.add_sub_assoc hs _).symm
  refine write hw fun hlt => ?_
  rw [hslot] at hlt ⊢
  have hset : p.Under (t.base + shift - 3) (p.set (t.base + shift - 3) (.future none)) :=
    .set p (Nat.le_refl _) _
  refine h.enter ((Stacks.size_set _ _ _).trans hp) hw hn (Nat.le_trans (by decide) hs)
    (hset.mono (by omega)) (fun j hj => (hargs j hj).set (by omega) _) hsafe (fun q' hu hd => ?_)
    (fun r hr => afterSpawn_lt hs hclear hr) (h.covered_afterSpawn hs hclear _)
  refine h.shows.afterSpawn hs hclear (hset.trans (hu.mono (by omega))) (.inl ⟨?_, ?_⟩)
  · exact hu _ _ (by omega) (Stacks.at_set_self hlt _)
  · rw [show t.base + shift - 3 + 1 = t.base + shift - 2 by omega]
    exact hd

/-- A spawn that hands the function to a task. -/
theorem spawnPooled (h : Poised p t l f opens) (hp : p.left.size = size) (hw : w.Alike size w')
    {shift : Nat} {id : TaskId} {c c' : Task} (hs : 3 ≤ shift) (hclear : f.Clear (shift - 3))
    (hsafe : Safe t.program.arity? l.code (t.pc + 1) (f.afterSpawn shift ()))
    (hc : Paired size c c') :
    Step.Alike size
      (Step.write (shift - 3) (.future (some id)) (t.on p.left) w fun t w =>
        .spawned { t with pc := t.pc + 1, children := t.children ++ [id] } c w)
      (Step.write (shift - 3) (.future (some id)) (t.on p.right) w' fun t w =>
        .spawned { t with pc := t.pc + 1, children := t.children ++ [id] } c' w) := by
  have hslot : t.base + (shift - 3) = t.base + shift - 3 := (Nat.add_sub_assoc hs _).symm
  refine write hw fun hlt => .spawned ?_ hc hw
  rw [hslot] at hlt ⊢
  have hhandle : (p.set (t.base + shift - 3) (.future (some id))).At (t.base + shift - 3)
      (.future (some id)) := Stacks.at_set_self hlt _
  refine h.go ((Stacks.size_set _ _ _).trans hp) hsafe (.set p (by omega) _)
    (h.shows.afterSpawn hs hclear (.set p (Nat.le_refl _) _) (.inr ⟨id, hhandle⟩))
      fun other ho => ?_
  rcases List.mem_append.mp ho with ho | ho
  · exact h.covered_afterSpawn hs hclear _ other ho
  · obtain rfl := List.mem_singleton.mp ho
    exact ⟨_, .inr ⟨shift - 3, hslot.symm, if_pos rfl⟩, hhandle⟩

/-- A task is started, or a call is made at once if none is free. -/
theorem spawn (h : Poised p t l f opens) (hp : p.left.size = size) (hw : w.Alike size w')
    {n : FuncId} {shift : Reg} (ha : Asks t.program.arity? (.spawn n shift) f)
    (hsafe : Safe t.program.arity? l.code (t.pc + 1) (f.afterSpawn shift ())) :
    Step.Alike size (Step.spawn n shift (t.on p.left) w)
      (Step.spawn n shift (t.on p.right) w') := by
  obtain ⟨k, hn, hs, hargs, hclear⟩ := ha
  have hdata : ∀ j, j < k → p.Data (t.base + shift + j) := fun j hj => by
    rw [Nat.add_assoc]
    exact h.shows.val _ (hargs j hj)
  have hn' := hn
  obtain ⟨callee, hcallee, rfl⟩ := Option.map_eq_some_iff.mp hn'
  unfold Step.spawn
  simp only [Task.on_program, hcallee]
  show Step.Alike size (if p.left.size < callee.frameSize then _ else if shift < 3 then _ else _)
    (if p.right.size < callee.frameSize then _ else if shift < 3 then _ else _)
  rw [p.size_eq]
  split
  · exact fault hp hw _
  · rename_i hroom
    rw [if_neg (Nat.not_lt.mpr hs), if_neg (Nat.not_lt.mpr hs)]
    have htake := hw.pool.take?
    generalize w.pool.take? = x, w'.pool.take? = x' at htake
    cases htake with
    | none => exact h.spawnAtOnce hp hw hn hs hclear hdata hsafe
    | @some taken taken' htaken =>
      obtain ⟨child, pool⟩ := taken
      obtain ⟨child', pool'⟩ := taken'
      obtain ⟨hc, hpool⟩ : Spare size child child' ∧ pool.Alike size pool' := htaken
      obtain ⟨id, hid⟩ := Option.isSome_iff_exists.mp hc.pooled
      -- both copy the same arguments
      obtain ⟨args, hlen, hat⟩ := exists_args hdata
      have hleft : (p.left.extract (t.base + shift) (t.base + shift + callee.arity)).toList =
          args.map Datum.slot := hlen ▸ extract_eq fun j v hj => (hat j v hj).1
      have hright : (p.right.extract (t.base + shift) (t.base + shift + callee.arity)).toList =
          args.map Datum.slot := hlen ▸ extract_eq fun j v hj => (hat j v hj).2
      have hlength : ¬ (args.map Datum.slot).length < callee.arity := by
        rw [List.length_map, hlen]
        exact Nat.lt_irrefl _
      simp only [Task.on_base, Task.on_stack, hleft, hright, if_neg hlength, hc.alike.id, hid]
      exact h.spawnPooled hp (hw.withPool hpool) hs hclear hsafe
        (hc.start h.secure hcallee hlen (hp ▸ Nat.le_of_not_lt hroom))

/-- A handle of a call that was made at once is replaced by its result. -/
theorem join (h : Poised p t l f opens) (hp : p.left.size = size) (hw : w.Alike size w') {r : Nat}
    (hr : f.pend r = some ()) (hu : f.Unshadowed r)
    (hsafe : Safe t.program.arity? l.code (t.pc + 1) (f.afterJoin r ()))
    (hno : ∀ id, ¬ p.At (t.base + r) (.future (some id))) :
    Step.Alike size (Step.join r (t.on p.left) w) (Step.join r (t.on p.right) w') := by
  rcases h.shows.pend r hr with ⟨hhandle, v, hv⟩ | ⟨id, hhandle⟩
  · unfold Step.join Step.withReg Task.read?
    simp only [show (t.on p.left).stack[(t.on p.left).base + r]? = _ from hhandle.1,
      show (t.on p.right).stack[(t.on p.right).base + r]? = _ from hhandle.2,
      show (t.on p.left).stack[(t.on p.left).base + (r + 1)]? = _ from hv.1,
      show (t.on p.right).stack[(t.on p.right).base + (r + 1)]? = _ from hv.2]
    exact h.put_joined hp hw hr hu v hsafe fun id hid => ⟨hid, hno id⟩
  · exact absurd hhandle (hno id)

/-- Two tasks in step run the same instruction, and come to the same. -/
theorem exec (h : Poised p t l f opens) (hp : p.left.size = size) (hw : w.Alike size w') {i : Inst}
    (hi : l.code[t.pc]? = some i)
    (hno : ∀ r id, i = .join r → ¬ p.At (t.base + r) (.future (some id))) :
    Step.Alike size (Step.exec i (t.on p.left) w) (Step.exec i (t.on p.right) w') := by
  obtain ⟨hasks, hthrough, hjump⟩ := h.safe.at_inst hi
  have hjump : ∀ offset, i.offset? = some offset → ∀ target, jumpTarget t.pc offset = some target →
      Safe t.program.arity? l.code target (leaves i f) :=
      fun o ho target ht => (hjump o target ho ht).2
  cases i with
  -- each instruction asks only for what is the same on both sides, as the code is safe
  | intConst d x => exact h.put_free hp hw hasks (.int x) (hthrough rfl).2
  | boolConst d x => exact h.put_free hp hw hasks (.bool x) (hthrough rfl).2
  | floatConst d x => exact h.put_free hp hw hasks (.float x) (hthrough rfl).2
  | move d s => exact h.withReg hasks.1 fun v => h.put_free hp hw hasks.2 v (hthrough rfl).2
  | arith op d s =>
    exact h.withReg hasks.1 fun v => h.operate hp hw op v hasks.2.1 hasks.2.2 (hthrough rfl).2
  | arithConst op d x => exact h.operate hp hw op (.int x) hasks.1 hasks.2 (hthrough rfl).2
  | negate d =>
    rw [Step.exec, Step.exec]
    refine h.withReg hasks.1 fun v => ?_
    cases v.slot.int64 with
    | error e => exact fault hp hw e
    | ok n => exact h.put_free hp hw hasks.2 (.int (-n)) (hthrough rfl).2
  | branch c offset l r =>
    exact h.withReg hasks.1 fun v => h.branch hp hw c v hasks.2 (hjump offset rfl) (hthrough rfl).2
  | branchConst c offset l x =>
    exact h.branch hp hw c (.int x) hasks (hjump offset rfl) (hthrough rfl).2
  | jump offset => exact h.jump hp hw (hjump offset rfl)
  | load d g =>
    simp only [Step.exec, hw.globals]
    cases hg : w.globals[g.index]? with
    | none => exact .crashed hw
    | some s =>
      obtain ⟨v, rfl⟩ := hw.data _ _ hg
      exact h.put_free hp hw hasks v (hthrough rfl).2
  | store s g =>
    rw [Step.exec, Step.exec]
    refine h.withReg hasks fun v =>
      h.advance hp ⟨?_, fun j x hx => ?_, hw.printed, hw.pool⟩ (hthrough rfl).2
    -- what is stored is data on both sides, as what was there before
    · exact congrArg (·.setIfInBounds g.index v.slot) hw.globals
    · have hx : (w.globals.setIfInBounds g.index v.slot)[j]? = some x := hx
      rw [Array.getElem?_setIfInBounds] at hx
      split at hx
      · split at hx
        · exact ⟨v, (Option.some.inj hx).symm⟩
        · cases hx
      · exact hw.data j x hx
  | print s =>
    exact h.withReg hasks fun v => h.printLine hp hw _ (hthrough rfl).2
  | printBool s =>
    exact h.withReg hasks fun v => h.printLine hp hw _ (hthrough rfl).2
  | call n shift => exact h.call hp hw hasks (hthrough rfl).2
  | spawn n shift => exact h.spawn hp hw hasks (hthrough rfl).2
  | join r => exact h.join hp hw hasks.1 hasks.2 (hthrough rfl).2 fun id => hno r id rfl
  | ret s =>
    exact h.withReg hasks.1 fun v => h.leave hp hw v hasks.2
  | retConst x => exact h.leave hp hw (.int x) hasks
  | stop => exact hasks.elim

end Poised

/-! ### Tasks in step -/

namespace Paired

variable {t t' : Task} {w w' : World} {r : Reg} {id : TaskId}

/-- Two tasks in step wait for the same. -/
theorem awaits?_eq (h : Paired size t t') : t'.awaits? = t.awaits? := by
  cases h with
  | @mk t p l f opens hsize h =>
    obtain ⟨i, hi⟩ := h.safe.inst
    unfold Task.awaits?
    rw [h.inst?_eq hi, h.inst?_eq hi]
    cases i with
    | join r =>
      have hhandle := h.shows.pend r (h.safe.at_inst hi).1.1
      unfold Task.read?
      dsimp only
      obtain ⟨s, hleft, hright⟩ : ∃ s, p.At (t.base + r) s := by
        rcases hhandle with ⟨hf, -⟩ | ⟨id, hf⟩
        · exact ⟨_, hf⟩
        · exact ⟨_, hf⟩
      rw [show (t.on p.left).stack[(t.on p.left).base + r]? = _ from hleft,
        show (t.on p.right).stack[(t.on p.right).base + r]? = _ from hright]
    | _ => rfl

/-- Two tasks in step take the same step, unless they wait for another one. -/
theorem step (h : Paired size t t') (hw : w.Alike size w') (hno : t.awaits? = none) :
    Step.Alike size (Machine.step t w) (Machine.step t' w') := by
  cases h with
  | @mk t p l f opens hsize h =>
    obtain ⟨i, hi⟩ := h.safe.inst
    unfold Machine.step
    rw [h.inst?_eq hi, h.inst?_eq hi]
    -- a join that finds the handle of a pooled task would wait
    refine h.exec hsize hw hi fun r id heq hat => ?_
    subst heq
    simp only [Task.awaits?, h.inst?_eq hi, Task.read?,
      show (t.on p.left).stack[(t.on p.left).base + r]? = _ from hat.1] at hno
    cases hno

/-- Two tasks in step go on alike with the outcome of another one. -/
theorem resume (h : Paired size t t') (hw : w.Alike size w') (ha : t.awaits? = some (r, id))
    {outcome : Outcome} (ho : IsData outcome) :
    Step.Alike size (Step.resume r id outcome t w) (Step.resume r id outcome t' w') := by
  cases h with
  | @mk t p l f opens hsize h =>
    cases outcome with
    | error e =>
      exact Poised.fault (t := { t with children := t.children.filter (· != id) }) hsize hw e
    | ok s =>
      obtain ⟨v, rfl⟩ := ho s rfl
      obtain ⟨i, hi⟩ := h.safe.inst
      obtain ⟨hinst, hread⟩ := Task.of_awaits? ha
      obtain rfl := Option.some.inj ((h.inst?_eq hi p.left).symm.trans hinst)
      have hread : p.left[t.base + r]? = some (.future (some id)) := hread
      obtain ⟨⟨hpend, hu⟩, hthrough, -⟩ := h.safe.at_inst hi
      refine h.put_joined hsize hw hpend hu v (hthrough rfl).2 fun other hother => ?_
      obtain ⟨hmem, hne⟩ := List.mem_filter.mp hother
      refine ⟨hmem, fun hat' => ?_⟩
      cases hread.symm.trans hat'.1
      exact absurd rfl (bne_iff_ne.mp hne)

/-- What a task in step reads is a value of the language, but for the handle that it waits for. -/
theorem reads (h : Paired size t t') {i : Inst} (hi : t.inst? = some i) (hno : ∀ d, i ≠ .join d)
    (hr : r ∈ readsOf t.program.arity? i) : ∃ v : Datum, t.read? r = some v.slot := by
  cases h with
  | @mk t p l f opens hsize h =>
    obtain ⟨j, hj⟩ := h.safe.inst
    obtain rfl := Option.some.inj ((h.inst?_eq hj p.left).symm.trans hi)
    rcases reads_of_asks (h.safe.at_inst hj).1 hr with hval | ⟨d, rfl, -⟩
    · obtain ⟨v, hv⟩ := h.shows.val r hval
      exact ⟨v, hv.1⟩
    · exact absurd rfl (hno d)

end Paired

end ForkLisp.Machine
