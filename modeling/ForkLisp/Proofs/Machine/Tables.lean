/-
Programs with the same functions.

Two programs agree up to a number if they have the same entry and the same functions below it,
and the code of these refers to no others. A task cannot tell the one program from the other:
it takes the same step under both (`Task.Twin.step`), in worlds whose tasks belong to the one
and to the other.
-/
import ForkLisp.Machine.Step
import ForkLisp.Proofs.Compile.Callees

namespace ForkLisp.Machine

open ForkLisp.Code

/-! ### Tasks and worlds -/

/-- The code that a reference names is that of an entry or of one of the first functions. -/
def CodeRef.Below (n : Nat) : CodeRef → Prop
  | .entry => True
  | .func id => id < n

/-- A slot holds no return address in the code of other functions than the first ones. -/
def Slot.Below (n : Nat) : Slot → Prop
  | .returnTo ref _ => ref.Below n
  | _ => True

/-- Programs have the same entry and the same first functions, and the code of these refers
to no others. -/
structure Program.Agree (n : Nat) (p p' : Program) : Prop where
  entry : p'.entry = p.entry
  func : ∀ id, id < n → p'.func? id = p.func? id
  closed : ∀ ref l, ref.Below n → p.code? ref = some l → ∀ id ∈ callees l.code.toList, id < n

/-- A task with another program. -/
def Task.under (t : Task) (program : Program) : Task := { t with program }

section

variable (t : Task) (program : Program)

@[simp] theorem Task.under_program : (t.under program).program = program := rfl

@[simp] theorem Task.under_pc : (t.under program).pc = t.pc := rfl

@[simp] theorem Task.under_base : (t.under program).base = t.base := rfl

@[simp] theorem Task.under_stack : (t.under program).stack = t.stack := rfl

@[simp] theorem Task.under_children : (t.under program).children = t.children := rfl

@[simp] theorem Task.under_id : (t.under program).id = t.id := rfl

end

/-- Two tasks differ in nothing but the programs that they belong to. -/
inductive Task.Twin (n : Nat) (p p' : Program) : Task → Task → Prop where
  | mk (t : Task) (hcode : t.code.Below n) (hstack : ∀ s ∈ t.stack, s.Below n) :
      Twin n p p' (t.under p) (t.under p')

/-- An outcome holds no return address in the code of other functions than the first ones. -/
def Outcome.Below (n : Nat) (outcome : Outcome) : Prop := ∀ s, outcome = .ok s → s.Below n

/-- Two pooled tasks have come to the same end. -/
structure ParkedTwin (n : Nat) (p p' : Program) (x x' : Task × Outcome) : Prop where
  task : x.1.Twin n p p' x'.1
  outcome : x'.2 = x.2
  below : Outcome.Below n x.2

/-- Two berths have the same stage, and tasks that have come to the same end. -/
structure Berth.Twin (n : Nat) (p p' : Program) (b b' : Berth) : Prop where
  stage : b'.stage = b.stage
  parked : Option.Rel (ParkedTwin n p p') b.parked b'.parked

/-- Two pools differ in nothing but the programs of parked tasks. -/
structure Pool.Twin (n : Nat) (p p' : Program) (q q' : Pool) : Prop where
  berths : ∀ id : TaskId, Option.Rel (Berth.Twin n p p') q.berths[id]? q'.berths[id]?
  free : q'.free = q.free
  below : ∀ t ∈ q.free, ∀ s ∈ t.stack, s.Below n

/-- Two worlds differ in nothing but the programs of parked tasks. -/
structure World.Twin (n : Nat) (p p' : Program) (w w' : World) : Prop where
  globals : w'.globals = w.globals
  below : ∀ s ∈ w.globals, s.Below n
  printed : w'.printed = w.printed
  pool : w.pool.Twin n p p' w'.pool

/-- Two steps come to the same. -/
inductive Step.Twin (n : Nat) (p p' : Program) : Step → Step → Prop where
  | next {t t' : Task} {w w' : World} (ht : t.Twin n p p' t') (hw : w.Twin n p p' w') :
      Twin n p p' (.next t w) (.next t' w')
  | spawned {t t' c c' : Task} {w w' : World} (ht : t.Twin n p p' t') (hc : c.Twin n p p' c')
      (hw : w.Twin n p p' w') : Twin n p p' (.spawned t c w) (.spawned t' c' w')
  | suspended {t t' : Task} {w w' : World} (ht : t.Twin n p p' t') (hw : w.Twin n p p' w') :
      Twin n p p' (.suspended t w) (.suspended t' w')
  | ended {t t' : Task} {outcome : Outcome} {w w' : World} (ht : t.Twin n p p' t')
      (ho : Outcome.Below n outcome) (hw : w.Twin n p p' w') :
      Twin n p p' (.ended t outcome w) (.ended t' outcome w')
  | crashed {w w' : World} (hw : w.Twin n p p' w') : Twin n p p' (.crashed w) (.crashed w')

variable {n : Nat} {p p' : Program}

theorem Outcome.below_error (e : Fault) : Outcome.Below n (.error e) := fun _ h => by cases h

theorem Program.Agree.symm (h : p.Agree n p') : p'.Agree n p where
  entry := h.entry.symm
  func id hid := (h.func id hid).symm
  closed ref l href hl := by
    refine h.closed ref l href (Eq.trans ?_ hl)
    cases ref with
    | entry => exact congrArg some h.entry.symm
    | func id => exact (h.func id href).symm

theorem below_writeAll {vs : List Slot} (hvs : ∀ v ∈ vs, v.Below n) {stack : Array Slot} (i : Nat)
    (h : ∀ s ∈ stack, s.Below n) : ∀ s ∈ Task.writeAll stack i vs, s.Below n := by
  induction vs generalizing stack i with
  | nil => exact h
  | cons v vs ih =>
    refine ih (fun u hu => hvs u (List.mem_cons_of_mem _ hu)) (i + 1) fun s hs => ?_
    rcases Array.mem_or_eq_of_mem_setIfInBounds hs with hs | rfl
    · exact h s hs
    · exact hvs s List.mem_cons_self

/-! ### Pools -/

theorem Task.Twin.id {t t' : Task} (h : t.Twin n p p' t') : t'.id = t.id := by
  cases h with
  | mk => rfl

theorem Task.Twin.reset {t t' : Task} (h : t.Twin n p p' t') : t'.reset = t.reset := by
  cases h with
  | mk => rfl

theorem Task.Twin.stack_below {t t' : Task} (h : t.Twin n p p' t') : ∀ s ∈ t.stack, s.Below n := by
  cases h with
  | mk t hcode hstack => exact hstack

namespace Pool.Twin

variable {q q' : Pool} {id : TaskId}

theorem stage? (h : q.Twin n p p' q') (id : TaskId) : q'.stage? id = q.stage? id := by
  unfold Pool.stage?
  have hberth := h.berths id
  generalize q.berths[id]? = x, q'.berths[id]? = x' at hberth
  cases hberth with
  | none => rfl
  | some hb => exact congrArg some hb.stage

theorem hasEnded (h : q.Twin n p p' q') (id : TaskId) : q'.hasEnded id = q.hasEnded id := by
  unfold Pool.hasEnded
  rw [h.stage? id]

theorem parked? (h : q.Twin n p p' q') (id : TaskId) :
    Option.Rel (ParkedTwin n p p') (q.parked? id) (q'.parked? id) := by
  unfold Pool.parked?
  have hberth := h.berths id
  generalize q.berths[id]? = x, q'.berths[id]? = x' at hberth
  cases hberth with
  | none => exact .none
  | some hb => exact hb.parked

/-- Changing a berth in both pools. -/
theorem modify (h : q.Twin n p p' q') (g g' : Berth → Berth)
    (hg : ∀ b b', Berth.Twin n p p' b b' → Berth.Twin n p p' (g b) (g' b')) (id : TaskId) :
    Pool.Twin n p p' { q with berths := q.berths.modify id g }
      { q' with berths := q'.berths.modify id g' } := by
  refine ⟨fun other => ?_, h.free, h.below⟩
  have hberth := h.berths other
  show Option.Rel _ (q.berths.modify id g)[other]? (q'.berths.modify id g')[other]?
  rw [Array.getElem?_modify, Array.getElem?_modify]
  generalize q.berths[other]? = x, q'.berths[other]? = x' at hberth
  split
  · cases hberth with
    | none => exact .none
    | some hb => exact .some (hg _ _ hb)
  · exact hberth

theorem setStage (h : q.Twin n p p' q') (id : TaskId) (stage : Stage) :
    (q.setStage id stage).Twin n p p' (q'.setStage id stage) :=
  h.modify (fun b => { b with stage }) (fun b => { b with stage })
    (fun _ _ hb => ⟨rfl, hb.parked⟩) id

theorem setParked (h : q.Twin n p p' q') (id : TaskId) {x x' : Option (Task × Outcome)}
    (hx : Option.Rel (ParkedTwin n p p') x x') :
    (q.setParked id x).Twin n p p' (q'.setParked id x') :=
  h.modify (fun b => { b with parked := x }) (fun b => { b with parked := x' })
    (fun _ _ hb => ⟨hb.stage, hx⟩) id

/-- The same task is taken. -/
theorem take? (h : q.Twin n p p' q') :
    Option.Rel (fun x x' => x'.1 = x.1 ∧ (∀ s ∈ x.1.stack, s.Below n) ∧ x.2.Twin n p p' x'.2)
      q.take? q'.take? := by
  unfold Pool.take?
  rw [h.free]
  cases hfree : q.free with
  | nil => exact .none
  | cons t rest =>
    have hbelow := h.below
    rw [hfree] at hbelow
    have hrest : Pool.Twin n p p' { q with free := rest } { q' with free := rest } :=
      ⟨h.berths, rfl, fun u hu => hbelow u (List.mem_cons_of_mem _ hu)⟩
    dsimp only
    cases t.id with
    | none => exact .some ⟨rfl, hbelow t List.mem_cons_self, hrest⟩
    | some id => exact .some ⟨rfl, hbelow t List.mem_cons_self, hrest.setStage id .running⟩

theorem release (h : q.Twin n p p' q') {t t' : Task} (ht : t.Twin n p p' t') :
    (q.release t).Twin n p p' (q'.release t') := by
  have hfreed : ∀ {r r' : Pool}, r.Twin n p p' r' →
      Pool.Twin n p p' { r with free := r.free ++ [t.reset] }
        { r' with free := r'.free ++ [t.reset] } := by
    intro r r' hr
    refine ⟨hr.berths, congrArg (· ++ [t.reset]) hr.free, fun u hu => ?_⟩
    rcases List.mem_append.mp hu with hu | hu
    · exact hr.below u hu
    · obtain rfl := List.mem_singleton.mp hu
      exact ht.stack_below
  unfold Pool.release
  rw [ht.id, ht.reset]
  cases t.id with
  | none => exact hfreed h
  | some id => exact hfreed (h.setStage id .free)

theorem finish (h : q.Twin n p p' q') {t t' : Task} {outcome : Outcome} (ht : t.Twin n p p' t')
    (ho : Outcome.Below n outcome) (id : TaskId) :
    (q.finish id t outcome).Twin n p p' (q'.finish id t' outcome) := by
  unfold Pool.finish
  rw [h.stage? id]
  split
  · exact h.release ht
  · have hparked : ParkedTwin n p p' (t, outcome) (t', outcome) := ⟨ht, rfl, ho⟩
    exact (h.setParked id (.some hparked)).setStage id .ended

theorem join? (h : q.Twin n p p' q') (id : TaskId) :
    Option.Rel (fun x x' => x'.1 = x.1 ∧ Outcome.Below n x.1 ∧ x.2.Twin n p p' x'.2)
      (q.join? id) (q'.join? id) := by
  unfold Pool.join? Pool.collect?
  rw [h.hasEnded id]
  split
  · have hparked := h.parked? id
    generalize q.parked? id = x, q'.parked? id = x' at hparked
    cases hparked with
    | none => exact .none
    | some hx => exact .some ⟨hx.outcome, hx.below, (h.setParked id .none).release hx.task⟩
  · exact .none

end Pool.Twin

theorem World.Twin.withPool {w w' : World} (h : w.Twin n p p' w') {q q' : Pool}
    (hq : q.Twin n p p' q') : World.Twin n p p' { w with pool := q } { w' with pool := q' } :=
  ⟨h.globals, h.below, h.printed, hq⟩

/-! ### Instructions -/

namespace Task.Twin

variable {t t' : Task} {w w' : World}

theorem read? (h : t.Twin n p p' t') (r : Reg) : t'.read? r = t.read? r := by
  cases h with
  | mk => rfl

/-- What a task reads. -/
theorem below (h : t.Twin n p p' t') {r : Reg} {v : Slot}
    (hv : t.read? r = some v) : v.Below n := by
  cases h with
  | mk t hcode hstack => exact hstack v (Array.mem_of_getElem? hv)

/-- Both tasks are somewhere else on other stacks. -/
theorem go (h : t.Twin n p p' t') {stack : Array Slot} {pc base : Nat} {code : CodeRef}
    {children : List TaskId} (hcode : code.Below n) (hstack : ∀ s ∈ stack, s.Below n) :
    Task.Twin n p p' { t with stack, pc, base, code, children }
      { t' with stack, pc, base, code, children } := by
  cases h with
  | mk t => exact .mk { t with stack, pc, base, code, children } hcode hstack

theorem advance (h : t.Twin n p p' t') (hw : w.Twin n p p' w') :
    Step.Twin n p p' (Step.advance t w) (Step.advance t' w') := by
  cases h with
  | mk t hcode hstack => exact .next (.mk { t with pc := t.pc + 1 } hcode hstack) hw

theorem fault (h : t.Twin n p p' t') (hw : w.Twin n p p' w') (e : Fault) :
    Step.Twin n p p' (.ended t (.error e) w) (.ended t' (.error e) w') :=
  .ended h (Outcome.below_error e) hw

theorem withReg (h : t.Twin n p p' t') (hw : w.Twin n p p' w') {r : Reg}
    {k k' : Slot → Task → World → Step}
    (hk : ∀ v, v.Below n → Step.Twin n p p' (k v t w) (k' v t' w')) :
    Step.Twin n p p' (Step.withReg r t w k) (Step.withReg r t' w' k') := by
  unfold Step.withReg
  rw [h.read? r]
  cases hv : t.read? r with
  | none => exact .crashed hw
  | some v => exact hk v (h.below hv)

theorem write (h : t.Twin n p p' t') (hw : w.Twin n p p' w') {d : Reg} {v : Slot} (hv : v.Below n)
    {k k' : Task → World → Step}
    (hk : ∀ {u u'}, u.Twin n p p' u' → Step.Twin n p p' (k u w) (k' u' w')) :
    Step.Twin n p p' (Step.write d v t w k) (Step.write d v t' w' k') := by
  cases h with
  | mk t hcode hstack =>
    unfold Step.write
    by_cases hlt : t.base + d < t.stack.size
    · rw [dif_pos (show (t.under p).base + d < (t.under p).stack.size from hlt),
        dif_pos (show (t.under p').base + d < (t.under p').stack.size from hlt)]
      refine hk (.mk { t with stack := t.stack.set (t.base + d) v } hcode fun s hs => ?_)
      have hs : s ∈ t.stack.set (t.base + d) v hlt := hs
      rcases Array.mem_or_eq_of_mem_set hs with hs | rfl
      · exact hstack s hs
      · exact hv
    · rw [dif_neg (show ¬ (t.under p).base + d < (t.under p).stack.size from hlt),
        dif_neg (show ¬ (t.under p').base + d < (t.under p').stack.size from hlt)]
      exact .crashed hw

theorem put (h : t.Twin n p p' t') (hw : w.Twin n p p' w') {d : Reg} {v : Slot} (hv : v.Below n) :
    Step.Twin n p p' (Step.put d v t w) (Step.put d v t' w') :=
  h.write hw hv fun hu => hu.advance hw

theorem jump (h : t.Twin n p p' t') (hw : w.Twin n p p' w') (offset : Int) :
    Step.Twin n p p' (Step.jump offset t w) (Step.jump offset t' w') := by
  cases h with
  | mk t hcode hstack =>
    unfold Step.jump
    rw [Task.under_pc, Task.under_pc]
    cases jumpTarget t.pc offset with
    | none => exact .crashed hw
    | some pc => exact .next (.mk { t with pc } hcode hstack) hw

theorem arith (h : t.Twin n p p' t') (hw : w.Twin n p p' w') (op : ArithOp) (d : Reg)
    (rhs : Except Fault Int64) :
    Step.Twin n p p' (Step.arith op d rhs t w) (Step.arith op d rhs t' w') := by
  refine h.withReg hw fun v _ => ?_
  cases v.int64 with
  | error e => exact h.fault hw e
  | ok a =>
    cases rhs with
    | error e => exact h.fault hw e
    | ok b =>
      dsimp only
      cases op.result? a b with
      | none => exact h.fault hw _
      | some x => exact h.put hw trivial

theorem branch (h : t.Twin n p p' t') (hw : w.Twin n p p' w') (cmp : Comparison) (offset : Int)
    (lhs : Reg) (rhs : Except Fault Int64) :
    Step.Twin n p p' (Step.branch cmp offset lhs rhs t w)
      (Step.branch cmp offset lhs rhs t' w') := by
  refine h.withReg hw fun v _ => ?_
  cases v.integral with
  | error e => exact h.fault hw e
  | ok a =>
    cases rhs with
    | error e => exact h.fault hw e
    | ok b =>
      dsimp only
      split
      · exact h.jump hw offset
      · exact h.advance hw

theorem enter (hp : p.Agree n p') (h : t.Twin n p p' t') (hw : w.Twin n p p' w') {callee : FuncId}
    (hc : callee < n) (shift : Reg) :
    Step.Twin n p p' (Step.enter callee shift t w) (Step.enter callee shift t' w') := by
  cases h with
  | mk t hcode hstack =>
    unfold Step.enter
    rw [Task.under_program, Task.under_program, hp.func callee hc]
    cases p.func? callee with
    | none => exact .crashed hw
    | some f =>
      dsimp only
      show Step.Twin n p p' (if t.stack.size < t.base + shift + f.frameSize then _ else _)
        (if t.stack.size < t.base + shift + f.frameSize then _ else _)
      split
      · exact .ended (.mk t hcode hstack) (Outcome.below_error _) hw
      · show Step.Twin n p p' (if t.base + shift < 2 then _ else _)
          (if t.base + shift < 2 then _ else _)
        split
        · exact .crashed hw
        · refine .next (go (.mk t hcode hstack) hc fun s hs => ?_) hw
          rcases Array.mem_or_eq_of_mem_setIfInBounds hs with hs | rfl
          · rcases Array.mem_or_eq_of_mem_setIfInBounds hs with hs | rfl
            · exact hstack s hs
            · trivial
          · exact hcode

theorem spawn (hp : p.Agree n p') (h : t.Twin n p p' t') (hw : w.Twin n p p' w') {callee : FuncId}
    (hc : callee < n) (shift : Reg) :
    Step.Twin n p p' (Step.spawn callee shift t w) (Step.spawn callee shift t' w') := by
  cases h with
  | mk t hcode hstack =>
    have ht : Task.Twin n p p' (t.under p) (t.under p') := .mk t hcode hstack
    unfold Step.spawn
    rw [Task.under_program, Task.under_program, hp.func callee hc]
    cases p.func? callee with
    | none => exact .crashed hw
    | some f =>
      dsimp only
      show Step.Twin n p p' (if t.stack.size < f.frameSize then _ else _)
        (if t.stack.size < f.frameSize then _ else _)
      split
      · exact ht.fault hw _
      split
      · exact .crashed hw
      have htake := hw.pool.take?
      generalize w.pool.take? = x, w'.pool.take? = x' at htake
      cases htake with
      -- no stack is free: the parent runs the function itself
      | none => exact ht.write hw (v := .future none) trivial fun hu => enter hp hu hw hc shift
      | @some x x' hx =>
        obtain ⟨child, q⟩ := x
        obtain ⟨child', q'⟩ := x'
        obtain ⟨rfl, hchild, hq⟩ : child' = child ∧ (∀ s ∈ child.stack,
          s.Below n) ∧ q.Twin n p p' q' := hx
        dsimp only
        have hargs : ∀ v ∈ (t.stack.extract (t.base + shift) (t.base + shift + f.arity)).toList,
            v.Below n := by
          intro v hv
          rw [Array.toList_extract] at hv
          exact hstack v (Array.mem_toList_iff.mp (List.mem_of_mem_drop (List.mem_of_mem_take hv)))
        show Step.Twin n p p'
          (if (t.stack.extract (t.base + shift) (t.base + shift + f.arity)).toList.length < f.arity
            then _ else _)
          (if (t.stack.extract (t.base + shift) (t.base + shift + f.arity)).toList.length < f.arity
            then _ else _)
        split
        · exact .crashed (hw.withPool hq)
        refine ht.write (hw.withPool hq) (v := .future child'.id) trivial fun hu => ?_
        cases hu with
        | mk u hcode hstack =>
          exact .spawned (go (.mk u hcode hstack) hcode hstack)
            (.mk (child'.start p callee _) hc (below_writeAll hargs 0 hchild)) (hw.withPool hq)

theorem resume (h : t.Twin n p p' t') (hw : w.Twin n p p' w') {outcome : Outcome}
    (ho : Outcome.Below n outcome) (r : Reg) (id : TaskId) :
    Step.Twin n p p' (Step.resume r id outcome t w) (Step.resume r id outcome t' w') := by
  cases h with
  | mk t hcode hstack =>
    have ht : Task.Twin n p p' { t with program := p, children := t.children.filter (· != id) }
        { t with program := p', children := t.children.filter (· != id) } :=
      .mk { t with children := t.children.filter (· != id) } hcode hstack
    cases outcome with
    | error e => exact ht.fault hw e
    | ok v => exact ht.put hw (ho v rfl)

theorem join (h : t.Twin n p p' t') (hw : w.Twin n p p' w') (r : Reg) :
    Step.Twin n p p' (Step.join r t w) (Step.join r t' w') := by
  refine h.withReg hw fun v _ => ?_
  cases v with
  | future task =>
    cases task with
    | none => exact h.withReg hw fun v hv => h.put hw hv
    | some id =>
      dsimp only
      have hjoin := hw.pool.join? id
      generalize w.pool.join? id = x, w'.pool.join? id = x' at hjoin
      cases hjoin with
      | none => exact .suspended h hw
      | @some x x' hx =>
        obtain ⟨outcome, q⟩ := x
        obtain ⟨outcome', q'⟩ := x'
        obtain ⟨rfl, ho, hq⟩ : outcome' = outcome ∧ Outcome.Below n outcome ∧ q.Twin n p p' q' := hx
        exact h.resume (hw.withPool hq) ho r id
  | _ => exact h.advance hw

theorem printLine (h : t.Twin n p p' t') (hw : w.Twin n p p' w') (line : Except Fault String) :
    Step.Twin n p p' (Step.printLine line t w) (Step.printLine line t' w') := by
  cases line with
  | error e => exact h.fault hw e
  | ok s => exact h.advance ⟨hw.globals, hw.below, congrArg (·.push s) hw.printed, hw.pool⟩

theorem leave (h : t.Twin n p p' t') (hw : w.Twin n p p' w') {v : Slot} (hv : v.Below n) :
    Step.Twin n p p' (Step.leave v t w) (Step.leave v t' w') := by
  cases h with
  | mk t hcode hstack =>
    unfold Step.leave
    show Step.Twin n p p' (if t.base = 0 then _ else if t.base = 1 then _ else _)
      (if t.base = 0 then _ else if t.base = 1 then _ else _)
    split
    · exact .ended (.mk t hcode hstack) (fun s hs => by cases hs; exact hv) hw
    split
    · exact .crashed hw
    simp only [Task.under_base, Task.under_stack]
    split
    · rename_i base code pc _ hreturn
      have hbelow : Slot.Below n (.returnTo code pc) := hstack _ (Array.mem_of_getElem? hreturn)
      refine .next (go (.mk t hcode hstack) hbelow fun s hs => ?_) hw
      rcases Array.mem_or_eq_of_mem_setIfInBounds hs with hs | rfl
      · exact hstack s hs
      · exact hv
    · exact .crashed hw

/-- An instruction that refers to one of the first functions, or to none, does the same. -/
theorem exec (hp : p.Agree n p') (h : t.Twin n p p' t') (hw : w.Twin n p p' w') {i : Inst}
    (hi : ∀ id, i.callee? = some id → id < n) :
    Step.Twin n p p' (Step.exec i t w) (Step.exec i t' w') := by
  cases i with
  | intConst | boolConst | floatConst => exact h.put hw trivial
  | move d s => exact h.withReg hw fun v hv => h.put hw hv
  | arith op d s => exact h.withReg hw fun v _ => h.arith hw op d _
  | arithConst op d x => exact h.arith hw op d _
  | negate d =>
    rw [Step.exec, Step.exec]
    refine h.withReg hw fun v _ => ?_
    cases v.int64 with
    | error e => exact h.fault hw e
    | ok x => exact h.put hw trivial
  | branch c offset l r => exact h.withReg hw fun v _ => h.branch hw c offset l _
  | branchConst c offset l x => exact h.branch hw c offset l _
  | jump offset => exact h.jump hw offset
  | load d g =>
    simp only [Step.exec, hw.globals]
    cases hg : w.globals[g.index]? with
    | none => exact .crashed hw
    | some v => exact h.put hw (hw.below v (Array.mem_of_getElem? hg))
  | store s g =>
    rw [Step.exec, Step.exec]
    refine h.withReg hw fun v hv => h.advance ⟨?_, fun x hx => ?_, hw.printed, hw.pool⟩
    · exact congrArg (·.setIfInBounds g.index v) hw.globals
    · rcases Array.mem_or_eq_of_mem_setIfInBounds hx with hx | rfl
      · exact hw.below x hx
      · exact hv
  | call callee shift => exact enter hp h hw (hi callee rfl) shift
  | spawn callee shift => exact spawn hp h hw (hi callee rfl) shift
  | join r => exact h.join hw r
  | ret s => exact h.withReg hw fun v hv => h.leave hw hv
  | retConst x => exact h.leave hw trivial
  | print s => exact h.withReg hw fun v _ => h.printLine hw _
  | printBool s => exact h.withReg hw fun v _ => h.printLine hw _
  | stop => exact .crashed hw

/-- Both tasks are in the same code. -/
theorem lowered? (hp : p.Agree n p') (h : t.Twin n p p' t') : t'.lowered? = t.lowered? := by
  cases h with
  | mk t hcode hstack =>
    show p'.code? t.code = p.code? t.code
    cases href : t.code with
    | entry => exact congrArg some hp.entry
    | func id =>
      rw [href] at hcode
      exact hp.func id hcode

theorem inst? (hp : p.Agree n p') (h : t.Twin n p p' t') : t'.inst? = t.inst? := by
  unfold Task.inst?
  rw [h.lowered? hp]
  cases h with
  | mk => rfl

theorem callee_lt (hp : p.Agree n p') (h : t.Twin n p p' t') {i : Inst} (hi : t.inst? = some i)
    {id : FuncId} (hid : i.callee? = some id) : id < n := by
  obtain ⟨l, hl, hi⟩ := Option.bind_eq_some_iff.mp hi
  cases h with
  | mk t hcode hstack =>
    exact hp.closed t.code l hcode hl id
      (mem_callees.mpr ⟨i, Array.mem_toList_iff.mpr (Array.mem_of_getElem? hi), hid⟩)

theorem awaits? (hp : p.Agree n p') (h : t.Twin n p p' t') : t'.awaits? = t.awaits? := by
  unfold Task.awaits?
  rw [h.inst? hp]
  cases h with
  | mk => rfl

theorem handleSlot? (hp : p.Agree n p') (h : t.Twin n p p' t') :
    t'.handleSlot? = t.handleSlot? := by
  unfold Task.handleSlot?
  rw [h.inst? hp]
  cases h with
  | mk => rfl

theorem fits (hp : p.Agree n p') (h : t.Twin n p p' t') : t'.fits = t.fits := by
  unfold Task.fits
  rw [h.lowered? hp]
  cases h with
  | mk => rfl

/-- A task takes the same step under both programs. -/
theorem step (hp : p.Agree n p') (h : t.Twin n p p' t') (hw : w.Twin n p p' w') :
    Step.Twin n p p' (Machine.step t w) (Machine.step t' w') := by
  unfold Machine.step
  rw [h.inst? hp]
  cases hi : t.inst? with
  | none => exact .crashed hw
  | some i => exact exec hp h hw fun id hid => h.callee_lt hp hi hid

end Task.Twin

end ForkLisp.Machine
