/-
Steps and frames.

`Describes` says that a meaning allows what the machine does with values, globals and lines. Where
it does, an instruction that neither enters nor leaves a function, and that waits for nothing, goes
on in its frame or ends the task with a fault, as the meaning allows (`exec_inside`). It writes no
slot but those of its registers, and what is known of the registers is known again. What it does to
globals and prints, its world undergoes in the meaning (`Undergoes`).

For the other instructions there is what they are run with and what follows them (`exec_call` and
the like). A function is entered above its linkage (`Step.enter_eq`), and returns to where that says
(`Step.leave_eq`).
-/
import ForkLisp.Proofs.Machine.Activations
import ForkLisp.Proofs.Reference.Arithmetic

namespace ForkLisp.Machine

open ForkLisp.Code ForkLisp.Behaviour ForkLisp.Reference

variable {H W : Type}

/-- The line that prints a slot, as it is or as a truth value. -/
def Slot.line (truth : Bool) (s : Slot) : Except Fault String :=
  if truth then s.integral.map fun n => Slot.boolText (n != 0) else s.printed

/-- A meaning allows what the machine does, where `holds` relates the world of the machine to that
of the meaning. -/
structure Describes (m : Meaning Datum H W) (holds : World → W → Prop) : Prop where
  int : m.int = Datum.int
  bool : m.bool = Datum.bool
  float : m.float = Datum.float
  arith : ∀ op u v, m.arith op u v (u.arith op v)
  negate : ∀ v, m.negate v v.negate
  test : ∀ c u v, m.test c u v (u.compare c v)
  load : ∀ w a g, holds w a → ¬ m.load g a .stuck →
    ∃ v : Datum, w.globals[g.index]? = some v.slot ∧ m.load g a (.value v a)
  store : ∀ w a g v, holds w a → ¬ m.store g v a .stuck → ∃ a', m.store g v a (.value () a') ∧
    holds { w with globals := w.globals.setIfInBounds g.index v.slot } a'
  print : ∀ w a truth v, holds w a → ¬ m.print truth v a .stuck →
    match v.slot.line truth with
    | .ok s => ∃ a', m.print truth v a (.value () a') ∧
        holds { w with printed := w.printed.push s } a'
    | .error e => m.print truth v a (.fault e a)
  overflow : ∀ n args a, m.call n args a (.fault .stackOverflow a)
  /-- A call may be made in place of a task. -/
  spawn : ∀ n args a r, m.call n args a r →
    match r with
    | .value v a' => ∃ h, m.spawn n args a (.value h a') ∧ ∀ b, m.join h b (.value v b)
    | .fault e a' => m.spawn n args a (.fault e a')
    | .stuck => m.spawn n args a .stuck
  pool : ∀ w a pool, holds w a → holds { w with pool } a

/-! ### Effects -/

/-- Something that a task does to globals or prints. -/
inductive Effect where
  | assign (target : Global) (value : Slot)
  | print (line : String)
  deriving DecidableEq

/-- What an instruction is about to do to globals or to print. -/
def Task.effects (t : Task) : Inst → List Effect
  | .store src target => ((t.read? src).map (.assign target)).toList
  | .print src => ((t.read? src).bind fun v => (v.line false).toOption.map .print).toList
  | .printBool src => ((t.read? src).bind fun v => (v.line true).toOption.map .print).toList
  | _ => []

/-- A task runs to its end without any other one, and has some effects on the way. -/
inductive Completes : Task → World → List Effect → Outcome → World → Prop where
  | ended {t t' : Task} {w w' : World} {outcome : Outcome} (h : step t w = .ended t' outcome w') :
      Completes t w [] outcome w'
  | next {t t' : Task} {w w' last : World} {i : Inst} {rest : List Effect} {outcome : Outcome}
      (hi : t.inst? = some i) (h : step t w = .next t' w')
      (hrest : Completes t' w' rest outcome last) :
      Completes t w (t.effects i ++ rest) outcome last

/-- One world of a meaning is some effects after another one. -/
inductive Undergoes (m : Meaning Datum H W) : List Effect → W → W → Prop where
  | nil {a : W} : Undergoes m [] a a
  | assign {g : Global} {v : Datum} {a b c : W} {es : List Effect} (hs : ¬ m.store g v a .stuck)
      (h : m.store g v a (.value () b)) (hrest : Undergoes m es b c) :
      Undergoes m (.assign g v.slot :: es) a c
  | print {truth : Bool} {v : Datum} {line : String} {a b c : W} {es : List Effect}
      (hline : v.slot.line truth = .ok line) (h : m.print truth v a (.value () b))
      (hrest : Undergoes m es b c) : Undergoes m (.print line :: es) a c

theorem Undergoes.of_eq_nil {m : Meaning Datum H W} {es : List Effect} {a : W} (h : es = []) :
    Undergoes m es a a := h ▸ .nil

theorem Undergoes.trans {m : Meaning Datum H W} {es es' : List Effect} {a b c : W}
    (h : Undergoes m es a b) (h' : Undergoes m es' b c) : Undergoes m (es ++ es') a c := by
  induction h with
  | nil => exact h'
  | assign hs h _ ih => exact .assign hs h (ih h')
  | print hline h _ ih => exact .print hline h (ih h')

/-! ### Inner instructions -/

/-- An instruction neither enters nor leaves a function, and waits for nothing. -/
def isInner : Inst → Bool
  | .call .. | .spawn .. | .join .. | .ret .. | .retConst .. => false
  | _ => true

/-- What an instruction inside its frame writes lies within the frame that it asks for. -/
theorem exists_maxReg {i : Inst} (hi : isInner i = true) {d : Nat} (hd : d ∈ i.defs) :
    ∃ k, i.maxReg? = some k ∧ d ≤ k := by
  have hmem := List.mem_append_left (i.uses fun _ => 0) hd
  obtain ⟨k, hk⟩ := Option.isSome_iff_exists.mp (List.isSome_max?_of_mem hmem)
  refine ⟨k, ?_, (List.max?_eq_some_iff.mp hk).2 d hmem⟩
  rw [← hk]
  cases i <;> first | rfl | exact absurd hi Bool.false_ne_true

/-! ### Inside a frame -/

section

variable {t : Task} {w : World}

/-- Writing a register that lies on the stack. -/
theorem Step.write_of_lt {r : Reg} {v : Slot} {k : Task → World → Step}
    (h : t.base + r < t.stack.size) :
    Step.write r v t w k = k { t with stack := t.stack.setIfInBounds (t.base + r) v } w := by
  unfold Step.write
  rw [dif_pos h, Array.setIfInBounds_def, dif_pos h]

/-- The machine combines a register with a value as the operands have it. -/
theorem Step.arith_operands {V : Type} (k : Operands V) (op : ArithOp) (d : Reg) (u v : V)
    (t : Task) (w : World) (hu : ∀ go, Step.withReg d t w go = go (k.slot u) t w) :
    Step.arith op d (k.slot v).int64 t w =
      match k.arith op u v with
      | .ok x => Step.put d (k.slot x) t w
      | .error e => .ended t (.error e) w := by
  unfold Step.arith Operands.arith
  rw [hu]
  cases (k.slot u).int64 with
  | error e => rfl
  | ok x =>
    cases (k.slot v).int64 with
    | error e => rfl
    | ok y =>
      simp only [bind, Except.bind]
      cases op.result? x y with
      | none => rfl
      | some n => exact congrArg (Step.put d · t w) (k.slot_int n).symm

/-- So does it compare a register with a value. -/
theorem Step.branch_operands {V : Type} (k : Operands V) (c : Comparison) (offset : Int) (r : Reg)
    (u v : V) (t : Task) (w : World) (hu : ∀ go, Step.withReg r t w go = go (k.slot u) t w) :
    Step.branch c offset r (k.slot v).integral t w =
      match k.compare c u v with
      | .ok b => if b then Step.jump offset t w else Step.advance t w
      | .error e => .ended t (.error e) w := by
  unfold Step.branch Operands.compare
  rw [hu]
  cases (k.slot u).integral with
  | error e => rfl
  | ok x =>
    cases (k.slot v).integral with
    | error e => rfl
    | ok y => rfl

theorem Step.arith_eq (op : ArithOp) (d : Reg) (u v : Datum) (t : Task) (w : World)
    (hu : ∀ k, Step.withReg d t w k = k u.slot t w) :
    Step.arith op d v.slot.int64 t w =
      match u.arith op v with
      | .ok x => Step.put d x.slot t w
      | .error e => .ended t (.error e) w := by
  refine (Step.arith_operands Datum.operands op d u v t w hu).trans ?_
  rw [show Datum.operands.arith op u v = u.arith op v from rfl]
  cases u.arith op v <;> rfl

theorem Step.branch_eq (c : Comparison) (offset : Int) (r : Reg) (u v : Datum) (t : Task)
    (w : World) (hu : ∀ k, Step.withReg r t w k = k u.slot t w) :
    Step.branch c offset r v.slot.integral t w =
      match u.compare c v with
      | .ok b => if b then Step.jump offset t w else Step.advance t w
      | .error e => .ended t (.error e) w :=
  Step.branch_operands Datum.operands c offset r u v t w hu

end

/-- A step goes on in the frame, where it leaves the slots below `n` as they were and has some
effects on the world `a`, or it ends with a fault and none. -/
inductive Inside (m : Meaning Datum H W) (holds : World → W → Prop) (leases : Leases H) (n : Nat)
    (t : Task) (w : World) (a : W) (es : List Effect) (go : Nat → Frame Datum H → W → Prop)
    (fault : Fault → W → Prop) : Step → Prop where
  | next {stack : Array Slot} {pc : Nat} {f : Frame Datum H} {w' : World} {b : W} (hpc : t.pc < pc)
      (ha : Agree t.id n leases leases t.stack stack) (hf : Fits m t.id leases stack t.base f)
      (hp : w'.pool = w.pool) (hw : holds w' b) (he : Undergoes m es a b) (h : go pc f b) :
      Inside m holds leases n t w a es go fault (.next { t with stack, pc } w')
  | fault {e : Fault} (hw : holds w a) (h : fault e a) :
      Inside m holds leases n t w a es go fault (.ended t (.error e) w)

/-- The endings of what may follow are among some endings. -/
def Leads (goes : Ending Datum W → Nat → Frame Datum H → W → Prop) (ends : Ending Datum W → Prop)
    (pc : Nat) (f : Frame Datum H) (a : W) : Prop :=
  ∀ o, goes o pc f a → ends o

section

variable {m : Meaning Datum H W} {holds : World → W → Prop} {leases : Leases H} {n : Nat} {t : Task}
  {w w' : World} {a a' : W} {es : List Effect} {f : Frame Datum H}
  {goes : Ending Datum W → Nat → Frame Datum H → W → Prop} {ends : Ending Datum W → Prop}

/-- What is asked of a step inside a frame, where the endings may go on as `goes` says. -/
abbrev Stays (m : Meaning Datum H W) (holds : World → W → Prop) (leases : Leases H) (n : Nat)
    (t : Task) (w : World) (a : W) (es : List Effect)
    (goes : Ending Datum W → Nat → Frame Datum H → W → Prop) (ends : Ending Datum W → Prop) :
    Step → Prop :=
  Inside m holds leases n t w a es (Leads goes ends) fun e b => ends (.fault e b)

/-- If getting stuck is not among the endings, a register that a step reads has a value, and
likewise for all that there is at most one of. -/
theorem some_of_ends {α : Type} {x : Option α} {means : Ending Datum W → α → Prop}
    (hs : ¬ ends .stuck) (h : ∀ o, (∀ y, x = some y → means o y) → ends o) :
    ∃ y, x = some y ∧ ∀ o, means o y → ends o := by
  have hstuck := mt (h .stuck) hs
  simp only [Classical.not_forall] at hstuck
  obtain ⟨y, hy, -⟩ := hstuck
  refine ⟨y, hy, fun o ho => h o fun y' hy' => ?_⟩
  obtain rfl := Option.some.inj (hy.symm.trans hy')
  exact ho

/-- For the same reason a condition of a step holds. -/
theorem imp_of_ends {p : Prop} {means : Ending Datum W → Prop} (hs : ¬ ends .stuck)
    (h : ∀ o, (p → means o) → ends o) : p ∧ ∀ o, means o → ends o :=
  ⟨(Classical.not_imp.mp (mt (h .stuck) hs)).1, fun o ho => h o fun _ => ho⟩

/-- And so the arguments are there that a step passes above a linkage of `k` registers. -/
theorem arguments_of_ends {n : FuncId} {k shift : Nat} {means : Ending Datum W → List Datum → Prop}
    (hs : ¬ ends .stuck)
    (h : ∀ o, (∀ args, m.arity n = some args.length → k ≤ shift → f.Holds shift args →
      f.Clear (shift - k) → means o args) → ends o) :
    ∃ args, m.arity n = some args.length ∧ k ≤ shift ∧ f.Holds shift args ∧ f.Clear (shift - k) ∧
      ∀ o, means o args → ends o := by
  have hstuck := mt (h .stuck) hs
  simp only [Classical.not_forall] at hstuck
  obtain ⟨args, hn, hk, hargs, hc, -⟩ := hstuck
  refine ⟨args, hn, hk, hargs, hc, fun o ho => h o fun args' hn' _ hargs' _ => ?_⟩
  obtain rfl := hargs.unique (Option.some.inj (hn.symm.trans hn')) hargs'
  exact ho

/-- What a step leaves to others does not get stuck, ends with its faults, and goes on
from its values. -/
theorem followed_of_ends {α : Type} {pc : Nat} {x : Ending α W → Prop} {next : α → Frame Datum H}
    (hs : ¬ ends .stuck)
    (h : ∀ o, (∃ r, x r ∧ r.into o fun v b => pc < pc + 1 → goes o (pc + 1) (next v) b) → ends o) :
    ¬ x .stuck ∧ (∀ e b, x (.fault e b) → ends (.fault e b)) ∧
      ∀ v b, x (.value v b) → Leads goes ends (pc + 1) (next v) b :=
  ⟨fun hx => hs (h .stuck ⟨.stuck, hx, trivial⟩), fun e b hx => h _ ⟨.fault e b, hx, rfl⟩,
    fun v b hx o ho => h o ⟨.value v b, hx, fun _ => ho⟩⟩

theorem withReg_of_fits (hf : Fits m t.id leases t.stack t.base f) {r : Reg} {v : Datum}
    (hv : f.val r = some v) (k : Slot → Task → World → Step) :
    Step.withReg r t w k = k v.slot t w := by
  unfold Step.withReg Task.read?
  rw [hf.val r v hv]

/-- A step that reads a register goes on with the value that the frame has there. -/
theorem withReg_inside (hf : Fits m t.id leases t.stack t.base f) (hs : ¬ ends .stuck) {r : Reg}
    {k : Slot → Task → World → Step} {means : Ending Datum W → Datum → Prop}
    (h : ∀ o, (∀ v, f.val r = some v → means o v) → ends o)
    (hk : ∀ v, t.read? r = some v.slot → (∀ o, means o v → ends o) →
      Stays m holds leases n t w a es goes ends (k v.slot t w)) :
    Stays m holds leases n t w a es goes ends (Step.withReg r t w k) := by
  obtain ⟨v, hv, h⟩ := some_of_ends hs h
  rw [withReg_of_fits hf hv]
  exact hk v (hf.val r v hv) h

theorem advance_inside (hf : Fits m t.id leases t.stack t.base f) (hw : holds w' a')
    (hp : w'.pool = w.pool) (he : Undergoes m es a a')
    (h : ∀ o, (t.pc < t.pc + 1 → goes o (t.pc + 1) f a') → ends o) :
    Stays m holds leases n t w a es goes ends (Step.advance t w') :=
  .next (Nat.lt_succ_self _) (.refl _ _ _) hf hp hw he fun o ho => h o fun _ => ho

theorem put_inside (hf : Fits m t.id leases t.stack t.base f) (hw : holds w a) {d : Reg} {v : Datum}
    (hfree : f.Free d) (hroom : t.base + d < t.stack.size) (hn : n ≤ t.base + d)
    (h : ∀ o, (t.pc < t.pc + 1 → goes o (t.pc + 1) (f.set d v) a) → ends o) :
    Stays m holds leases n t w a [] goes ends (Step.put d v.slot t w) := by
  unfold Step.put
  rw [Step.write_of_lt hroom]
  exact .next (Nat.lt_succ_self _) ((Agree.set _ _ _ _ _).mono hn) (hf.set hfree hroom v) rfl hw
    .nil fun o ho => h o fun _ => ho

theorem jump_inside (hf : Fits m t.id leases t.stack t.base f) (hw : holds w a) {offset : Int}
    (hs : ¬ ends .stuck)
    (h : ∀ o, Meaning.jump t.pc offset (fun pc => t.pc < pc → goes o pc f a) → ends o) :
    Stays m holds leases n t w a [] goes ends (Step.jump offset t w) := by
  obtain ⟨pc, hpc, h⟩ := some_of_ends hs h
  obtain ⟨hlt, h⟩ := imp_of_ends hs h
  unfold Step.jump
  rw [hpc]
  exact .next hlt (.refl _ _ _) hf rfl hw .nil h

theorem operate_inside (hm : Describes m holds) (hf : Fits m t.id leases t.stack t.base f)
    (hw : holds w a) {op : ArithOp} {d : Reg} {v : Datum} (hroom : t.base + d < t.stack.size)
    (hn : n ≤ t.base + d) (hs : ¬ ends .stuck)
    (h : ∀ o, m.operate op d v f a o (fun f => t.pc < t.pc + 1 → goes o (t.pc + 1) f a) → ends o) :
    Stays m holds leases n t w a [] goes ends (Step.arith op d v.slot.int64 t w) := by
  obtain ⟨u, hu, h⟩ := some_of_ends hs h
  obtain ⟨hfree, h⟩ := imp_of_ends hs h
  rw [Step.arith_eq op d u v t w fun k => withReg_of_fits hf hu k]
  have hends : ∀ o, (orFault (u.arith op v) a o fun x =>
      t.pc < t.pc + 1 → goes o (t.pc + 1) (f.set d x) a) → ends o :=
    fun o ho => h o ⟨u.arith op v, hm.arith op u v, ho⟩
  cases hx : u.arith op v with
  | error e =>
    rw [hx] at hends
    exact .fault hw (hends (.fault e a) rfl)
  | ok x =>
    rw [hx] at hends
    exact put_inside hf hw hfree hroom hn hends

theorem branch_inside (hm : Describes m holds) (hf : Fits m t.id leases t.stack t.base f)
    (hw : holds w a) {c : Comparison} {offset : Int} {r : Reg} {v : Datum} (hs : ¬ ends .stuck)
    (h : ∀ o, m.branch c offset r v t.pc f a o (fun pc => t.pc < pc → goes o pc f a) → ends o) :
    Stays m holds leases n t w a [] goes ends (Step.branch c offset r v.slot.integral t w) := by
  obtain ⟨u, hu, h⟩ := some_of_ends hs h
  rw [Step.branch_eq c offset r u v t w fun k => withReg_of_fits hf hu k]
  have hends : ∀ o, (orFault (u.compare c v) a o fun b =>
      (b = true → Meaning.jump t.pc offset fun pc => t.pc < pc → goes o pc f a) ∧
      (b = false → t.pc < t.pc + 1 → goes o (t.pc + 1) f a)) → ends o :=
    fun o ho => h o ⟨u.compare c v, hm.test c u v, ho⟩
  cases hx : u.compare c v with
  | error e =>
    rw [hx] at hends
    exact .fault hw (hends (.fault e a) rfl)
  | ok b =>
    rw [hx] at hends
    cases b with
    | true =>
      exact jump_inside hf hw hs fun o ho => hends o ⟨fun _ => ho, fun hb => absurd hb (by simp)⟩
    | false =>
      exact advance_inside hf hw rfl .nil fun o ho =>
        hends o ⟨fun hb => absurd hb (by simp), fun _ => ho⟩

theorem printLine_inside (hm : Describes m holds) (hf : Fits m t.id leases t.stack t.base f)
    (hw : holds w a) {truth : Bool} {v : Datum} (hs : ¬ ends .stuck)
    (h : ∀ o, (∃ r, m.print truth v a r ∧
      r.into o fun _ b => t.pc < t.pc + 1 → goes o (t.pc + 1) f b) → ends o) :
    Stays m holds leases n t w a ((v.slot.line truth).toOption.map Effect.print).toList goes ends
      (Step.printLine (v.slot.line truth) t w) := by
  have hprint := hm.print w a truth v hw fun hr => hs (h .stuck ⟨.stuck, hr, trivial⟩)
  unfold Step.printLine
  cases hx : v.slot.line truth with
  | error e =>
    rw [hx] at hprint
    exact .fault hw (h _ ⟨.fault e a, hprint, rfl⟩)
  | ok s =>
    rw [hx] at hprint
    obtain ⟨b, hb, hw'⟩ := hprint
    exact advance_inside hf hw' rfl (.print hx hb .nil) fun o ho => h o ⟨.value () b, hb, ho⟩

/-- An instruction that neither enters nor leaves a function and waits for nothing stays
in its frame. -/
theorem exec_inside (hm : Describes m holds) (hf : Fits m t.id leases t.stack t.base f)
    (hw : holds w a) {i : Inst} (hi : isInner i = true)
    (hroom : ∀ d ∈ i.defs, t.base + d < t.stack.size) (hn : ∀ d ∈ i.defs, n ≤ t.base + d)
    (hs : ¬ ends .stuck)
    (h : ∀ o, m.exec Meaning.done o t.pc i f a (fun pc f b => t.pc < pc → goes o pc f b) → ends o) :
    Stays m holds leases n t w a (t.effects i) goes ends (Step.exec i t w) := by
  cases i with
  | intConst d x =>
    simp only [Meaning.exec, hm.int] at h
    obtain ⟨hfree, h⟩ := imp_of_ends hs h
    exact put_inside (v := .int x) hf hw hfree (hroom d (.head _)) (hn d (.head _)) h
  | boolConst d x =>
    simp only [Meaning.exec, hm.bool] at h
    obtain ⟨hfree, h⟩ := imp_of_ends hs h
    exact put_inside (v := .bool x) hf hw hfree (hroom d (.head _)) (hn d (.head _)) h
  | floatConst d x =>
    simp only [Meaning.exec, hm.float] at h
    obtain ⟨hfree, h⟩ := imp_of_ends hs h
    exact put_inside (v := .float x) hf hw hfree (hroom d (.head _)) (hn d (.head _)) h
  | move d s =>
    refine withReg_inside hf hs h fun v _ h => ?_
    obtain ⟨hfree, h⟩ := imp_of_ends hs h
    exact put_inside hf hw hfree (hroom d (.head _)) (hn d (.head _)) h
  | arith op d s =>
    refine withReg_inside hf hs h fun v _ h => ?_
    exact operate_inside hm hf hw (hroom d (.head _)) (hn d (.head _)) hs h
  | arithConst op d x =>
    simp only [Meaning.exec, hm.int] at h
    exact operate_inside (v := .int x) hm hf hw (hroom d (.head _)) (hn d (.head _)) hs h
  | negate d =>
    rw [Step.exec]
    refine withReg_inside hf hs h fun v _ h => ?_
    obtain ⟨hfree, h⟩ := imp_of_ends hs h
    have hends : ∀ o, (orFault v.negate a o fun x =>
        t.pc < t.pc + 1 → goes o (t.pc + 1) (f.set d x) a) → ends o :=
      fun o ho => h o ⟨v.negate, hm.negate v, ho⟩
    unfold Datum.negate at hends
    -- the meaning of a negation is the one that the step itself computes
    cases hx : v.slot.int64 with
    | error e =>
      rw [hx] at hends
      exact .fault hw (hends (.fault e a) rfl)
    | ok k =>
      rw [hx] at hends
      exact put_inside (v := .int (-k)) hf hw hfree (hroom d (.head _)) (hn d (.head _)) hends
  | branch c offset r s =>
    refine withReg_inside hf hs h fun v _ h => ?_
    exact branch_inside hm hf hw hs h
  | branchConst c offset r x =>
    simp only [Meaning.exec, hm.int] at h
    exact branch_inside (v := .int x) hm hf hw hs h
  | jump offset => exact jump_inside hf hw hs h
  | load d g =>
    obtain ⟨hfree, h⟩ := imp_of_ends hs h
    -- a global that the world lacks would be stuck, which is no way to end
    obtain ⟨v, hv, hload⟩ := hm.load w a g hw fun hr => hs (h .stuck ⟨.stuck, hr, trivial⟩)
    simp only [Step.exec, hv]
    exact put_inside hf hw hfree (hroom d (.head _)) (hn d (.head _))
      fun o ho => h o ⟨.value v a, hload, ho⟩
  | store s g =>
    rw [Step.exec]
    refine withReg_inside hf hs h fun v hread h => ?_
    have hstuck : ¬ m.store g v a .stuck := fun hr => hs (h .stuck ⟨.stuck, hr, trivial⟩)
    obtain ⟨b, hstore, hw'⟩ := hm.store w a g v hw hstuck
    rw [show t.effects (.store s g) = [.assign g v.slot] by rw [Task.effects, hread]; rfl]
    exact advance_inside hf hw' rfl (.assign hstuck hstore .nil) fun o ho =>
      h o ⟨.value () b, hstore, ho⟩
  -- these leave the frame, and none of them is inner
  | call _ _ | spawn _ _ | join _ | ret _ | retConst _ => exact absurd hi Bool.false_ne_true
  | print s =>
    refine withReg_inside hf hs h fun v hread h => ?_
    rw [Task.effects, hread]
    exact printLine_inside hm hf hw hs h
  | printBool s =>
    refine withReg_inside hf hs h fun v hread h => ?_
    rw [Task.effects, hread]
    exact printLine_inside hm hf hw hs h
  | stop => exact absurd (h .stuck trivial) hs

/-! ### Calls, tasks and returns -/

/-- Arguments that a frame holds stand side by side on the stack. -/
theorem Fits.arguments {owner : Option TaskId} {stack : Array Slot} {base shift : Nat}
    {args : List Datum} (hf : Fits m owner leases stack base f) (h : f.Holds shift args) (j : Nat)
    (v : Datum) (hj : args[j]? = some v) : stack[base + shift + j]? = some v.slot := by
  rw [Nat.add_assoc]
  refine hf.val (shift + j) v ?_
  rw [h j (List.getElem?_eq_some_iff.mp hj).1, hj]

/-- What a call is made with, and what follows it. -/
theorem exec_call {n : FuncId} {shift pc : Nat} (hs : ¬ ends .stuck)
    (h : ∀ o, m.exec Meaning.done o pc (.call n shift) f a
      (fun pc' f b => pc < pc' → goes o pc' f b) → ends o) :
    ∃ args, m.arity n = some args.length ∧ (2 : Nat) ≤ shift ∧ f.Holds shift args ∧
      f.Clear (shift - 2) ∧ ¬ m.call n args a .stuck ∧
      (∀ e b, m.call n args a (.fault e b) → ends (.fault e b)) ∧
      ∀ v b, m.call n args a (.value v b) → Leads goes ends (pc + 1) (f.afterCall shift v) b := by
  obtain ⟨args, hn, htwo, hargs, hc, h⟩ := arguments_of_ends hs h
  exact ⟨args, hn, htwo, hargs, hc, followed_of_ends hs h⟩

/-- What a task is started with, and what follows. -/
theorem exec_spawn {n : FuncId} {shift pc : Nat} (hs : ¬ ends .stuck)
    (h : ∀ o, m.exec Meaning.done o pc (.spawn n shift) f a
      (fun pc' f b => pc < pc' → goes o pc' f b) → ends o) :
    ∃ args, m.arity n = some args.length ∧ (3 : Nat) ≤ shift ∧ f.Holds shift args ∧
      f.Clear (shift - 3) ∧ ¬ m.spawn n args a .stuck ∧
      (∀ e b, m.spawn n args a (.fault e b) → ends (.fault e b)) ∧
      ∀ p b, m.spawn n args a (.value p b) → Leads goes ends (pc + 1) (f.afterSpawn shift p) b := by
  obtain ⟨args, hn, hthree, hargs, hc, h⟩ := arguments_of_ends hs h
  exact ⟨args, hn, hthree, hargs, hc, followed_of_ends hs h⟩

/-- What a task is waited for with, and what follows. -/
theorem exec_join {r pc : Nat} (hs : ¬ ends .stuck)
    (h : ∀ o, m.exec Meaning.done o pc (.join r) f a
      (fun pc' f b => pc < pc' → goes o pc' f b) → ends o) :
    ∃ p, f.pend r = some p ∧ f.Unshadowed r ∧
      (∀ e b, m.join p a (.fault e b) → ends (.fault e b)) ∧
      ∀ v b, m.join p a (.value v b) → Leads goes ends (pc + 1) (f.afterJoin r v) b := by
  obtain ⟨p, hp, h⟩ := some_of_ends hs h
  obtain ⟨hu, h⟩ := imp_of_ends hs h
  exact ⟨p, hp, hu, (followed_of_ends hs h).2⟩

/-- An instruction returns a value. -/
inductive Task.Answers (t : Task) : Inst → Slot → Prop where
  | ret {r : Reg} {v : Slot} (h : t.read? r = some v) : Answers t (.ret r) v
  | retConst (x : Int64) : Answers t (.retConst x) (.int x)

theorem Task.Answers.exec {i : Inst} {v : Slot} (h : t.Answers i v) (w : World) :
    Step.exec i t w = Step.leave v t w := by
  cases h with
  | ret h =>
    rw [Step.exec, Step.withReg, h]
  | retConst x => rfl

theorem Task.Answers.isReturn {i : Inst} {v : Slot} (h : t.Answers i v) : i.isReturn = true := by
  cases h <;> rfl

/-- A return has a value with which the code may end. -/
theorem exec_return (hm : Describes m holds) (hf : Fits m t.id leases t.stack t.base f) {i : Inst}
    (hi : i.isReturn = true) {pc : Nat} {go : Ending Datum W → Nat → Frame Datum H → W → Prop}
    (hs : ¬ ends .stuck) (h : ∀ o, m.exec Meaning.done o pc i f a (go o) → ends o) :
    ∃ v : Datum, t.Answers i v.slot ∧ ends (.value v a) := by
  -- no handle is left behind, since the code cannot get stuck
  have hdone : ∀ v, (∀ o, Meaning.done v f a o → ends o) → ends (.value v a) :=
    fun v hv => (imp_of_ends hs hv).2 _ rfl
  cases i with
  | ret s =>
    obtain ⟨v, hv, h⟩ := some_of_ends hs h
    exact ⟨v, .ret (hf.val s v hv), hdone v h⟩
  | retConst x =>
    simp only [Meaning.exec, hm.int] at h
    exact ⟨.int x, .retConst x, hdone _ h⟩
  | _ => exact absurd hi (by simp [Inst.isReturn])

end

/-! ### Linkage -/

section

variable {t : Task}

/-- A function is entered above the linkage, if there is room for its frame. -/
theorem Step.enter_eq {n : FuncId} {callee : Lowered} (hf : t.program.func? n = some callee)
    {shift : Nat} (hs : 2 ≤ shift) (htop : t.base + shift ≤ t.stack.size) (w : World) :
    Step.enter n shift t w = .ended t (.error .stackOverflow) w ∨
      ∃ stack, Step.enter n shift t w =
          .next { t with stack, pc := 0, base := t.base + shift, code := .func n } w ∧
        t.base + shift + callee.frameSize ≤ stack.size ∧ stack.size = t.stack.size ∧
        stack[t.base + shift - 2]? = some (.frame t.base) ∧
        stack[t.base + shift - 1]? = some (.returnTo t.code (t.pc + 1)) ∧
        ∀ i, i ≠ t.base + shift - 2 → i ≠ t.base + shift - 1 → stack[i]? = t.stack[i]? := by
  unfold Step.enter
  simp only [hf]
  split
  · exact .inl rfl
  · rename_i hroom
    rw [if_neg (by omega)]
    refine .inr ⟨_, rfl, ?_, ?_, ?_, ?_, fun i h₁ h₂ => ?_⟩
    · rw [Array.size_setIfInBounds, Array.size_setIfInBounds]
      exact Nat.le_of_not_lt hroom
    · rw [Array.size_setIfInBounds, Array.size_setIfInBounds]
    · rw [Array.getElem?_setIfInBounds_ne (by omega),
        Array.getElem?_setIfInBounds_self_of_lt (by omega)]
    · rw [Array.getElem?_setIfInBounds_self_of_lt (by rw [Array.size_setIfInBounds]; omega)]
    · rw [Array.getElem?_setIfInBounds_ne (Ne.symm h₂),
        Array.getElem?_setIfInBounds_ne (Ne.symm h₁)]

/-- A function returns to where its linkage says. -/
theorem Step.leave_eq {base pc : Nat} {ref : CodeRef} (hb : 2 ≤ t.base)
    (hframe : t.stack[t.base - 2]? = some (.frame base))
    (hreturn : t.stack[t.base - 1]? = some (.returnTo ref pc)) (v : Slot) (w : World) :
    Step.leave v t w =
      .next { t with stack := t.stack.setIfInBounds (t.base - 2) v, pc, base, code := ref } w := by
  unfold Step.leave
  rw [if_neg (by omega), if_neg (by omega), hframe, hreturn]

end

end ForkLisp.Machine
