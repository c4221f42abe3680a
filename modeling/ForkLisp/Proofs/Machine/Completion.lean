/-
Tasks that run by themselves.

In the `literal` meaning values are slots, and worlds remember the effects. A run ends there as the
task completes, and, but for types that do not fit, in no other way (`Completes.runs`). Well-formed
code that is plain always completes, whatever its registers hold (`Underway.completes`).
-/
import ForkLisp.Proofs.Behaviour.Outline
import ForkLisp.Proofs.Code.Plain
import ForkLisp.Proofs.Code.WellFormed
import ForkLisp.Proofs.Machine.Conduct

namespace ForkLisp.Machine

open ForkLisp.Code ForkLisp.Behaviour ForkLisp.Optimize ForkLisp.Reference

/-- The task that runs some code from its front, on a stack that may hold anything. -/
def Task.running (functions : FunctionTable) (stack : Array Slot) (code : ForkLisp.Code) : Task :=
  { Task.root 0 ⟨functions, lower code 0⟩ with stack }

/-! ### The literal meaning -/

/-- Slots as operands. -/
def slots : Operands Slot where
  int := .int
  bool := .bool
  slot := id
  slot_int _ := rfl
  slot_bool _ := rfl
  eq_int h := h

/-- What the machine does to slots, where worlds remember the effects so far. -/
def literal (free : Fault → Prop) (arity : FuncId → Option Nat) :
    Meaning Slot Empty (World × List Effect) where
  int := .int
  bool := .bool
  float := .float
  arith op u v := Allows free (slots.arith op u v)
  negate v := Allows free (slots.negate v)
  test c u v := Allows free (slots.compare c u v)
  load g w r := r = .value (w.1.globals[g.index]?.getD .empty) w
  store g v w r := r =
    .value () ({ w.1 with globals := w.1.globals.setIfInBounds g.index v }, w.2 ++ [.assign g v])
  print truth v w r := r =
    match v.line truth with
    | .ok line => .value () ({ w.1 with printed := w.1.printed.push line }, w.2 ++ [.print line])
    | .error e => .fault e w
  arity := arity
  call _ _ _ _ := True
  spawn _ _ _ _ := True
  join h := h.elim

theorem literal_calculates {free : Fault → Prop} {arity : FuncId → Option Nat} :
    Calculates slots (fun e => free e.fault) (literal free arity) :=
  ⟨rfl, rfl, rfl, rfl, rfl⟩

theorem literal_algebraic {free : Fault → Prop} {arity : FuncId → Option Nat}
    (hfree : ∀ got, free (.typeMismatch got)) : (literal free arity).Algebraic :=
  literal_calculates.algebraic hfree fun _ _ => ⟨_, rfl⟩

/-- All that the registers of a task hold. -/
def Task.frame (t : Task) : Frame Slot Empty := ⟨t.read?, fun _ => none⟩

section

variable {free : Fault → Prop} {arity : FuncId → Option Nat} {t : Task} {w w' : World}
  {past : List Effect} {i : Inst} {r : Nat} {v : Slot} {code : ForkLisp.Code}

theorem Task.frame_free (t : Task) (r : Reg) : t.frame.Free r := ⟨rfl, fun _ _ => rfl⟩

theorem Task.frame_write (hr : t.base + r < t.stack.size) (v : Slot) (pc : Nat) :
    { t with stack := t.stack.setIfInBounds (t.base + r) v, pc }.frame = t.frame.set r v := by
  refine congrArg (Frame.mk · fun _ => none) (funext fun (s : Nat) => ?_)
  show (t.stack.setIfInBounds (t.base + r) v)[t.base + s]? =
    if s = r then some v else t.stack[t.base + s]?
  by_cases hs : s = r
  · rw [if_pos hs, hs, Array.getElem?_setIfInBounds_self_of_lt hr]
  · rw [if_neg hs, Array.getElem?_setIfInBounds_ne (by omega)]

theorem Step.withReg_eq (hv : t.read? r = some v) (k : Slot → Task → World → Step) :
    Step.withReg r t w k = k v t w := by
  unfold Step.withReg
  rw [hv]

/-! ### Steps -/

/-- A step is what an instruction means that may end in `o` or go on with `go`, as `means o go`
says. An end with a fault that is not free is the only one. -/
inductive Realizes (free : Fault → Prop) (t : Task) (w : World) (past : List Effect) (i : Inst)
    (means : Ending Slot (World × List Effect) →
      (Nat → Frame Slot Empty → World × List Effect → Prop) → Prop) : Step → Prop where
  | next {stack : Array Slot} {pc : Nat} {w' : World} (hstack : stack.size = t.stack.size)
      (hglobals : w'.globals.size = w.globals.size) (hgoes : Goes i t.pc pc)
      (h : ∀ o go, means o go ↔ go pc { t with stack, pc }.frame (w', past ++ t.effects i)) :
      Realizes free t w past i means (.next { t with stack, pc } w')
  | ended {outcome : Outcome} (may : ∀ go, means (.ofAnswer outcome (w, past)) go)
      (must : (∀ e, outcome = .error e → ¬ free e) → ∀ o go, means o go →
        o = .ofAnswer outcome (w, past)) :
      Realizes free t w past i means (.ended t outcome w)

theorem allows_ok_iff {α : Type} {x : α} {a : Except Fault α} :
    Allows free (.ok x) a ↔ a = .ok x := by
  refine ⟨fun h => ?_, .inl⟩
  rcases h with h | ⟨e, he, -⟩
  · exact h
  · cases he

/-- What follows the answer of an operator that has one. -/
theorem exists_allows_ok {α : Type} {x : α} {o : Ending Slot (World × List Effect)}
    {p : α → Prop} {wp : World × List Effect} :
    (∃ a, Allows free (.ok x) a ∧ orFault a wp o p) ↔ p x := by
  constructor
  · rintro ⟨a, ha, hp⟩
    obtain rfl := allows_ok_iff.mp ha
    exact hp
  · exact fun hp => ⟨_, .exact _, hp⟩

namespace Realizes

variable {means : Ending Slot (World × List Effect) →
  (Nat → Frame Slot Empty → World × List Effect → Prop) → Prop}

theorem put (hr : t.base + r < t.stack.size) (hi : fallsThrough i = true) (he : t.effects i = [])
    (h : ∀ o go, means o go ↔ go (t.pc + 1) (t.frame.set r v) (w, past)) :
    Realizes free t w past i means (Step.put r v t w) := by
  unfold Step.put
  rw [Step.write_of_lt hr]
  refine .next (Array.size_setIfInBounds ..) rfl (.through hi) fun o go => ?_
  rw [h, Task.frame_write hr, he, List.append_nil]

theorem advance (hi : fallsThrough i = true) (hsize : w'.globals.size = w.globals.size)
    (h : ∀ o go, means o go ↔ go (t.pc + 1) t.frame (w', past ++ t.effects i)) :
    Realizes free t w past i means (Step.advance t w') :=
  .next rfl hsize (.through hi) h

theorem jump {offset : Int} {target : Nat} (ho : i.offset? = some offset)
    (ht : jumpTarget t.pc offset = some target) (he : t.effects i = [])
    (h : ∀ o go, means o go ↔ Meaning.jump t.pc offset fun pc => go pc t.frame (w, past)) :
    Realizes free t w past i means (Step.jump offset t w) := by
  unfold Step.jump
  rw [ht]
  refine .next rfl rfl (.jump ho ht) fun o go => ?_
  rw [h, he, List.append_nil]
  constructor
  · intro hgo
    exact hgo target ht
  · intro hgo pc hpc
    obtain rfl := Option.some.inj (ht.symm.trans hpc)
    exact hgo

/-- An operator that fails ends the task. -/
theorem fault {α : Type} {e : Fault} {use : α → Ending Slot (World × List Effect) →
      (Nat → Frame Slot Empty → World × List Effect → Prop) → Prop}
    (h : ∀ o go, means o go ↔ ∃ a : Except Fault α, Allows free (.error e) a ∧
      orFault a (w, past) o fun x => use x o go) :
    Realizes free t w past i means (.ended t (.error e) w) := by
  refine .ended (fun go => (h _ go).mpr ⟨_, .exact _, rfl⟩) fun hfree o go hm => ?_
  obtain ⟨a, ha, ho⟩ := (h o go).mp hm
  rcases ha with rfl | ⟨e', he', hfree'⟩
  · exact ho
  · cases he'
    exact absurd hfree' (hfree e rfl)

theorem operate {op : ArithOp} {u : Slot} (hr : t.base + r < t.stack.size) (hu : t.read? r = some u)
    (hi : fallsThrough i = true) (he : t.effects i = [])
    (h : ∀ o go, means o go ↔ (literal free arity).operate op r v t.frame (w, past) o
      fun f => go (t.pc + 1) f (w, past)) :
    Realizes free t w past i means (Step.arith op r v.int64 t w) := by
  have hmeans : ∀ o go, means o go ↔ ∃ a, Allows free (slots.arith op u v) a ∧
      orFault a (w, past) o fun x => go (t.pc + 1) (t.frame.set r x) (w, past) := by
    intro o go
    rw [h]
    constructor
    · exact fun hm => hm u hu (t.frame_free r)
    · intro hm u' hu' _
      obtain rfl := Option.some.inj (hu.symm.trans hu')
      exact hm
  rw [show v.int64 = (slots.slot v).int64 from rfl,
    Step.arith_operands slots op r u v t w fun k => Step.withReg_eq hu k]
  cases hx : slots.arith op u v with
  | error e =>
    rw [hx] at hmeans
    exact fault hmeans
  | ok x =>
    rw [hx] at hmeans
    exact put hr hi he fun o go => (hmeans o go).trans exists_allows_ok

theorem branch {c : Comparison} {offset : Int} {target : Nat} {u : Slot} (hu : t.read? r = some u)
    (ho : i.offset? = some offset) (ht : jumpTarget t.pc offset = some target)
    (hi : fallsThrough i = true) (he : t.effects i = [])
    (h : ∀ o go, means o go ↔ (literal free arity).branch c offset r v t.pc t.frame (w, past) o
      fun pc => go pc t.frame (w, past)) :
    Realizes free t w past i means (Step.branch c offset r v.integral t w) := by
  have hmeans : ∀ o go, means o go ↔ ∃ a, Allows free (slots.compare c u v) a ∧
      orFault a (w, past) o fun b =>
        (b = true → Meaning.jump t.pc offset fun pc => go pc t.frame (w, past)) ∧
          (b = false → go (t.pc + 1) t.frame (w, past)) := by
    intro o go
    rw [h]
    constructor
    · exact fun hm => hm u hu
    · intro hm u' hu'
      obtain rfl := Option.some.inj (hu.symm.trans hu')
      exact hm
  rw [show v.integral = (slots.slot v).integral from rfl,
    Step.branch_operands slots c offset r u v t w fun k => Step.withReg_eq hu k]
  cases hx : slots.compare c u v with
  | error e =>
    rw [hx] at hmeans
    exact fault hmeans
  | ok b =>
    rw [hx] at hmeans
    have hmeans := fun o go => (hmeans o go).trans exists_allows_ok
    cases b with
    | true => exact jump ho ht he fun o go => by simpa using hmeans o go
    | false =>
      refine advance hi rfl fun o go => ?_
      rw [he, List.append_nil]
      simpa using hmeans o go

/-- At the bottom of the stack a return ends the task. -/
theorem leave (hb : t.base = 0)
    (h : ∀ o go, means o go ↔ Meaning.done v t.frame (w, past) o) :
    Realizes free t w past i means (Step.leave v t w) := by
  unfold Step.leave
  rw [if_pos hb]
  refine .ended (fun go => (h _ go).mpr fun _ => rfl) fun _ o go hm => ?_
  exact (h o go).mp hm fun _ => rfl

theorem printLine (truth : Bool) (hi : fallsThrough i = true)
    (he : t.effects i = ((v.line truth).toOption.map Effect.print).toList)
    (h : ∀ o go, means o go ↔ ∃ e, (literal free arity).print truth v (w, past) e ∧
      e.into o fun _ w => go (t.pc + 1) t.frame w) :
    Realizes free t w past i means (Step.printLine (v.line truth) t w) := by
  unfold literal at h
  unfold Step.printLine
  cases hl : v.line truth with
  | error e =>
    simp only [hl, exists_eq_left] at h
    exact .ended (fun go => (h _ go).mpr rfl) fun _ o go hm => (h o go).mp hm
  | ok line =>
    rw [hl] at he
    simp only [hl, exists_eq_left] at h
    refine advance hi rfl fun o go => ?_
    rw [h, he]
    rfl

end Realizes

/-- A plain instruction does what it means literally. -/
theorem exec_realizes (hb : t.base = 0) (hi : i.Finds t.stack.size w.globals.size) (hs : i ≠ .stop)
    (ht : ∀ offset, i.offset? = some offset → ∃ target, jumpTarget t.pc offset = some target) :
    Realizes free t w past i
      (fun o go => (literal free arity).exec Meaning.done o t.pc i t.frame (w, past) go)
      (Step.exec i t w) := by
  have hlt : ∀ r ∈ i.registers, t.base + r < t.stack.size := by
    intro r hr
    rw [hb, Nat.zero_add]
    exact hi.register r hr
  have hwrite : ∀ d ∈ i.defs, t.base + d < t.stack.size := fun d hd =>
    hlt d (List.mem_append_left _ hd)
  have hread : ∀ s ∈ i.uses fun _ => 0, ∃ v, t.read? s = some v := fun s hs =>
    ⟨_, Array.getElem?_eq_getElem (hlt s (List.mem_append_right _ hs))⟩
  -- an operand that is read has one value, and nothing stands in the way of what is written
  have hsome : ∀ {r : Reg} {v : Slot} {p : Slot → Prop}, t.read? r = some v →
      ((∀ u, t.frame.val r = some u → p u) ↔ p v) := by
    intro r v p hv
    constructor
    · exact fun h => h v hv
    · intro h u hu
      obtain rfl := Option.some.inj (hv.symm.trans hu)
      exact h
  have hfree : ∀ {r : Reg} {p : Prop}, (t.frame.Free r → p) ↔ p :=
    ⟨fun h => h (t.frame_free _), fun h _ => h⟩
  cases i with
  | intConst d x => exact .put (hwrite d (List.mem_singleton_self d)) rfl rfl fun o go => hfree
  | boolConst d x => exact .put (hwrite d (List.mem_singleton_self d)) rfl rfl fun o go => hfree
  | floatConst d x => exact .put (hwrite d (List.mem_singleton_self d)) rfl rfl fun o go => hfree
  | move d s =>
    obtain ⟨v, hv⟩ := hread s (List.mem_singleton_self s)
    rw [Step.exec, Step.withReg_eq hv]
    exact .put (hwrite d (List.mem_singleton_self d)) rfl rfl fun o go => (hsome hv).trans hfree
  | arith op d s =>
    obtain ⟨v, hv⟩ := hread s (by simp [Inst.uses])
    obtain ⟨u, hu⟩ := hread d (by simp [Inst.uses])
    rw [Step.exec, Step.withReg_eq hv]
    exact .operate (hwrite d (List.mem_singleton_self d)) hu rfl rfl fun o go => hsome hv
  | arithConst op d x =>
    obtain ⟨u, hu⟩ := hread d (List.mem_singleton_self d)
    exact .operate (v := .int x) (hwrite d (List.mem_singleton_self d)) hu rfl rfl
      fun o go => Iff.rfl
  | negate d =>
    obtain ⟨v, hv⟩ := hread d (List.mem_singleton_self d)
    have hmeans : ∀ (o : Ending Slot (World × List Effect)) go,
        (literal free arity).exec Meaning.done o t.pc (.negate d) t.frame (w, past) go ↔
          ∃ a, Allows free (v.int64.map fun n => Slot.int (-n)) a ∧
            orFault a (w, past) o fun x => go (t.pc + 1) (t.frame.set d x) (w, past) :=
      fun o go => (hsome hv).trans hfree
    rw [Step.exec, Step.withReg_eq hv]
    cases hx : v.int64 with
    | error e =>
      rw [hx] at hmeans
      exact .fault hmeans
    | ok n =>
      rw [hx] at hmeans
      exact .put (hwrite d (List.mem_singleton_self d)) rfl rfl
        fun o go => (hmeans o go).trans exists_allows_ok
  | branch c offset l r =>
    obtain ⟨v, hv⟩ := hread r (by simp [Inst.uses])
    obtain ⟨u, hu⟩ := hread l (by simp [Inst.uses])
    obtain ⟨target, htarget⟩ := ht offset rfl
    rw [Step.exec, Step.withReg_eq hv]
    exact .branch hu rfl htarget rfl rfl fun o go => hsome hv
  | branchConst c offset l x =>
    obtain ⟨u, hu⟩ := hread l (List.mem_singleton_self l)
    obtain ⟨target, htarget⟩ := ht offset rfl
    exact .branch (v := .int x) hu rfl htarget rfl rfl fun o go => Iff.rfl
  | jump offset =>
    obtain ⟨target, htarget⟩ := ht offset rfl
    exact .jump rfl htarget rfl fun o go => Iff.rfl
  | load d g =>
    have hlt' : g.index < w.globals.size := hi.global g rfl
    have hg : w.globals[g.index]? = some w.globals[g.index] := Array.getElem?_eq_getElem hlt'
    rw [Step.exec, hg]
    refine .put (hwrite d (List.mem_singleton_self d)) rfl rfl fun o go => hfree.trans ?_
    simp only [literal, exists_eq_left, hg]
    exact Iff.rfl
  | store s g =>
    obtain ⟨v, hv⟩ := hread s (List.mem_singleton_self s)
    rw [Step.exec, Step.withReg_eq hv]
    refine .advance rfl (Array.size_setIfInBounds ..) fun o go => (hsome hv).trans ?_
    simp only [literal, exists_eq_left, Task.effects, hv]
    exact Iff.rfl
  | print s =>
    obtain ⟨v, hv⟩ := hread s (List.mem_singleton_self s)
    rw [Step.exec, Step.withReg_eq hv]
    exact .printLine false rfl (by simp [Task.effects, hv]) fun o go => hsome hv
  | printBool s =>
    obtain ⟨v, hv⟩ := hread s (List.mem_singleton_self s)
    rw [Step.exec, Step.withReg_eq hv]
    exact .printLine true rfl (by simp [Task.effects, hv]) fun o go => hsome hv
  | ret s =>
    obtain ⟨v, hv⟩ := hread s (List.mem_singleton_self s)
    rw [Step.exec, Step.withReg_eq hv]
    exact .leave hb fun o go => hsome hv
  | retConst x => exact .leave hb fun o go => Iff.rfl
  | call | spawn | join => cases hi.plain
  | stop => exact absurd rfl hs

/-! ### Runs -/

/-- A task stands in plain code at the bottom of its stack, before the end of the code. -/
structure Underway (code : ForkLisp.Code) (t : Task) (w : World) : Prop where
  wellFormed : WellFormed code
  insts : ∀ (pc : Nat) i, code[pc]? = some i → i.Finds t.stack.size w.globals.size
  lowered : ∃ l, t.lowered? = some l ∧ l.code = code
  bottom : t.base = 0
  before : t.pc + 1 < code.size

/-- The code of a frame finds its registers in the frame. -/
theorem finds_of_frameSize {code : ForkLisp.Code} {room globals : Nat} (hp : Plain code)
    (hr : frameSize code 0 ≤ room) (hg : GlobalsWithin globals code) {pc : Nat} {i : Inst}
    (hi : code[pc]? = some i) : i.Finds room globals := by
  have hmem : i ∈ code.toList := Array.mem_toList_iff.mpr (Array.mem_of_getElem? hi)
  have hplain := hp i hmem
  refine ⟨hplain, fun r hreg => ?_, hg i hmem⟩
  obtain ⟨n, hn, hle⟩ : ∃ n, i.maxReg? = some n ∧ r ≤ n := by
    have hmax : i.maxReg? = i.registers.max? := by
      cases i <;> first | rfl | cases hplain
    obtain ⟨n, hn⟩ := Option.isSome_iff_exists.mp (List.isSome_max?_of_mem hreg)
    exact ⟨n, hmax.trans hn, (List.max?_eq_some_iff.mp hn).2 r hreg⟩
  exact Nat.lt_of_lt_of_le (frameSize_gt hi hn hle) hr

namespace Underway

/-- A task that starts to run plain code stands in it. -/
theorem running (functions : FunctionTable) {stack : Array Slot} (hw : WellFormed code)
    (hi : ∀ (pc : Nat) i, code[pc]? = some i → i.Finds stack.size w.globals.size) :
    Underway code (.running functions stack code) w := by
  refine ⟨hw, hi, ⟨_, rfl, rfl⟩, rfl, ?_⟩
  obtain ⟨pc, -, hpc, -⟩ := hw.returns
  show 0 + 1 < code.size
  omega

theorem step (free : Fault → Prop) (arity : FuncId → Option Nat) (past : List Effect)
    (h : Underway code t w) : ∃ i, code[t.pc]? = some i ∧ t.inst? = some i ∧
    Realizes free t w past i
      (fun o go => (literal free arity).exec Meaning.done o t.pc i t.frame (w, past) go)
      (step t w) := by
  have hlt : t.pc < code.size := Nat.lt_of_succ_lt h.before
  have hi : code[t.pc]? = some code[t.pc] := Array.getElem?_eq_getElem hlt
  obtain ⟨l, hl, hcode⟩ := h.lowered
  have hinst : t.inst? = some code[t.pc] := by
    unfold Task.inst?
    rw [hl, Option.bind_some, hcode, hi]
  refine ⟨_, hi, hinst, ?_⟩
  unfold Machine.step
  rw [hinst]
  refine exec_realizes h.bottom (h.insts _ _ hi) (fun hs => ?_) fun offset ho => ?_
  · have := (h.wellFormed.stop_iff t.pc).mp (hs ▸ hi)
    have := h.before
    omega
  · obtain ⟨target, ht, -⟩ := h.wellFormed.orderly.target hi ho
    exact ⟨target, ht⟩

theorem next (h : Underway code t w) (hi : code[t.pc]? = some i) {stack : Array Slot} {pc : Nat}
    (hstack : stack.size = t.stack.size) (hglobals : w'.globals.size = w.globals.size)
    (hg : Goes i t.pc pc) : Underway code { t with stack, pc } w' := by
  refine ⟨h.wellFormed, fun n j hj => ?_, h.lowered, h.bottom, (h.wellFormed.goes hi hg).2⟩
  rw [hglobals, show ({ t with stack, pc } : Task).stack.size = _ from hstack]
  exact h.insts n j hj

/-- A task in plain code completes. -/
theorem completes (h : Underway code t w) : ∃ es outcome last, Completes t w es outcome last := by
  -- control only goes forward, and well-formed code has an instruction wherever it goes
  induction hn : code.size - t.pc using Nat.strongRecOn generalizing t w with
  | ind n ih =>
    obtain ⟨i, hi, hinst, hstep⟩ := h.step (fun _ => True) (fun _ => none) []
    generalize hs : Machine.step t w = s at hstep
    cases hstep with
    | ended => exact ⟨[], _, _, .ended hs⟩
    | @next stack pc w' hstack hglobals hgoes =>
      have hlt := (h.wellFormed.goes hi hgoes).1
      have hbefore := h.before
      obtain ⟨es, outcome, last, hrest⟩ :=
        ih (code.size - pc) (by omega) (h.next hi hstack hglobals hgoes) rfl
      exact ⟨_, outcome, last, .next hinst hs hrest⟩

end Underway

/-- A run of plain code ends as the task completes. Unless that is a fault that is free, it ends in
no other way. -/
theorem Completes.runs {es : List Effect} {outcome : Outcome} {last : World}
    (h : Completes t w es outcome last) (hs : Underway code t w) (past : List Effect) :
    (literal free arity).Runs Meaning.done code t.pc t.frame (w, past)
        (.ofAnswer outcome (last, past ++ es)) ∧
      ((∀ e, outcome = .error e → ¬ free e) → ∀ o,
        (literal free arity).Runs Meaning.done code t.pc t.frame (w, past) o →
          o = .ofAnswer outcome (last, past ++ es)) := by
  -- along the run of the task, whose steps are all there is to a run of the meaning
  induction h generalizing past with
  | ended h =>
    obtain ⟨i, hi, hinst, hstep⟩ := hs.step free arity past
    rw [h] at hstep
    rw [List.append_nil]
    cases hstep with
    | ended may must =>
      refine ⟨(Meaning.runs_iff hi).mpr (may _), fun hfree o ho => ?_⟩
      exact must hfree o _ ((Meaning.runs_iff hi).mp ho)
  | next hinst h hrest ih =>
    obtain ⟨i, hi, hinst', hstep⟩ := hs.step free arity past
    obtain rfl := Option.some.inj (hinst.symm.trans hinst')
    rw [h] at hstep
    cases hstep with
    | @next stack pc w' hstack hglobals hgoes hiff =>
      have hlt := (hs.wellFormed.goes hi hgoes).1
      obtain ⟨hends, honly⟩ := ih (hs.next hi hstack hglobals hgoes) (past ++ _)
      rw [List.append_assoc] at hends honly
      refine ⟨(Meaning.runs_iff hi).mpr ((hiff _ _).mpr fun _ => hends), fun hfree o ho => ?_⟩
      exact honly hfree o ((hiff o _).mp ((Meaning.runs_iff hi).mp ho) hlt)

end

end ForkLisp.Machine
