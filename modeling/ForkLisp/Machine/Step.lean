/-
Steps of the machine.

`step` runs the instruction at which a task stands, in a world of globals, printed lines and pooled
tasks. A task that waits for another one stays at its instruction. A step that the machine has no
meaning for, such as running past the end of the code or leaving the stack, is a crash.
-/
import ForkLisp.Machine.Pool

namespace ForkLisp.Machine

open ForkLisp.Code

/-- What tasks share: the globals, the lines printed so far, and the pool. -/
structure World where
  globals : Array Slot
  printed : Array String
  pool : Pool

/-- What comes of a step. -/
inductive Step where
  | next (t : Task) (w : World)
  /-- The task goes on, and another one is ready to run. -/
  | spawned (t child : Task) (w : World)
  /-- The task waits for another one. -/
  | suspended (t : Task) (w : World)
  | ended (t : Task) (outcome : Outcome) (w : World)
  | crashed (w : World)

namespace Step

/-- Goes on behind the instruction. -/
def advance (t : Task) (w : World) : Step :=
  .next { t with pc := t.pc + 1 } w

/-- Reads a register and goes on with its value. -/
def withReg (r : Reg) (t : Task) (w : World) (k : Slot → Task → World → Step) : Step :=
  match t.read? r with
  | none => .crashed w
  | some v => k v t w

/-- Writes a register and goes on. -/
def write (r : Reg) (v : Slot) (t : Task) (w : World) (k : Task → World → Step) : Step :=
  if h : t.base + r < t.stack.size then
    k { t with stack := t.stack.set (t.base + r) v } w
  else .crashed w

/-- Writes a register and goes on behind the instruction. -/
def put (r : Reg) (v : Slot) (t : Task) (w : World) : Step :=
  write r v t w advance

/-- Goes on at the target of a jump. -/
def jump (offset : Int) (t : Task) (w : World) : Step :=
  match jumpTarget t.pc offset with
  | some pc => .next { t with pc } w
  | none => .crashed w

/-- Combines a register with a number; the fault of the register comes before that of the number. -/
def arith (op : ArithOp) (dst : Reg) (rhs : Except Fault Int64) (t : Task) (w : World) : Step :=
  withReg dst t w fun lhs t w =>
    match lhs.int64, rhs with
    | .error e, _ => .ended t (.error e) w
    | _, .error e => .ended t (.error e) w
    | .ok a, .ok b =>
      match op.result? a b with
      | some n => put dst (.int n) t w
      | none => .ended t (.error .zeroDivision) w

/-- Compares a register with a number and jumps if the comparison holds. -/
def branch (cmp : Comparison) (offset : Int) (lhs : Reg) (rhs : Except Fault Int64) (t : Task)
    (w : World) : Step :=
  withReg lhs t w fun lhs t w =>
    match lhs.integral, rhs with
    | .error e, _ => .ended t (.error e) w
    | _, .error e => .ended t (.error e) w
    | .ok a, .ok b => if cmp.holds a b then jump offset t w else advance t w

/-- Enters a function whose frame starts `shift` above the current one. The two slots below hold
where the caller goes on. -/
def enter (callee : FuncId) (shift : Reg) (t : Task) (w : World) : Step :=
  match t.program.func? callee with
  | none => .crashed w
  | some f =>
    let base := t.base + shift
    if t.stack.size < base + f.frameSize then .ended t (.error .stackOverflow) w
    else if base < 2 then .crashed w
    else
      .next
        { t with
          stack := (t.stack.setIfInBounds (base - 2) (.frame t.base)).setIfInBounds (base - 1)
            (.returnTo t.code (t.pc + 1))
          pc := 0
          base
          code := .func callee }
        w

/-- Hands a function to a pooled task, or calls it at once if there is none. -/
def spawn (callee : FuncId) (shift : Reg) (t : Task) (w : World) : Step :=
  match t.program.func? callee with
  | none => .crashed w
  | some f =>
    if t.stack.size < f.frameSize then .ended t (.error .stackOverflow) w
    else if shift < 3 then .crashed w
    else
      match w.pool.take? with
      | none => write (shift - 3) (.future none) t w (enter callee shift)
      | some (child, pool) =>
        let start := t.base + shift
        let args := (t.stack.extract start (start + f.arity)).toList
        let w := { w with pool }
        if args.length < f.arity then .crashed w
        else
          write (shift - 3) (.future child.id) t w fun t w =>
            .spawned { t with pc := t.pc + 1, children := t.children ++ child.id.toList }
              (child.start t.program callee args) w

/-- Goes on with the outcome of the task `id`. -/
def resume (r : Reg) (id : TaskId) (outcome : Outcome) (t : Task) (w : World) : Step :=
  let t := { t with children := t.children.filter (· != id) }
  match outcome with
  | .error e => .ended t (.error e) w
  | .ok v => put r v t w

/-- Replaces the handle of a task by its outcome. The handle of a call made at once is replaced by
the register above, and what is no handle stays. -/
def join (r : Reg) (t : Task) (w : World) : Step :=
  withReg r t w fun v t w =>
    match v with
    | .future none => withReg (r + 1) t w (put r)
    | .future (some id) =>
      match w.pool.join? id with
      | none => .suspended t w
      | some (outcome, pool) => resume r id outcome t { w with pool }
    | _ => advance t w

/-- Leaves a function with a value. At the bottom of the stack this ends the task. -/
def leave (v : Slot) (t : Task) (w : World) : Step :=
  if t.base = 0 then .ended t (.ok v) w
  else if t.base = 1 then .crashed w
  else
    match t.stack[t.base - 2]?, t.stack[t.base - 1]? with
    | some (.frame base), some (.returnTo code pc) =>
      .next { t with stack := t.stack.setIfInBounds (t.base - 2) v, pc, base, code } w
    | _, _ => .crashed w

/-- Prints a line. -/
def printLine (line : Except Fault String) (t : Task) (w : World) : Step :=
  match line with
  | .error e => .ended t (.error e) w
  | .ok s => advance t { w with printed := w.printed.push s }

/-- Runs an instruction. -/
def exec (i : Inst) (t : Task) (w : World) : Step :=
  match i with
  | .intConst dst value => put dst (.int value) t w
  | .boolConst dst value => put dst (.bool value) t w
  | .floatConst dst value => put dst (.float value) t w
  | .move dst src => withReg src t w (put dst)
  | .arith op dst src => withReg src t w fun rhs => arith op dst rhs.int64
  | .arithConst op dst value => arith op dst (.ok value) t w
  | .negate dst =>
    withReg dst t w fun v t w =>
      match v.int64 with
      | .error e => .ended t (.error e) w
      | .ok n => put dst (.int (-n)) t w
  | .branch cmp offset lhs rhs => withReg rhs t w fun v => branch cmp offset lhs v.integral
  | .branchConst cmp offset lhs value => branch cmp offset lhs (.ok value) t w
  | .jump offset => jump offset t w
  | .load dst source =>
    match w.globals[source.index]? with
    | none => .crashed w
    | some v => put dst v t w
  | .store src target =>
    withReg src t w fun v t w =>
      advance t { w with globals := w.globals.setIfInBounds target.index v }
  | .call callee shift => enter callee shift t w
  | .spawn callee shift => spawn callee shift t w
  | .join r => join r t w
  | .ret src => withReg src t w leave
  | .retConst value => leave (.int value) t w
  | .print src => withReg src t w fun v => printLine v.printed
  | .printBool src =>
    withReg src t w fun v => printLine (v.integral.map fun n => Slot.boolText (n != 0))
  | .stop => .crashed w

end Step

/-- Runs the instruction at which a task stands. -/
def step (t : Task) (w : World) : Step :=
  match t.inst? with
  | none => .crashed w
  | some i => Step.exec i t w

end ForkLisp.Machine
