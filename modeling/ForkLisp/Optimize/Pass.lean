/-
One pass over code.

A pass reads code from the front and writes it anew. Unreachable instructions and dead definitions
are left out, jumps to returns and to branches take their targets along, neighbours are fused unless
a jump goes between them, and calls may be replaced by a copy of their callee. Whatever is read lies
behind what was read before, so that the size of the code bounds the number of steps.

All functions here yield nothing if the code is not well formed: control runs past its end, a jump
that is followed leaves it, or a callee does not exist.
-/
import ForkLisp.Compile.Context
import ForkLisp.Optimize.Draft

namespace ForkLisp.Optimize

open ForkLisp.Code ForkLisp.Compile

/-- The draft and the place where reading goes on. -/
abbrev Advance := Option (Draft × Nat)

/-- Writes a branch that was read at `pc`, unless it goes to the instruction behind. -/
def placeBranch (s : Site) (i : Inst) (target : Option Nat) (pc : Nat) (d : Draft) : Draft :=
  if target = some (pc + 1) then d else d.emitJump i s.copy target

/-- Writes a return. In the copy of a callee it leaves its value where the caller expects it and
goes on there. -/
def placeReturn (s : Site) (i : Inst) (pc : Nat) (d : Draft) : Advance :=
  match s.caller with
  | none => do
    let d := d.emit i
    return (d, ← d.nextReachable? s (pc + 1) none)
  | some caller => do
    let result := s.base - 2
    let d :=
      match i with
      | .retConst value => d.emit (.intConst result value)
      | .ret src => d.emit (.move result src)
      | _ => d
    let next ← d.nextReachable? s (pc + 1) none
    if s.code[next]? = some .stop then return (d, next)
    else return (d.emitJump (.jump 0) caller.copy (some caller.pc), next)

/-- Writes a jump to `target` that was read at `pc`. A return there takes its place; in code that is
no copy a branch there is made first. -/
def placeJump (s : Site) (pc : Nat) : Nat → Option Nat → Draft → Advance
  | 0, _, _ => none
  | fuel + 1, target, d => do
    let t ← target
    let i ← s.code[t]?
    if i.isReturn then placeReturn s (i.rebase s.base) pc d
    else
      match i.offset? with
      | some offset =>
        if i.isBranch && s.caller.isNone then
          placeJump s pc fuel (some (t + 1))
            (placeBranch s (i.rebase s.base) (jumpTarget t offset) t d)
        else skipTo t d
      | none => skipTo t d
where
  /-- Goes on behind the jump, which is written unless its target comes next. -/
  skipTo (t : Nat) (d : Draft) : Advance := do
    let next ← d.nextReachable? s (pc + 1) (some t)
    if next = t then return (d, next)
    else return (d.emitJump (.jump 0) s.copy (some t), next)

/-- Writes an instruction read at `pc` that does more than to write registers. -/
def placeEffect (s : Site) (i : Inst) (pc : Nat) (d : Draft) : Advance :=
  match i with
  | .jump offset => placeJump s pc (s.code.size + 1) (jumpTarget pc offset) d
  | .branch _ offset _ _ | .branchConst _ offset _ _ =>
    some (placeBranch s i (jumpTarget pc offset) pc d, pc + 1)
  | .ret _ | .retConst _ => placeReturn s i pc d
  | i => some (d.emit i, pc + 1)

/-- The instruction at `pc` without what has no effect; a definition that nobody reads goes too. -/
def simplify (s : Site) (i : Inst) (pc : Nat) : Option (Option Inst) :=
  match tidy i with
  | none => some none
  | some i =>
    match i.pureDef? with
    | some dst => (s.deadAfter pc dst).map fun dead => if dead then none else some i
    | none => some (some i)

/-- Writes the instruction `i` read at `pc`, fused with as many of those behind it as possible. -/
def peephole (s : Site) : Nat → Inst → Nat → Draft → Advance
  | 0, _, _, _ => none
  | fuel + 1, i, pc, d => do
    match ← simplify s i pc with
    | none => return (d, pc + 1)
    | some i =>
      if !isStraight i then placeEffect s i pc d
      else if d.isTarget s.copy (pc + 1) then return (d.emit i, pc + 1)
      else
        let next ← s.fetch? (pc + 1)
        match ← fuse (s.deadAfter (pc + 1)) i next with
        | .into i => peephole s fuel i (pc + 1) d
        | .split first rest => peephole s fuel rest (pc + 1) (d.emit first)
        | .vanish => return (d, pc + 2)
        | .apart => return (d.emit i, pc + 1)

/-- Writes an instruction other than the end. -/
def place (s : Site) (i : Inst) (pc : Nat) (d : Draft) : Advance :=
  if isStraight i then peephole s (s.code.size + 1) i pc d else placeEffect s i pc d

/-- A callee that takes the place of a call at `pc`, whose frame would start at `shift`: the draft
behind it, or nothing if the call stays. -/
abbrev Inliner := FuncId → Reg → Nat → Draft → Option (Option Draft)

/-- The inliner that leaves every call alone. -/
def keepCalls : Inliner := fun _ _ _ _ => some none

/-- Reads code from `pc` to its end. -/
def walk (inline : Inliner) (s : Site) : Nat → Nat → Draft → Option Draft
  | 0, _, _ => none
  | fuel + 1, pc, d => do
    let d := d.arrive s.copy pc
    match ← s.fetch? pc with
    | .stop => return d
    | .call callee shift =>
      match ← inline callee shift pc d with
      | some d => walk inline s fuel (pc + 1) d
      | none => walk inline s fuel (pc + 1) (d.emit (.call callee shift))
    | i =>
      let (d, next) ← place s i pc d
      walk inline s fuel next d

/-- What is optimized: the code at hand, and the function that it is the code of. -/
structure Subject where
  context : Context
  this : Option FuncId
  code : Code

namespace Subject

/-- How many arguments a function takes. -/
def arity? (subject : Subject) (f : FuncId) : Option Nat :=
  (subject.context.function? f).map Function.arity

/-- The code of a function. That of the function being optimized is the code at hand. -/
def calleeCode? (subject : Subject) (f : FuncId) : Option Code :=
  if subject.this = some f then some subject.code
  else (subject.context.function? f).map (·.code)

/-- What is live in some code. -/
def liveness (subject : Subject) (code : Code) : Option Liveness :=
  Liveness.of? subject.arity? code

/-- The code at hand as it is read. -/
def site (subject : Subject) : Site :=
  ⟨subject.code, subject.liveness subject.code, 0, 0, none⟩

/-- Copies callees in, as long as the code written so far is within the budget. A function without
code stays a call. -/
def inline (subject : Subject) : Inliner := fun callee shift pc d =>
  if subject.context.settings.codeSizeBudget ≤ d.builder.words then some none
  else do
    let code ← subject.calleeCode? callee
    if code.isEmpty then return none
    else
      let s : Site := ⟨code, subject.liveness code, d.copies + 1, shift, some ⟨0, pc + 1⟩⟩
      return some (← walk keepCalls s (code.size + 1) 0 { d with copies := d.copies + 1 })

/-- One pass with a given treatment of calls. -/
def pass (subject : Subject) (inline : Inliner) : Option Code := do
  let d ← walk inline subject.site (subject.code.size + 1) 0 .empty
  return (d.emit .stop).builder.code

/-- One pass that leaves calls alone. -/
def cleanup (subject : Subject) : Option Code := subject.pass keepCalls

/-- One pass that copies callees in. -/
def expand (subject : Subject) : Option Code := subject.pass subject.inline

end Subject

end ForkLisp.Optimize
