/-
Frames that lie higher.

An instruction names the slots of its frame by their distance from the base. So a frame that
lies `k` slots higher is to an instruction what its own frame is to the instruction with all
registers moved up by `k` (`exec_raise`): the same slots, globals, lines and tasks, and the same
place to go on. Only what a call saves of its caller tells the two apart, and a handle for which
there is no register.

A run of a function's code inside its frame is then one of a copy that works on the registers of the
caller (`Task.Strides.copied`).
-/
import ForkLisp.Machine.Step
import ForkLisp.Optimize.Liveness
import ForkLisp.Proofs.Behaviour.Meaning

namespace ForkLisp.Machine

open ForkLisp.Code ForkLisp.Optimize ForkLisp.Behaviour

/-- The task with its frame `k` slots higher. -/
def Task.raise (t : Task) (k : Nat) : Task :=
  { t with base := t.base + k }

theorem Task.read?_raise (t : Task) (k : Nat) (r : Reg) :
    (t.raise k).read? r = t.read? (r + k) := by
  rw [read?, read?, raise, Nat.add_assoc, Nat.add_comm k r]

namespace Step

/-- The same step from a frame at `base` that lies `k` slots higher. A function that is entered
keeps its place, and the base that it returns to is the higher one. -/
def raise (k base : Nat) : Step → Step
  | .next t w =>
    if t.base = base then .next (t.raise k) w
    else .next { t with stack := t.stack.setIfInBounds (t.base - 2) (.frame (base + k)) } w
  | .spawned t child w => .spawned (t.raise k) child w
  | .suspended t w => .suspended (t.raise k) w
  | .ended t outcome w => .ended (t.raise k) outcome w
  | .crashed w => .crashed w

section

variable {t : Task} {w : World} {k base : Nat}

theorem raise_next (t : Task) (w : World) (k : Nat) :
    (Step.next t w).raise k t.base = .next (t.raise k) w :=
  if_pos rfl

theorem advance_raise (t : Task) (w : World) (k : Nat) :
    advance (t.raise k) w = (advance t w).raise k t.base :=
  (raise_next { t with pc := t.pc + 1 } w k).symm

theorem withReg_raise {f g : Slot → Task → World → Step} (r : Reg)
    (h : ∀ v, f v (t.raise k) w = (g v t w).raise k base) :
    withReg r (t.raise k) w f = (withReg (r + k) t w g).raise k base := by
  unfold withReg
  rw [Task.read?_raise]
  cases t.read? (r + k) with
  | none => rfl
  | some v => exact h v

theorem write_raise {f g : Task → World → Step} (r : Reg) (v : Slot)
    (h : ∀ stack, f (Task.raise { t with stack } k) w = (g { t with stack } w).raise k base) :
    write r v (t.raise k) w f = (write (r + k) v t w g).raise k base := by
  have hslot : t.base + k + r = t.base + (r + k) := by rw [Nat.add_assoc, Nat.add_comm k r]
  unfold write
  simp only [Task.raise, hslot]
  by_cases hin : t.base + (r + k) < t.stack.size
  · rw [dif_pos hin, dif_pos hin]
    exact h (t.stack.set (t.base + (r + k)) v hin)
  · rw [dif_neg hin, dif_neg hin]
    rfl

theorem put_raise (r : Reg) (v : Slot) (t : Task) (w : World) (k : Nat) :
    put r v (t.raise k) w = (put (r + k) v t w).raise k t.base :=
  write_raise r v fun _ => advance_raise _ w k

theorem jump_raise (offset : Int) (t : Task) (w : World) (k : Nat) :
    jump offset (t.raise k) w = (jump offset t w).raise k t.base := by
  unfold jump
  rw [Task.raise]
  cases jumpTarget t.pc offset with
  | none => rfl
  | some pc => exact (raise_next { t with pc } w k).symm

theorem arith_raise (op : ArithOp) (dst : Reg) (rhs : Except Fault Int64) (t : Task) (w : World)
    (k : Nat) : arith op dst rhs (t.raise k) w = (arith op (dst + k) rhs t w).raise k t.base := by
  refine withReg_raise dst fun lhs => ?_
  split
  · rfl
  · rfl
  · split
    · exact put_raise ..
    · rfl

theorem branch_raise (cmp : Comparison) (offset : Int) (lhs : Reg) (rhs : Except Fault Int64)
    (t : Task) (w : World) (k : Nat) :
    branch cmp offset lhs rhs (t.raise k) w =
      (branch cmp offset (lhs + k) rhs t w).raise k t.base := by
  refine withReg_raise lhs fun v => ?_
  split
  · rfl
  · rfl
  · split
    · exact jump_raise ..
    · exact advance_raise ..

theorem printLine_raise (line : Except Fault String) (t : Task) (w : World) (k : Nat) :
    printLine line (t.raise k) w = (printLine line t w).raise k t.base := by
  cases line with
  | error e => rfl
  | ok s => exact advance_raise ..

/-- The frame of a function that is entered lies where it did. -/
theorem enter_raise (callee : FuncId) (shift : Reg) (t : Task) (w : World) (k : Nat) :
    enter callee shift (t.raise k) w = (enter callee (shift + k) t w).raise k t.base := by
  have hbase : t.base + k + shift = t.base + (shift + k) := by
    rw [Nat.add_assoc, Nat.add_comm k shift]
  unfold enter
  simp only [Task.raise, hbase]
  cases t.program.func? callee with
  | none => rfl
  | some f =>
    dsimp only
    by_cases hfull : t.stack.size < t.base + (shift + k) + f.frameSize
    · rw [if_pos hfull, if_pos hfull]
      rfl
    · rw [if_neg hfull, if_neg hfull]
      by_cases hlow : t.base + (shift + k) < 2
      · rw [if_pos hlow, if_pos hlow]
        rfl
      · rw [if_neg hlow, if_neg hlow, raise]
        by_cases hsame : t.base + (shift + k) = t.base
        · -- an entered frame lies at the base of its caller only if nothing was moved
          obtain rfl : k = 0 := by omega
          rw [if_pos hsame]
          rfl
        · rw [if_neg hsame]
          dsimp only
          have hne : t.base + (shift + k) - 2 ≠ t.base + (shift + k) - 1 := by omega
          rw [Array.setIfInBounds_comm _ _ hne, Array.setIfInBounds_comm _ _ hne,
            Array.setIfInBounds_setIfInBounds]

/-- A task is started with the same arguments, and its handle is at the same place. -/
theorem spawn_raise (callee : FuncId) {shift : Nat} (t : Task) (w : World) {k : Nat}
    (hs : 3 ≤ shift ∨ shift + k < 3) :
    spawn callee shift (t.raise k) w = (spawn callee (shift + k) t w).raise k t.base := by
  have hbase : (t.raise k).base + shift = t.base + (shift + k) := by
    rw [Task.raise, Nat.add_assoc, Nat.add_comm k shift]
  unfold spawn
  rw [hbase]
  rw [show (t.raise k).program = t.program from rfl, show (t.raise k).stack = t.stack from rfl]
  split
  · rfl
  · split
    · rfl
    · by_cases hlow : shift + k < 3
      · rw [if_pos hlow, if_pos (show shift < 3 by omega)]
        rfl
      · have hhandle : shift + k - 3 = shift - 3 + k := by omega
        rw [if_neg hlow, if_neg (show ¬ shift < 3 by omega), hhandle]
        split
        · exact write_raise _ _ fun _ => enter_raise ..
        · dsimp only
          split
          · rfl
          · exact write_raise _ _ fun _ => rfl

theorem resume_raise (r : Reg) (id : TaskId) (outcome : Outcome) (t : Task) (w : World) (k : Nat) :
    resume r id outcome (t.raise k) w = (resume (r + k) id outcome t w).raise k t.base := by
  cases outcome with
  | error e => rfl
  | ok v => exact put_raise r v { t with children := t.children.filter (· != id) } w k

theorem join_raise (r : Reg) (t : Task) (w : World) (k : Nat) :
    join r (t.raise k) w = (join (r + k) t w).raise k t.base := by
  refine withReg_raise r fun v => ?_
  split
  · rw [Nat.add_right_comm]
    exact withReg_raise (r + 1) fun _ => put_raise ..
  · split
    · rfl
    · exact resume_raise ..
  · exact advance_raise ..

/-- In a frame that lies `k` slots higher an instruction does what it does with its
registers moved up. -/
theorem exec_raise {i : Inst} {k : Nat} (hi : i.isReturn = false)
    (hs : ∀ callee shift, i = .spawn callee shift → 3 ≤ shift ∨ shift + k < 3) (t : Task)
    (w : World) :
    exec i (t.raise k) w = (exec (i.rebase k) t w).raise k t.base := by
  cases i with
  | intConst d x => exact put_raise ..
  | boolConst d x => exact put_raise ..
  | floatConst d x => exact put_raise ..
  | move d s => exact withReg_raise s fun v => put_raise ..
  | arith op d s => exact withReg_raise s fun v => arith_raise ..
  | arithConst op d x => exact arith_raise ..
  | negate d =>
    rw [exec, Inst.rebase, exec]
    refine withReg_raise d fun v => ?_
    split
    · rfl
    · exact put_raise ..
  | branch c offset l s => exact withReg_raise s fun v => branch_raise ..
  | branchConst c offset l x => exact branch_raise ..
  | jump offset => exact jump_raise ..
  | load d g =>
    simp only [exec, Inst.rebase]
    split
    · rfl
    · exact put_raise ..
  | store s g =>
    rw [exec, Inst.rebase, exec]
    exact withReg_raise s fun v => advance_raise ..
  | call callee shift => exact enter_raise ..
  | spawn callee shift => exact spawn_raise callee t w (hs callee shift rfl)
  | join r => exact join_raise ..
  | ret s => exact absurd hi (by simp [Inst.isReturn])
  | retConst x => exact absurd hi (by simp [Inst.isReturn])
  | print s => exact withReg_raise s fun v => printLine_raise ..
  | printBool s => exact withReg_raise s fun v => printLine_raise ..
  | stop => rfl

end

end Step

/-! ### Copies of code -/

/-- The task in other code, `p` places further. -/
def Task.placed (t : Task) (p : Nat) (ref : CodeRef) : Task :=
  { t with pc := p + t.pc, code := ref }

namespace Step

/-- Where one step goes on, it stays in the frame, and another one goes on likewise in other
code. -/
def Follows (t : Task) (p : Nat) (ref : CodeRef) (s s' : Step) : Prop :=
  ∀ t' w, s = .next t' w →
    t'.base = t.base ∧ t'.code = t.code ∧ t'.program = t.program ∧ s' = .next (t'.placed p ref) w

section

variable {t : Task} {w : World} {p : Nat} {ref : CodeRef}

theorem advance_follows : Follows t p ref (advance t w) (advance (t.placed p ref) w) := by
  rintro t' w' ⟨rfl, rfl⟩
  exact ⟨rfl, rfl, rfl, rfl⟩

theorem withReg_follows {f : Slot → Task → World → Step} {r : Reg}
    (h : ∀ v, Follows t p ref (f v t w) (f v (t.placed p ref) w)) :
    Follows t p ref (withReg r t w f) (withReg r (t.placed p ref) w f) := by
  unfold withReg
  rw [show (t.placed p ref).read? r = t.read? r from rfl]
  cases t.read? r with
  | none => exact fun _ _ hs => nomatch hs
  | some v => exact h v

theorem put_follows {r : Reg} {v : Slot} :
    Follows t p ref (put r v t w) (put r v (t.placed p ref) w) := by
  unfold put write
  by_cases hin : t.base + r < t.stack.size
  · rw [dif_pos hin, dif_pos (show (t.placed p ref).base + r <
      (t.placed p ref).stack.size from hin)]
    exact advance_follows (t := { t with stack := t.stack.set (t.base + r) v hin })
  · rw [dif_neg hin]
    exact fun _ _ hs => nomatch hs

theorem jump_follows {offset : Int} :
    Follows t p ref (jump offset t w) (jump offset (t.placed p ref) w) := by
  unfold jump
  cases ht : jumpTarget t.pc offset with
  | none => exact fun _ _ hs => nomatch hs
  | some pc =>
    have hfar : jumpTarget (p + t.pc) offset = some (p + pc) := by
      rw [jumpTarget_eq_some] at ht ⊢
      omega
    rintro t' w' ⟨rfl, rfl⟩
    refine ⟨rfl, rfl, rfl, ?_⟩
    rw [show (t.placed p ref).pc = p + t.pc from rfl, hfar]
    rfl

theorem arith_follows {op : ArithOp} {dst : Reg} {rhs : Except Fault Int64} :
    Follows t p ref (arith op dst rhs t w) (arith op dst rhs (t.placed p ref) w) := by
  refine withReg_follows fun lhs => ?_
  split
  · exact fun _ _ hs => nomatch hs
  · exact fun _ _ hs => nomatch hs
  · split
    · exact put_follows
    · exact fun _ _ hs => nomatch hs

theorem branch_follows {cmp : Comparison} {offset : Int} {lhs : Reg} {rhs : Except Fault Int64} :
    Follows t p ref (branch cmp offset lhs rhs t w)
      (branch cmp offset lhs rhs (t.placed p ref) w) := by
  refine withReg_follows fun v => ?_
  split
  · exact fun _ _ hs => nomatch hs
  · exact fun _ _ hs => nomatch hs
  · split
    · exact jump_follows
    · exact advance_follows

theorem printLine_follows {line : Except Fault String} :
    Follows t p ref (printLine line t w) (printLine line (t.placed p ref) w) := by
  cases line with
  | error e => exact fun _ _ hs => nomatch hs
  | ok s => exact advance_follows

theorem join_follows {r : Reg} : Follows t p ref (join r t w) (join r (t.placed p ref) w) := by
  refine withReg_follows fun v => ?_
  split
  · exact withReg_follows fun _ => put_follows
  · rename_i id
    cases w.pool.join? id with
    | none => exact fun _ _ hs => nomatch hs
    | some found =>
      obtain ⟨outcome, pool⟩ := found
      cases outcome with
      | error e => exact fun _ _ hs => nomatch hs
      | ok v => exact put_follows (t := { t with children := t.children.filter (· != id) })
  · exact advance_follows

/-- An instruction that neither enters nor leaves a function does the same in other code. -/
theorem exec_follows (p : Nat) (ref : CodeRef) {i : Inst} (hc : i.callee? = none)
    (hr : i.isReturn = false) :
    Follows t p ref (exec i t w) (exec i (t.placed p ref) w) := by
  cases i with
  | intConst d x => exact put_follows
  | boolConst d x => exact put_follows
  | floatConst d x => exact put_follows
  | move d s => exact withReg_follows fun v => put_follows
  | arith op d s => exact withReg_follows fun v => arith_follows
  | arithConst op d x => exact arith_follows
  | negate d =>
    rw [exec, exec]
    refine withReg_follows fun v => ?_
    split
    · exact fun _ _ hs => nomatch hs
    · exact put_follows
  | branch c offset l s => exact withReg_follows fun v => branch_follows
  | branchConst c offset l x => exact branch_follows
  | jump offset => exact jump_follows
  | load d g =>
    rw [exec, exec]
    split
    · exact fun _ _ hs => nomatch hs
    · exact put_follows
  | store s g =>
    rw [exec, exec]
    refine withReg_follows fun v => ?_
    rintro t' w' ⟨rfl, rfl⟩
    exact ⟨rfl, rfl, rfl, rfl⟩
  | call callee shift => exact absurd hc (by simp [Inst.callee?])
  | spawn callee shift => exact absurd hc (by simp [Inst.callee?])
  | join r => exact join_follows
  | ret s => exact absurd hr (by simp [Inst.isReturn])
  | retConst x => exact absurd hr (by simp [Inst.isReturn])
  | print s => exact withReg_follows fun v => printLine_follows
  | printBool s => exact withReg_follows fun v => printLine_follows
  | stop => exact fun _ _ hs => nomatch hs

end

end Step

/-- Steps in which a task neither enters nor leaves a function. -/
inductive Task.Strides : Task → World → Task → World → Prop where
  | rest (t : Task) (w : World) : Strides t w t w
  | stride {t t₁ t₂ : Task} {w w₁ w₂ : World} {i : Inst} (hi : t.inst? = some i)
      (hc : i.callee? = none) (hr : i.isReturn = false) (hs : Step.exec i t w = .next t₁ w₁)
      (h : Strides t₁ w₁ t₂ w₂) : Strides t w t₂ w₂

/-- The task at the same place of a copy, which starts at `p` and works in the frame at `base`. -/
def Task.inCopy (t : Task) (base p : Nat) (ref : CodeRef) : Task :=
  { t with base, pc := p + t.pc, code := ref }

section

variable {t t' : Task} {w w' : World} {base k p : Nat} {ref : CodeRef} {l copy : Lowered}

/-- A step inside a frame is one of the copy in the frame below. -/
theorem exec_inCopy (p : Nat) (ref : CodeRef) {i : Inst} (hbase : t.base = base + k)
    (hc : i.callee? = none) (hr : i.isReturn = false) (hs : Step.exec i t w = .next t' w') :
    t'.base = base + k ∧ t'.code = t.code ∧ t'.program = t.program ∧
      Step.exec (i.rebase k) (t.inCopy base p ref) w = .next (t'.inCopy base p ref) w' := by
  -- in the frame below the rebased instruction takes the same step
  obtain ⟨u, rfl⟩ : ∃ u : Task, t = u.raise k := ⟨{ t with base }, by rw [Task.raise, ← hbase]⟩
  obtain rfl : u.base = base := Nat.add_right_cancel hbase
  rw [Step.exec_raise hr fun callee shift h => absurd hc (by simp [h, Inst.callee?])] at hs
  have hc' : (i.rebase k).callee? = none := by
    rw [← hc]
    cases i <;> rfl
  have hr' : (i.rebase k).isReturn = false := by
    rw [← hr]
    cases i <;> rfl
  cases hstep : Step.exec (i.rebase k) u w with
  | next v w₁ =>
    -- and from other code it goes on likewise
    obtain ⟨hb, hcode, hprogram, hplaced⟩ :=
      Step.exec_follows p ref hc' hr' v w₁ hstep
    rw [hstep, ← hb, Step.raise_next, Step.next.injEq] at hs
    obtain ⟨rfl, rfl⟩ := hs
    refine ⟨by rw [← hb]; rfl, hcode, hprogram, hplaced.trans ?_⟩
    rw [← hb]
    rfl
  | spawned _ _ _ | suspended _ _ | ended _ _ _ | crashed _ =>
    rw [hstep] at hs
    exact absurd hs (by simp [Step.raise])

/-- A run inside a frame is one of a copy of its code in the frame below. -/
theorem Task.Strides.copied (h : Task.Strides t w t' w') (hbase : t.base = base + k)
    (hl : t.lowered? = some l) (hcopy : t.program.code? ref = some copy)
    (hcode : ∀ pc i, l.code[pc]? = some i → i.isReturn = false →
      copy.code[p + pc]? = some (i.rebase k)) :
    Task.Strides (t.inCopy base p ref) w (t'.inCopy base p ref) w' := by
  induction h with
  | rest t w => exact .rest _ _
  | @stride t t₁ t₂ w w₁ w₂ i hi hc hr hs _ ih =>
    obtain ⟨hb, hcode₁, hprogram, hcopied⟩ := exec_inCopy p ref hbase hc hr hs
    have hat : (t.inCopy base p ref).inst? = some (i.rebase k) := by
      rw [Task.inst?, hl] at hi
      rw [Task.inst?, show (t.inCopy base p ref).lowered? = some copy from hcopy]
      exact hcode t.pc i hi hr
    refine .stride hat (by rw [← hc]; cases i <;> rfl) (by rw [← hr]; cases i <;> rfl) hcopied ?_
    refine ih hb ?_ (by rw [hprogram, hcopy])
    rw [Task.lowered?, hprogram, hcode₁]
    exact hl

end

/-- Registers that are moved up stand for a frame that lies higher.

* In a frame that lies `k` slots higher an instruction that is no return does what it does with its
  registers moved up by `k`: it writes the same slots, globals and lines, hands out the same tasks
  and goes on at the same place. Only the base that a call saves is that of the higher frame. When a
  task is started there has to be a register for its handle, or none in either frame.
* To move registers up twice is to move them up by the sum.
* So a copy of a function's code, with its registers moved up and put anywhere into the code of
  a caller, computes what the function does in its frame, as long as it neither enters nor
  leaves a function. -/
theorem rebase_raises_frame :
    (∀ (i : Inst) (k : Nat), i.isReturn = false →
      (∀ callee shift, i = .spawn callee shift → 3 ≤ shift ∨ shift + k < 3) →
      ∀ (t : Task) (w : World),
        Step.exec i (t.raise k) w = (Step.exec (i.rebase k) t w).raise k t.base) ∧
    (∀ (i : Inst) (k j : Nat), (i.rebase k).rebase j = i.rebase (j + k)) ∧
    ∀ (t t' : Task) (w w' : World) (base k p : Nat) (ref : CodeRef) (l copy : Lowered),
      t.base = base + k → t.lowered? = some l → t.program.code? ref = some copy →
      (∀ pc i, l.code[pc]? = some i → i.isReturn = false →
        copy.code[p + pc]? = some (i.rebase k)) →
      Task.Strides t w t' w' → Task.Strides (t.inCopy base p ref) w (t'.inCopy base p ref) w' := by
  refine ⟨fun i k hi hs t w => Step.exec_raise hi hs t w, fun i k j => ?_,
    fun t t' w w' base k p ref l copy hbase hl hcopy hcode h => h.copied hbase hl hcopy hcode⟩
  cases i <;> simp only [Inst.rebase, Nat.add_assoc, Nat.add_comm k j]

/-- A task in a function that doubles its argument. The caller has a copy of the code of its own. -/
def doubling : Task :=
  { Task.root 8 ⟨#[some (lower #[.move 1 0, .arith .add 1 0, .ret 1, .stop] 1)],
      lower #[.intConst 4 21, .move 5 4, .arith .add 5 4, .ret 5, .stop] 0⟩ with
    stack := (Array.replicate 8 .empty).set 4 (.int 21)
    base := 4
    code := .func 0 }

/-- The task before it returns. -/
def doubled : Task :=
  { doubling with stack := doubling.stack.set 5 (.int 42), pc := 2 }

/-- The copy doubles the argument in the same slots. To start a task three slots above the frame of
the function is to start one seven slots above that of its caller. -/
theorem rebase_raises_frame_doubling :
    (∀ w, Step.exec (.spawn 0 3) ((doubling.inCopy 0 1 .entry).raise 4) w =
      (Step.exec (.spawn 0 7) (doubling.inCopy 0 1 .entry) w).raise 4 0) ∧
    ((Inst.spawn 0 3).rebase 4).rebase 1 = (Inst.spawn 0 3).rebase (1 + 4) ∧
    ∀ w, Task.Strides (doubling.inCopy 0 1 .entry) w (doubled.inCopy 0 1 .entry) w := by
  obtain ⟨hexec, hrebase, hcopy⟩ := rebase_raises_frame
  refine ⟨hexec (.spawn 0 3) 4 rfl ?_ (doubling.inCopy 0 1 .entry),
    hrebase (.spawn 0 3) 4 1, fun w => ?_⟩
  · rintro callee shift ⟨rfl, rfl⟩
    exact .inl (by decide)
  · refine hcopy doubling doubled w w 0 4 1 .entry _ _ rfl rfl rfl ?_
      (.stride rfl rfl rfl rfl (.stride rfl rfl rfl rfl (.rest _ _)))
    intro pc i hi hr
    match pc, hi with
    | 0, hi | 1, hi | 3, hi =>
      obtain rfl := Option.some.inj hi
      rfl
    | 2, hi =>
      obtain rfl := Option.some.inj hi
      exact absurd hr (by decide)

/-- A task that is about to start a task, but has no register for the handle. -/
def handleless : Task :=
  { Task.root 16 ⟨#[some (lower #[.spawn 1 2, .arithConst .div 0 0, .ret 0, .stop] 0),
      some (lower #[.intConst 0 7, .print 0, .ret 0, .stop] 0)],
      lower #[.call 0 5, .ret 3, .stop] 0⟩ with
    code := .func 0 }

/-- An instruction to start a task that has no register for the handle crashes, although there is
one once its registers are moved up. -/
theorem raise_needs_handle :
    ¬ ∀ (i : Inst) (k : Nat), i.isReturn = false → ∀ (t : Task) (w : World),
      (∀ r, i.maxReg? = some r → t.base + k + r < t.stack.size) →
      (∀ r, (i.rebase k).maxReg? = some r → t.base + r < t.stack.size) →
      Step.exec i (t.raise k) w = (Step.exec (i.rebase k) t w).raise k t.base := by
  intro h
  let w : World := ⟨#[], #[], ⟨#[], []⟩⟩
  have hstep := h (.spawn 1 2) 5 rfl handleless w (by decide) (by decide)
  have hhigh : Step.exec (.spawn 1 2) (handleless.raise 5) w = .crashed w := rfl
  obtain ⟨t, hlow⟩ :
      ∃ t, (Step.exec ((Inst.spawn 1 2).rebase 5) handleless w).raise 5 handleless.base =
      .next t w :=
    ⟨_, rfl⟩
  rw [hhigh, hlow] at hstep
  exact nomatch hstep

end ForkLisp.Machine
