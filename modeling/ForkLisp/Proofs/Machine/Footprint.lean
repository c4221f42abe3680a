/-
What instructions touch.

A `Change` is what a step does, told apart from the state in which it is done: the slots that are
written with their values, where control goes, the lines that are printed. Two tasks at the same
place that agree on what an instruction reads undergo the same change (`exec_alike`), and all that
is written belongs to what the instruction writes. So the tables of operands and the machine agree
(`exec_footprint`).
-/
import ForkLisp.Proofs.Behaviour.Paths
import ForkLisp.Proofs.Code.WellFormed
import ForkLisp.Proofs.Machine.Conduct
import ForkLisp.Proofs.Machine.Layers

namespace ForkLisp.Machine

open ForkLisp.Code ForkLisp.Behaviour

/-! ### Changes -/

/-- How a step comes out. -/
inductive Change.Kind where
  | next
  | spawned (child : Task)
  | suspended
  | ended (outcome : Outcome)
  | crashed

/-- What a step does to the task that takes it and to the world. -/
structure Change where
  kind : Change.Kind
  /-- The slots that are written, in order. -/
  writes : List (Nat × Slot)
  pc : Nat
  base : Nat
  code : CodeRef
  children : List TaskId → List TaskId
  /-- The lines that are printed. -/
  lines : List String
  globals : Array Slot
  pool : Pool

/-- Writes some slots of a stack. -/
def writeSlots (stack : Array Slot) (writes : List (Nat × Slot)) : Array Slot :=
  writes.foldl (fun stack x => stack.setIfInBounds x.1 x.2) stack

namespace Change

/-- The step in which a task undergoes a change. -/
def on (d : Change) (t : Task) (w : World) : Step :=
  let t := { t with
    stack := writeSlots t.stack d.writes, pc := d.pc, base := d.base, code := d.code,
    children := d.children t.children }
  let w : World := ⟨d.globals, d.lines.foldl Array.push w.printed, d.pool⟩
  match d.kind with
  | .next => .next t w
  | .spawned child => .spawned t child w
  | .suspended => .suspended t w
  | .ended outcome => .ended t outcome w
  | .crashed => .crashed w

/-- The change that leaves everything as it is. -/
def idle (kind : Kind) (t : Task) (w : World) : Change :=
  ⟨kind, [], t.pc, t.base, t.code, id, [], w.globals, w.pool⟩

end Change

/-! ### Two states -/

/-- A task at the same place of the same program, in a world with the same globals and the same
pool. Its stack has the same size. -/
inductive Beside (t : Task) (w : World) : Task → World → Prop where
  | mk (id : Option TaskId) (stack : Array Slot) (children : List TaskId) (printed : Array String)
      (hsize : stack.size = t.stack.size) :
      Beside t w { t with id, stack, children } { w with printed }

/-- Two steps make the same change, which writes only slots that may be written. -/
def Same (may : Nat → Prop) (t : Task) (w : World) (t' : Task) (w' : World) (s s' : Step) : Prop :=
  ∃ d : Change, s = d.on t w ∧ s' = d.on t' w' ∧ ∀ x ∈ d.writes, may x.1

section

variable {may : Nat → Prop} {t t' : Task} {w w' : World} {r : Nat} {v : Slot}

theorem extract_congr {xs ys : Array Slot} {start n : Nat} (hsize : ys.size = xs.size)
    (h : ∀ k, k < n → ys[start + k]? = xs[start + k]?) :
    ys.extract start (start + n) = xs.extract start (start + n) := by
  refine Array.ext_getElem? fun k => ?_
  rw [Array.getElem?_extract, Array.getElem?_extract, hsize]
  split
  · exact h k (by omega)
  · rfl

namespace Same

/-- A change in which no slot is written. -/
theorem unwritten {s s' : Step} (d : Change) (hd : s = d.on t w) (hd' : s' = d.on t' w')
    (hw : d.writes = []) : Same may t w t' w' s s' :=
  ⟨d, hd, hd', hw ▸ fun _ hx => absurd hx List.not_mem_nil⟩

/-- What is done after the list of started tasks has changed is one change together with that. -/
theorem ofChildren {s s' : Step} (f : List TaskId → List TaskId)
    (h : Same may { t with children := f t.children } w
      { t' with children := f t'.children } w' s s') :
    Same may t w t' w' s s' := by
  obtain ⟨d, hd, hd', hw⟩ := h
  exact ⟨{ d with children := fun ids => d.children (f ids) }, hd, hd', hw⟩

/-- A change says what becomes of the pool, whatever it was before. -/
theorem ofPool {s s' : Step} (pool : Pool)
    (h : Same may t { w with pool } t' { w' with pool } s s') : Same may t w t' w' s s' :=
  h

end Same

namespace Beside

theorem withChildren (h : Beside t w t' w') (f : List TaskId → List TaskId) :
    Beside { t with children := f t.children } w { t' with children := f t'.children } w' := by
  cases h with
  | mk id stack children printed hsize => exact .mk id stack _ printed hsize

theorem withPool (h : Beside t w t' w') (pool : Pool) :
    Beside t { w with pool } t' { w' with pool } := by
  cases h with
  | mk id stack children printed hsize => exact .mk id stack children printed hsize

theorem program (h : Beside t w t' w') : t'.program = t.program := by
  cases h
  rfl

theorem base (h : Beside t w t' w') : t'.base = t.base := by
  cases h
  rfl

theorem pool (h : Beside t w t' w') : w'.pool = w.pool := by
  cases h
  rfl

theorem globals (h : Beside t w t' w') : w'.globals = w.globals := by
  cases h
  rfl

theorem size (h : Beside t w t' w') : t'.stack.size = t.stack.size := by
  cases h with
  | mk id stack children printed hsize => exact hsize

theorem crashed (h : Beside t w t' w') : Same may t w t' w' (.crashed w) (.crashed w') := by
  cases h
  exact .unwritten (.idle .crashed t w) rfl rfl rfl

theorem ended (h : Beside t w t' w') (outcome : Outcome) :
    Same may t w t' w' (.ended t outcome w) (.ended t' outcome w') := by
  cases h
  exact .unwritten (.idle (.ended outcome) t w) rfl rfl rfl

theorem suspended (h : Beside t w t' w') :
    Same may t w t' w' (.suspended t w) (.suspended t' w') := by
  cases h
  exact .unwritten (.idle .suspended t w) rfl rfl rfl

theorem advance (h : Beside t w t' w') :
    Same may t w t' w' (Step.advance t w) (Step.advance t' w') := by
  cases h
  exact .unwritten { Change.idle .next t w with pc := t.pc + 1 } rfl rfl rfl

theorem jump (h : Beside t w t' w') (offset : Int) :
    Same may t w t' w' (Step.jump offset t w) (Step.jump offset t' w') := by
  cases h with
  | mk id stack children printed hsize =>
    unfold Step.jump
    cases hpc : jumpTarget t.pc offset with
    | none => exact .unwritten (.idle .crashed t w) rfl rfl rfl
    | some pc =>
      exact .unwritten { Change.idle .next t w with pc } rfl rfl rfl

/-- What two tasks read is the same, and so is what they do with it. -/
theorem withReg (h : Beside t w t' w') (hr : t'.read? r = t.read? r)
    {k k' : Slot → Task → World → Step}
    (hk : ∀ v, t.read? r = some v → Same may t w t' w' (k v t w) (k' v t' w')) :
    Same may t w t' w' (Step.withReg r t w k) (Step.withReg r t' w' k') := by
  unfold Step.withReg
  rw [hr]
  cases hv : t.read? r with
  | none => exact h.crashed
  | some v => exact hk v hv

/-- Two tasks write the same register, and do the same then. -/
theorem write (h : Beside t w t' w') (hr : may (t.base + r)) {k k' : Task → World → Step}
    (hk : ∀ u u', Beside u w u' w' → u.base = t.base → Same may u w u' w' (k u w) (k' u' w')) :
    Same may t w t' w' (Step.write r v t w k) (Step.write r v t' w' k') := by
  -- the stacks have one size, so that either both writes succeed or both crash
  by_cases hlt : t.base + r < t.stack.size
  · cases h with
    | mk id stack children printed hsize =>
      have hlt' : t.base + r < stack.size := hsize ▸ hlt
      rw [Step.write_of_lt hlt, Step.write_of_lt hlt']
      obtain ⟨d, hd, hd', hw⟩ := hk { t with stack := t.stack.setIfInBounds (t.base + r) v }
        { t with id, stack := stack.setIfInBounds (t.base + r) v, children }
        (.mk id _ children printed (by simp [hsize])) rfl
      refine ⟨{ d with writes := (t.base + r, v) :: d.writes }, hd, hd', ?_⟩
      exact List.forall_mem_cons.mpr ⟨hr, hw⟩
  · have hcrash : ∀ (t : Task) (w : World) (k : Task → World → Step), ¬ t.base + r < t.stack.size →
        Step.write r v t w k = .crashed w := fun _ _ _ hlt => dif_neg hlt
    have hlt' : ¬ t'.base + r < t'.stack.size := by
      cases h with
      | mk id stack children printed hsize => exact hsize ▸ hlt
    rw [hcrash t w k hlt, hcrash t' w' k' hlt']
    exact h.crashed

theorem put (h : Beside t w t' w') (hr : may (t.base + r)) :
    Same may t w t' w' (Step.put r v t w) (Step.put r v t' w') :=
  h.write hr fun _ _ h _ => h.advance

theorem arith (h : Beside t w t' w') (hread : t'.read? r = t.read? r) (hr : may (t.base + r))
    (op : ArithOp) (rhs : Except Fault Int64) :
    Same may t w t' w' (Step.arith op r rhs t w) (Step.arith op r rhs t' w') := by
  refine h.withReg hread fun lhs _ => ?_
  cases lhs.int64 with
  | error e => exact h.ended _
  | ok a =>
    cases rhs with
    | error e => exact h.ended _
    | ok b =>
      dsimp only
      cases op.result? a b with
      | none => exact h.ended _
      | some n => exact h.put hr

theorem branch (h : Beside t w t' w') (hread : t'.read? r = t.read? r) (c : Comparison)
    (offset : Int) (rhs : Except Fault Int64) :
    Same may t w t' w' (Step.branch c offset r rhs t w) (Step.branch c offset r rhs t' w') := by
  refine h.withReg hread fun lhs _ => ?_
  cases lhs.integral with
  | error e => exact h.ended _
  | ok a =>
    cases rhs with
    | error e => exact h.ended _
    | ok b =>
      dsimp only
      split
      · exact h.jump offset
      · exact h.advance

theorem printLine (h : Beside t w t' w') (line : Except Fault String) :
    Same may t w t' w' (Step.printLine line t w) (Step.printLine line t' w') := by
  cases line with
  | error e => exact h.ended _
  | ok line =>
    cases h
    exact .unwritten { Change.idle .next t w with pc := t.pc + 1, lines := [line] } rfl rfl rfl

theorem store (h : Beside t w t' w') (g : Global) (v : Slot) :
    Same may t w t' w'
      (Step.advance t { w with globals := w.globals.setIfInBounds g.index v })
      (Step.advance t' { w' with globals := w'.globals.setIfInBounds g.index v }) := by
  cases h
  exact .unwritten { Change.idle .next t w with
    pc := t.pc + 1, globals := w.globals.setIfInBounds g.index v } rfl rfl rfl

theorem enter (h : Beside t w t' w') (callee : FuncId) {shift : Nat} (hs : 2 ≤ shift)
    (hlow : may (t.base + (shift - 2))) (hhigh : may (t.base + (shift - 1))) :
    Same may t w t' w' (Step.enter callee shift t w) (Step.enter callee shift t' w') := by
  unfold Step.enter
  rw [h.program, h.size, h.base]
  cases hf : t.program.func? callee with
  | none => exact h.crashed
  | some f =>
    dsimp only
    split
    · exact h.ended _
    · rw [if_neg (by omega), if_neg (by omega)]
      cases h with
      | mk id stack children printed hsize =>
        refine ⟨{ Change.idle .next t w with
          writes := [(t.base + shift - 2, .frame t.base),
            (t.base + shift - 1, .returnTo t.code (t.pc + 1))]
          pc := 0, base := t.base + shift, code := .func callee }, rfl, rfl, ?_⟩
        rw [Nat.add_sub_assoc hs, Nat.add_sub_assoc (by omega)]
        exact List.forall_mem_cons.mpr ⟨hlow, List.forall_mem_singleton.mpr hhigh⟩

theorem started (h : Beside t w t' w') (child : Program → Task) (ids : List TaskId) :
    Same may t w t' w'
      (.spawned { t with pc := t.pc + 1, children := t.children ++ ids } (child t.program) w)
      (.spawned { t' with pc := t'.pc + 1, children := t'.children ++ ids } (child t'.program)
        w') := by
  cases h
  exact .unwritten { Change.idle (.spawned (child t.program)) t w with
    pc := t.pc + 1, children := (· ++ ids) } rfl rfl rfl

/-- Below the frame two tasks that return read only the linkage. -/
theorem leave (h : Beside t w t' w') (v : Slot) (hlow : ∀ n, n < t.base → may n)
    (hlink : 2 ≤ t.base → t'.stack[t.base - 2]? = t.stack[t.base - 2]? ∧
      t'.stack[t.base - 1]? = t.stack[t.base - 1]?) :
    Same may t w t' w' (Step.leave v t w) (Step.leave v t' w') := by
  unfold Step.leave
  rw [h.base]
  split
  · exact h.ended _
  · split
    · exact h.crashed
    · obtain ⟨hframe, hreturn⟩ := hlink (by omega)
      rw [hframe, hreturn]
      split
      · rename_i base code pc _ _
        cases h
        refine ⟨{ Change.idle .next t w with writes := [(t.base - 2, v)], pc, base, code },
          rfl, rfl, ?_⟩
        exact List.forall_mem_singleton.mpr (hlow _ (by omega))
      · exact h.crashed

theorem resume (h : Beside t w t' w') (hr : may (t.base + r)) (id : TaskId) (outcome : Outcome) :
    Same may t w t' w' (Step.resume r id outcome t w) (Step.resume r id outcome t' w') := by
  refine .ofChildren (·.filter (· != id)) ?_
  have h := h.withChildren (·.filter (· != id))
  cases outcome with
  | error e => exact h.ended _
  | ok v => exact h.put hr

/-- Two tasks wait for the task of the same handle, and go on with its outcome. -/
theorem join (h : Beside t w t' w') (hr : may (t.base + r)) (hread : t'.read? r = t.read? r)
    (habove : t'.read? (r + 1) = t.read? (r + 1)) :
    Same may t w t' w' (Step.join r t w) (Step.join r t' w') := by
  refine h.withReg hread fun v _ => ?_
  cases v with
  | future task =>
    cases task with
    | none => exact h.withReg habove fun v _ => h.put hr
    | some id =>
      dsimp only
      rw [h.pool]
      cases w.pool.join? id with
      | none => exact h.suspended
      | some found => exact .ofPool found.2 ((h.withPool found.2).resume hr id found.1)
  | _ => exact h.advance

/-- Two tasks that start another one hand it the same arguments. -/
theorem spawn (h : Beside t w t' w') (callee : FuncId) {shift : Nat} (hs : 3 ≤ shift)
    (hr : may (t.base + (shift - 3)))
    (hlink : w.pool.take? = none → may (t.base + (shift - 2)) ∧ may (t.base + (shift - 1)))
    (hargs : ∀ k, k < (t.program.arity? callee).getD 0 →
      t'.read? (shift + k) = t.read? (shift + k)) :
    Same may t w t' w' (Step.spawn callee shift t w) (Step.spawn callee shift t' w') := by
  unfold Step.spawn
  unfold Program.arity? at hargs
  rw [h.program, h.pool, h.size]
  cases hf : t.program.func? callee with
  | none => exact h.crashed
  | some f =>
    rw [hf] at hargs
    dsimp only
    split
    · exact h.ended _
    · have hroom : ¬ shift < 3 := by omega
      rw [if_neg hroom, if_neg hroom]
      cases htake : w.pool.take? with
      | none =>
        -- no task is free, and the function is called in place
        obtain ⟨hlow, hhigh⟩ := hlink htake
        refine h.write hr fun u u' h hbase => ?_
        exact h.enter callee (by omega) (hbase ▸ hlow) (hbase ▸ hhigh)
      | some taken =>
        obtain ⟨child, pool⟩ := taken
        -- the arguments are all that the new task takes over from the stack
        have hsame : t'.stack.extract (t'.base + shift) (t'.base + shift + f.arity) =
            t.stack.extract (t.base + shift) (t.base + shift + f.arity) := by
          rw [h.base]
          refine extract_congr h.size fun k hk => ?_
          have hk := hargs k hk
          unfold Task.read? at hk
          rwa [h.base, ← Nat.add_assoc] at hk
        dsimp only
        rw [hsame]
        refine .ofPool pool ?_
        have h := h.withPool pool
        split
        · exact h.crashed
        · refine h.write hr fun u u' h _ => ?_
          exact h.started (fun program => child.start program callee _) child.id.toList

end Beside

/-! ### Instructions -/

/-- The slots for linkage that an instruction writes besides the registers that it defines. When a
task is started they are left alone. -/
def linkage (pool : Pool) : Inst → List Reg
  | .call _ shift => [shift - 2, shift - 1]
  | .spawn _ shift => if pool.take?.isNone then [shift - 2, shift - 1] else []
  | _ => []

/-- A slot lies below the frame, or is a register that an instruction writes. -/
def MayWrite (i : Inst) (t : Task) (pool : Pool) (n : Nat) : Prop :=
  n < t.base ∨ ∃ r ∈ i.defs ++ linkage pool i, n = t.base + r

/-- Two tasks hold the same in all registers that an instruction reads, and the same linkage. -/
structure ReadsAlike (i : Inst) (t t' : Task) : Prop where
  reads : ∀ r ∈ readsOf t.program.arity? i, t'.read? r = t.read? r
  linkage : 2 ≤ t.base → t'.stack[t.base - 2]? = t.stack[t.base - 2]? ∧
    t'.stack[t.base - 1]? = t.stack[t.base - 1]?

/-- In states that agree on what an instruction reads it makes the same change. -/
theorem exec_alike {i : Inst} (h : Beside t w t' w') (ha : ReadsAlike i t t') (hroom : i.HasRoom) :
    Same (MayWrite i t w.pool) t w t' w' (Step.exec i t w) (Step.exec i t' w') := by
  have hdef : ∀ r ∈ i.defs, MayWrite i t w.pool (t.base + r) := fun r hr =>
    .inr ⟨r, List.mem_append_left _ hr, rfl⟩
  have hlink : ∀ r ∈ linkage w.pool i, MayWrite i t w.pool (t.base + r) := fun r hr =>
    .inr ⟨r, List.mem_append_right _ hr, rfl⟩
  have hread := ha.reads
  unfold readsOf at hread
  -- each instruction reads what `readsOf` says, and puts its result where `MayWrite` allows
  cases i with
  | intConst d | boolConst d | floatConst d => exact h.put (hdef d (List.mem_singleton_self d))
  | move d s =>
    exact h.withReg (hread s (List.mem_singleton_self s)) fun v _ =>
      h.put (hdef d (List.mem_singleton_self d))
  | arith op d s =>
    refine h.withReg (hread s (by simp [Inst.uses])) fun v _ => ?_
    exact h.arith (hread d (by simp [Inst.uses])) (hdef d (List.mem_singleton_self d)) op _
  | arithConst op d x =>
    exact h.arith (hread d (List.mem_singleton_self d)) (hdef d (List.mem_singleton_self d)) op _
  | negate d =>
    rw [Step.exec, Step.exec]
    refine h.withReg (hread d (List.mem_singleton_self d)) fun v _ => ?_
    cases v.int64 with
    | error e => exact h.ended _
    | ok n => exact h.put (hdef d (List.mem_singleton_self d))
  | branch c offset l r =>
    refine h.withReg (hread r (by simp [Inst.uses])) fun v _ => ?_
    exact h.branch (hread l (by simp [Inst.uses])) c offset _
  | branchConst c offset l x => exact h.branch (hread l (List.mem_singleton_self l)) c offset _
  | jump offset => exact h.jump offset
  | load d g =>
    rw [Step.exec, Step.exec, h.globals]
    cases w.globals[g.index]? with
    | none => exact h.crashed
    | some v => exact h.put (hdef d (List.mem_singleton_self d))
  | store s g =>
    rw [Step.exec, Step.exec]
    exact h.withReg (hread s (List.mem_singleton_self s)) fun v _ => h.store g v
  | call n shift =>
    exact h.enter n hroom (hlink _ (by simp [linkage])) (hlink _ (by simp [linkage]))
  | spawn n shift =>
    refine h.spawn n hroom (hdef _ ?_) (fun htake => ⟨hlink _ ?_, hlink _ ?_⟩) fun k hk => ?_
    · simp [Inst.defs, Inst.below, show 3 ≤ shift from hroom]
    · simp [linkage, htake]
    · simp [linkage, htake]
    · exact hread _ (List.mem_range'_1.mpr ⟨Nat.le_add_right _ _, Nat.add_lt_add_left hk _⟩)
  | join r =>
    exact h.join (hdef r (List.mem_singleton_self r)) (hread r (by simp [Inst.uses]))
      (hread (r + 1) (by simp [Inst.uses]))
  | ret s =>
    exact h.withReg (hread s (List.mem_singleton_self s)) fun v _ =>
      h.leave v (fun n hn => .inl hn) ha.linkage
  | retConst x => exact h.leave (.int x) (fun n hn => .inl hn) ha.linkage
  | print s | printBool s =>
    exact h.withReg (hread s (List.mem_singleton_self s)) fun v _ => h.printLine _
  | stop => exact h.crashed

/-- What an instruction writes lies within the frame that it asks for. -/
theorem le_maxReg {i : Inst} {pool : Pool} (hroom : i.HasRoom) {r : Nat}
    (hr : r ∈ i.defs ++ linkage pool i) : ∃ m, i.maxReg? = some m ∧ r ≤ m := by
  cases i with
  | call n shift =>
    refine ⟨shift - 1, rfl, ?_⟩
    simp [Inst.defs, Inst.below, linkage, show 2 ≤ shift from hroom] at hr
    omega
  | spawn n shift =>
    have hs : 3 ≤ shift := hroom
    refine ⟨shift - 1, rfl, ?_⟩
    simp only [Inst.defs, Inst.below, linkage, if_pos hs] at hr
    split at hr <;> simp at hr <;> omega
  | join d =>
    obtain rfl := List.mem_singleton.mp (show r ∈ [d] from hr)
    exact ⟨r + 1, rfl, Nat.le_succ r⟩
  | ret _ | retConst _ => exact absurd hr (by simp [Inst.defs, linkage])
  | _ => exact exists_maxReg rfl (by simpa [linkage] using hr)

/-! ### What is not touched -/

/-- The task that takes a step, as it is then. -/
def Step.task? : Step → Option Task
  | .next t _ | .spawned t _ _ | .suspended t _ | .ended t _ _ => some t
  | .crashed _ => none

/-- A task with something else in one slot of its stack. -/
def Task.overwrite (n : Nat) (v : Slot) (t : Task) : Task :=
  { t with stack := t.stack.setIfInBounds n v }

/-- A step that leaves something else in one slot of the stack. -/
def Step.overwrite (n : Nat) (v : Slot) : Step → Step
  | .next t w => .next (t.overwrite n v) w
  | .spawned t child w => .spawned (t.overwrite n v) child w
  | .suspended t w => .suspended (t.overwrite n v) w
  | .ended t outcome w => .ended (t.overwrite n v) outcome w
  | .crashed w => .crashed w

/-- Slots that are not written stay. -/
theorem writeSlots_getElem? {stack : Array Slot} {writes : List (Nat × Slot)} {n : Nat}
    (h : ∀ x ∈ writes, x.1 ≠ n) : (writeSlots stack writes)[n]? = stack[n]? := by
  induction writes generalizing stack with
  | nil => rfl
  | cons x writes ih =>
    obtain ⟨hx, hrest⟩ := List.forall_mem_cons.mp h
    exact (ih hrest).trans (Array.getElem?_setIfInBounds_ne hx)

theorem writeSlots_overwrite {stack : Array Slot} {writes : List (Nat × Slot)} {n : Nat}
    (h : ∀ x ∈ writes, x.1 ≠ n) (v : Slot) :
    writeSlots (stack.setIfInBounds n v) writes = (writeSlots stack writes).setIfInBounds n v := by
  induction writes generalizing stack with
  | nil => rfl
  | cons x writes ih =>
    obtain ⟨hx, hrest⟩ := List.forall_mem_cons.mp h
    refine Eq.trans ?_ (ih hrest)
    exact congrArg (writeSlots · writes) (Array.setIfInBounds_comm v x.2 (Ne.symm hx))

namespace Change

variable {d : Change}

theorem task?_on {t₁ : Task} (h : (d.on t w).task? = some t₁) :
    t₁.stack = writeSlots t.stack d.writes := by
  unfold on at h
  split at h <;> first | (obtain rfl := Option.some.inj h; rfl) | cases h

theorem on_overwrite {n : Nat} (h : ∀ x ∈ d.writes, x.1 ≠ n) (v : Slot) :
    d.on (t.overwrite n v) w = (d.on t w).overwrite n v := by
  unfold on Task.overwrite
  dsimp only
  rw [writeSlots_overwrite h]
  cases d.kind <;> rfl

end Change

theorem beside_refl (t : Task) (w : World) : Beside t w t w :=
  .mk t.id t.stack t.children w.printed rfl

theorem beside_overwrite (t : Task) (w : World) (n : Nat) (v : Slot) :
    Beside t w (t.overwrite n v) w :=
  .mk t.id _ t.children w.printed (Array.size_setIfInBounds ..)

/-- What the tables of operands say of an instruction is what the machine does:

* Of the registers of the frame it changes only those that it defines, and the linkage.
* In states at the same place that agree on the registers that it reads, the linkage below the
  frame, the globals and the pool it makes the same change: the same kind of step to the same place,
  the same values in the same slots, the same lines, globals and pool.
* It does not touch the registers above the highest one that it asks for, other than those that it
  reads: whatever is in one of them stays there, and nothing else depends on it. -/
theorem exec_footprint {i : Inst} (hroom : i.HasRoom) (t : Task) (w : World) :
    (∀ t₁, (Step.exec i t w).task? = some t₁ → ∀ r, r ∉ i.defs → r ∉ linkage w.pool i →
      t₁.stack[t.base + r]? = t.stack[t.base + r]?) ∧
    (∀ t' w', Beside t w t' w' → ReadsAlike i t t' →
      ∃ d : Change, Step.exec i t w = d.on t w ∧ Step.exec i t' w' = d.on t' w' ∧
        ∀ x ∈ d.writes, MayWrite i t w.pool x.1) ∧
    ∀ r v, (∀ m, i.maxReg? = some m → m < r) → r ∉ readsOf t.program.arity? i →
      Step.exec i (t.overwrite (t.base + r) v) w = (Step.exec i t w).overwrite (t.base + r) v := by
  -- a register that is not written is no slot of a change
  have hapart : ∀ {d : Change} {r : Nat}, (∀ x ∈ d.writes, MayWrite i t w.pool x.1) →
      r ∉ i.defs ++ linkage w.pool i → ∀ x ∈ d.writes, x.1 ≠ t.base + r := by
    rintro d r hd hr x hx heq
    rcases hd x hx with hlow | ⟨s, hs, hxs⟩
    · omega
    · obtain rfl := Nat.add_left_cancel (hxs.symm.trans heq)
      exact hr hs
  refine ⟨fun t₁ ht₁ r hdef hlink => ?_, fun t' w' h ha => exec_alike h ha hroom,
    fun r v hr hread => ?_⟩
  · have ha : ReadsAlike i t t := ⟨fun _ _ => rfl, fun _ => ⟨rfl, rfl⟩⟩
    obtain ⟨d, hd, -, hwrites⟩ := exec_alike (beside_refl t w) ha hroom
    rw [hd] at ht₁
    rw [Change.task?_on ht₁, writeSlots_getElem? (hapart hwrites (by simp [hdef, hlink]))]
  · have hne : ∀ n, n ≠ t.base + r → (t.overwrite (t.base + r) v).stack[n]? = t.stack[n]? :=
      fun n hn => Array.getElem?_setIfInBounds_ne hn.symm
    have ha : ReadsAlike i t (t.overwrite (t.base + r) v) := by
      refine ⟨fun s hs => hne _ fun heq => hread ?_, fun _ => ⟨hne _ (by omega), hne _ (by omega)⟩⟩
      obtain rfl : s = r := Nat.add_left_cancel heq
      exact hs
    obtain ⟨d, hd, hd', hwrites⟩ := exec_alike (beside_overwrite t w (t.base + r) v) ha hroom
    rw [hd, hd', Change.on_overwrite]
    refine hapart hwrites fun hmem => ?_
    obtain ⟨m, hm, hle⟩ := le_maxReg hroom hmem
    exact Nat.not_lt_of_le hle (hr m hm)

/-- A task that is about to start another one for a function with one argument. -/
def starting : Task :=
  .root 8 ⟨#[some (lower #[.ret 0, .stop] 1)], lower #[.spawn 0 4, .join 1, .ret 1, .stop] 0⟩

/-- It leaves its first register as it is, and what lies above the argument does not matter. -/
theorem exec_footprint_starting :
    (Inst.spawn 0 4).HasRoom ∧
      (∀ t, (Step.exec (.spawn 0 4) starting ⟨#[], #[], .ofSize 1 8⟩).task? = some t →
        t.stack[0]? = some .empty) ∧
      Step.exec (.spawn 0 4) (starting.overwrite 5 (.int 7)) ⟨#[], #[], .ofSize 1 8⟩ =
        (Step.exec (.spawn 0 4) starting ⟨#[], #[], .ofSize 1 8⟩).overwrite 5 (.int 7) := by
  have hroom : (Inst.spawn 0 4).HasRoom := by decide
  obtain ⟨hkept, -, hapart⟩ := exec_footprint hroom starting ⟨#[], #[], .ofSize 1 8⟩
  refine ⟨hroom, fun t ht => ?_, hapart 5 (.int 7) (fun m hm => ?_) (by decide)⟩
  · exact hkept t ht 0 (by decide) (by decide)
  · obtain rfl := Option.some.inj hm
    decide

end

end ForkLisp.Machine
