/-
Tasks that conduct themselves.

`Fulfils` says that a program has the functions that a meaning speaks of. A task `Conducts` itself
if it stands in its code with the registers and the callers that the meaning asks for, and if all
that it may still come to is wanted of it.

`Conducts.step` is about one step: the task goes on conducting itself, or ends in a wanted way. So
it never crashes, however it came to where it stands.
-/
import ForkLisp.Proofs.Machine.Frames

namespace ForkLisp.Machine

open ForkLisp.Code ForkLisp.Behaviour ForkLisp.Reference

variable {H W : Type}

/-- A program has the functions that a meaning speaks of. -/
structure Program.Fulfils (program : Program) (m : Meaning Datum H W) : Prop where
  frameSize : ∀ ref l, program.code? ref = some l → l.frameSize = Machine.frameSize l.code l.arity
  arity : m.arity = fun n => (program.func? n).map (·.arity)
  call : ∀ n l, program.func? n = some l → ∀ args a r, args.length = l.arity →
    m.Runs Meaning.done l.code 0 (Frame.enter args) a r → m.call n args a r

/-- An outcome is a fault or a value of the language. -/
def IsData (outcome : Outcome) : Prop := ∀ slot, outcome = .ok slot → ∃ v : Datum, slot = v.slot

/-- An outcome is one that waiting for `h` can have. -/
def Delivers (m : Meaning Datum H W) (h : H) (outcome : Outcome) (_ : W) : Prop :=
  match outcome with
  | .ok s => ∃ v : Datum, s = v.slot ∧ ∀ a, m.join h a (.value v a)
  | .error e => ∀ a, m.join h a (.fault e a)

/-- A call may be made by a task of its own, which delivers what the call comes to. -/
def Detachable (m : Meaning Datum H W) (n : FuncId) (args : List Datum) (a : W) : Prop :=
  ∃ h, m.spawn n args a (.value h a) ∧ ¬ m.call n args a .stuck ∧
    (∀ v b, m.call n args a (.value v b) → Delivers m h (.ok v.slot) b) ∧
    ∀ e b, m.call n args a (.fault e b) → Delivers m h (.error e) b

/-- What a task may rely on in the pool: a free task can make the calls that may be left to
tasks, has no lease and a stack of the same size, and a task that it waits for delivers
what it promised. -/
structure Furnished (m : Meaning Datum H W) (leases : Leases H) (t : Task)
    (pool : Pool) : Prop where
  taken : ∀ c rest n args a, pool.take? = some (c, rest) → ¬ m.spawn n args a .stuck →
    Detachable m n args a ∧ c.stack.size = t.stack.size ∧ ∃ id, c.id = some id ∧ leases id = none
  joined : ∀ id i h outcome rest, leases id = some ⟨t.id, i, h⟩ →
    pool.join? id = some (outcome, rest) → ∀ a, Delivers m h outcome a

/-- A task stands in its code with a frame `f`, from which it can come to the endings `ends`. -/
structure Standing (m : Meaning Datum H W) (post : Outcome → W → Prop) (leases : Leases H)
    (t : Task) (a : W) (l : Lowered) (f : Frame Datum H) (ends : Ending Datum W → Prop) : Prop where
  lowered : t.lowered? = some l
  room : t.base + l.frameSize ≤ t.stack.size
  fits : Fits m t.id leases t.stack t.base f
  runs : ∀ o, m.Runs Meaning.done l.code t.pc f a o → ends o
  below : Below m t.program t.id post leases t.stack t.base ends

/-- A task stands somewhere from where all that it can come to is wanted. -/
def Conducts (m : Meaning Datum H W) (post : Outcome → W → Prop) (leases : Leases H) (t : Task)
    (a : W) : Prop :=
  ∃ l f ends, Standing m post leases t a l f ends

/-- A task is still the same one. -/
structure Task.Continues (t t' : Task) : Prop where
  id : t'.id = t.id
  program : t'.program = t.program
  size : t'.stack.size = t.stack.size

/-- How a task moves on: within an activation, into a callee or back to a caller. -/
inductive Moves (t t' : Task) : Prop where
  | within (hcode : t'.code = t.code) (hbase : t'.base = t.base) (hpc : t.pc < t'.pc)
      (hslots : ∀ i, i < t.base → t'.stack[i]? = t.stack[i]?)
  | enters (hbase : t.base + 2 ≤ t'.base) (hroom : t'.base ≤ t'.stack.size)
      (hframe : t'.stack[t'.base - 2]? = some (.frame t.base))
      (hreturn : t'.stack[t'.base - 1]? = some (.returnTo t.code (t.pc + 1)))
      (hslots : ∀ i, i < t.base → t'.stack[i]? = t.stack[i]?)
  | leaves (hbase : 2 ≤ t.base) (hframe : t.stack[t.base - 2]? = some (.frame t'.base))
      (hreturn : t.stack[t.base - 1]? = some (.returnTo t'.code t'.pc))
      (hslots : ∀ i, i < t.base - 2 → t'.stack[i]? = t.stack[i]?)

/-- What a step of a task may come to. -/
inductive Advance (m : Meaning Datum H W) (holds : World → W → Prop) (post : Outcome → W → Prop)
    (leases : Leases H) (t : Task) (w : World) (a : W) : Step → Prop where
  | next {t' : Task} {w' : World} {a' : W} {i : Inst} (ht : t.Continues t') (hm : Moves t t')
      (hc : t'.children = t.children) (hp : w'.pool = w.pool) (hw : holds w' a')
      (hi : t.inst? = some i) (he : Undergoes m (t.effects i) a a')
      (h : Conducts m post leases t' a') :
      Advance m holds post leases t w a (.next t' w')
  | joined {r : Reg} {id : TaskId} {lease : Lease H} {outcome : Outcome} {pool : Pool} {t' : Task}
      (ha : t.awaits? = some (r, id)) (ht : t.Continues t') (hl : leases id = some lease)
      (ho : lease.owner = t.id) (hj : w.pool.join? id = some (outcome, pool))
      (hc : t'.children = t.children.filter (· != id))
      (h : Conducts m post (leases.drop id) t' a) :
      Advance m holds post leases t w a (.next t' { w with pool })
  | ended {t' : Task} {w' : World} {outcome : Outcome} (ht : t.Continues t')
      (hc : t'.children = t.children) (hp : w'.pool = w.pool) (hw : holds w' a)
      (h : post outcome a) : Advance m holds post leases t w a (.ended t' outcome w')
  | failed {r : Reg} {id : TaskId} {lease : Lease H} {outcome e : Outcome} {pool : Pool} {t' : Task}
      (ha : t.awaits? = some (r, id)) (ht : t.Continues t') (hl : leases id = some lease)
      (ho : lease.owner = t.id) (hj : w.pool.join? id = some (outcome, pool))
      (hc : t'.children = t.children.filter (· != id)) (h : post e a) :
      Advance m holds post leases t w a (.ended t' e { w with pool })
  | spawned {c t' : Task} {id : TaskId} (lease : Lease H) {n : FuncId} {args : List Datum}
      {pool : Pool} (hs : ¬ m.spawn n args a .stuck) (ht : t.Continues t')
      (htake : w.pool.take? = some (c, pool)) (hid : c.id = some id) (ho : lease.owner = t.id)
      (hslot : t.handleSlot? = some lease.slot) (hc : t'.children = t.children ++ [id])
      (h : Conducts m post (leases.start id lease) t' a)
      (hchild : ∀ leases', Conducts m (Delivers m lease.handle) leases'
        (c.start t.program n (args.map Datum.slot)) a) :
      Advance m holds post leases t w a
        (.spawned t' (c.start t.program n (args.map Datum.slot)) { w with pool })
  | suspended {r : Reg} {id : TaskId} {lease : Lease H} (ha : t.awaits? = some (r, id))
      (hl : leases id = some lease) (ho : lease.owner = t.id) (hj : w.pool.join? id = none) :
      Advance m holds post leases t w a (.suspended t w)

/-- What becomes of a task that goes on with the outcome of the task `id`. -/
inductive Resumed (m : Meaning Datum H W) (post : Outcome → W → Prop) (leases : Leases H) (t : Task)
    (a : W) (id : TaskId) (w : World) : Step → Prop where
  | next {t' : Task} (ht : t.Continues t') (hc : t'.children = t.children.filter (· != id))
      (h : Conducts m post (leases.drop id) t' a) : Resumed m post leases t a id w (.next t' w)
  | ended {t' : Task} {e : Outcome} (ht : t.Continues t')
      (hc : t'.children = t.children.filter (· != id)) (h : post e a) :
      Resumed m post leases t a id w (.ended t' e w)

/-! ### Reading and writing -/

section

variable {m : Meaning Datum H W} {holds : World → W → Prop} {post : Outcome → W → Prop}
  {leases leases' : Leases H} {t : Task} {w w' : World} {a a' : W} {l : Lowered}
  {f f' : Frame Datum H} {ends : Ending Datum W → Prop}

theorem frameSize_gt {code : ForkLisp.Code} {arity pc : Nat} {i : Inst} {r d : Nat}
    (hi : code[pc]? = some i) (hr : i.maxReg? = some r) (hd : d ≤ r) :
    d < frameSize code arity := by
  obtain ⟨hlt, hget⟩ := Array.getElem?_eq_some_iff.mp hi
  have hmem : r + 1 ∈ (code.toList.filterMap Inst.maxReg?).map (· + 1) := by
    refine List.mem_map.mpr ⟨r, List.mem_filterMap.mpr ⟨i, ?_, hr⟩, rfl⟩
    rw [← hget]
    exact Array.getElem_mem_toList hlt
  unfold frameSize
  have hmax := List.le_max?_getD_of_mem (k := 0) hmem
  exact Nat.lt_of_lt_of_le (Nat.lt_succ_of_le hd) (Nat.le_trans hmax (Nat.le_max_right _ _))

namespace Standing

theorem inst (h : Standing m post leases t a l f ends) : ∃ i, l.code[t.pc]? = some i := by
  cases hi : l.code[t.pc]? with
  | some i => exact ⟨i, rfl⟩
  | none =>
    refine absurd (h.runs .stuck ?_) h.below.not_stuck
    rw [Meaning.Runs]
    intro i hi'
    rw [hi] at hi'
    exact absurd hi' (by simp)

theorem inst?_eq (h : Standing m post leases t a l f ends) {i : Inst}
    (hi : l.code[t.pc]? = some i) :
    t.inst? = some i := by
  unfold Task.inst?
  rw [h.lowered]
  exact hi

/-- The same activation at another place of its code. -/
theorem go (h : Standing m post leases t a l f ends) {stack : Array Slot} {children : List TaskId}
    {pc : Nat} (ha : Agree t.id t.base leases leases' t.stack stack)
    (hfits : Fits m t.id leases' stack t.base f')
    (hruns : ∀ o, m.Runs Meaning.done l.code pc f' a' o → ends o) :
    Conducts m post leases' { t with stack, pc, children } a' := by
  refine ⟨l, f', ends, h.lowered, ?_, hfits, hruns, h.below.agree ha⟩
  show t.base + l.frameSize ≤ stack.size
  rw [ha.size]
  exact h.room

theorem fault (h : Standing m post leases t a l f ends) (hw : holds w a) {e : Fault}
    (he : ends (.fault e a)) : Advance m holds post leases t w a (.ended t (.error e) w) :=
  .ended ⟨rfl, rfl, rfl⟩ rfl rfl hw (h.below.fault he)

/-! ### Returns -/

theorem leave (h : Standing m post leases t a l f ends) (hw : holds w a) {i : Inst}
    (hi : t.inst? = some i) (hquiet : t.effects i = []) {v : Datum} (hend : ends (.value v a)) :
    Advance m holds post leases t w a (Step.leave v.slot t w) := by
  have hbelow := h.below
  unfold Step.leave
  by_cases h0 : t.base = 0
  · rw [if_pos h0]
    refine .ended ⟨rfl, rfl, rfl⟩ rfl rfl hw ?_
    rw [h0] at hbelow
    cases hbelow with
    | bottom _ hv _ => exact hv v a hend
    | caller _ hle => exact absurd hle (by omega)
  · rw [if_neg h0]
    generalize hb : t.base = base at hbelow h0
    cases hbelow with
    | bottom => exact absurd rfl h0
    | caller _ hle hframe hreturn hl hroom _ hv hbelow =>
      rw [if_neg (by omega), hframe, hreturn]
      have hlt : base - 2 < t.stack.size := (Array.getElem?_eq_some_iff.mp hframe).1
      have hagree := Agree.set t.id leases t.stack (base - 2) v.slot
      obtain ⟨f', hfits, hruns⟩ := hv v a leases _ hend hagree
        (Array.getElem?_setIfInBounds_self_of_lt hlt)
      rw [← hagree.size] at hroom
      exact .next ⟨rfl, rfl, hagree.size⟩
        (.leaves (by omega) (by rw [hb, hframe]) (by rw [hb, hreturn])
          (by rw [hb]; exact hagree.slots))
        rfl rfl hw hi (.of_eq_nil hquiet)
        ⟨_, f', _, hl, hroom, hfits, hruns, hbelow.agree (hagree.mono (by omega))⟩

/-! ### Calls -/

/-- Entering a function from a stack whose slots below the frame are those of the task. -/
theorem enter (h : Standing m post leases t a l f ends) (hm : Describes m holds)
    (hp : t.program.Fulfils m) (hw : holds w a) {i : Inst} (hi : t.inst? = some i)
    (hquiet : t.effects i = []) {n : FuncId} {args : List Datum} {shift : Nat}
    {stack : Array Slot} (hn : m.arity n = some args.length) (hs : 2 ≤ shift)
    (hshift : shift ≤ l.frameSize) (hcall : ¬ m.call n args a .stuck)
    (ha : Agree t.id t.base leases leases t.stack stack)
    (hargs : ∀ j v, args[j]? = some v → stack[t.base + shift + j]? = some v.slot)
    (he : ∀ e b, m.call n args a (.fault e b) → ends (.fault e b))
    (hv : ∀ v b leases' stack', m.call n args a (.value v b) →
      Agree t.id (t.base + shift - 2) leases leases' stack stack' →
      stack'[t.base + shift - 2]? = some v.slot → ∃ f', Fits m t.id leases' stack' t.base f' ∧
        ∀ o, m.Runs Meaning.done l.code (t.pc + 1) f' b o → ends o) :
    Advance m holds post leases t w a (Step.enter n shift { t with stack } w) := by
  rw [hp.arity] at hn
  obtain ⟨callee, hcallee, hlen⟩ := Option.map_eq_some_iff.mp hn
  have htop : t.base + shift ≤ stack.size := by
    rw [ha.size]
    exact Nat.le_trans (Nat.add_le_add_left hshift _) h.room
  -- either the frame of the callee does not fit, or the return address is linked in below it
  rcases Step.enter_eq (t := { t with stack }) hcallee hs htop w with
    hfull | ⟨linked, henter, hroom, hsize, hframe, hreturn, hslots⟩
  · rw [hfull]
    exact .ended ⟨rfl, rfl, ha.size⟩ rfl rfl hw (h.below.fault (he _ a (hm.overflow n args a)))
  rw [henter]
  dsimp only at hroom hsize hframe hreturn hslots
  have hset : Agree t.id (t.base + shift - 2) leases leases stack linked :=
    ⟨hsize, fun i hi => hslots i (by omega) (by omega), fun _ _ _ _ hl => hl⟩
  have hall := ha.trans (hset.mono (by omega))
  have hbelow : Below m t.program t.id post leases linked (t.base + shift) (m.call n args a) := by
    refine .caller hcall (Nat.add_le_add_left hs _) hframe hreturn h.lowered ?_ he ?_
      (h.below.agree hall)
    · rw [hall.size]
      exact h.room
    · intro v b leases' stack' hcv hagree hslot
      exact hv v b leases' stack' hcv (hset.trans hagree) hslot
  refine .next ⟨rfl, rfl, hall.size⟩
    (.enters (Nat.add_le_add_left hs _) (by rw [hsize]; exact htop) hframe hreturn hall.slots)
      rfl rfl hw hi (.of_eq_nil hquiet)
    ⟨callee, Frame.enter args, _, hcallee, hroom, .enter fun j v hj => ?_,
      fun o ho => hp.call n callee hcallee args a o hlen.symm ho, hbelow⟩
  exact (hslots _ (by dsimp only; omega) (by dsimp only; omega)).trans (hargs j v hj)

theorem call (h : Standing m post leases t a l f ends) (hm : Describes m holds)
    (hp : t.program.Fulfils m) (hw : holds w a) {n : FuncId} {shift : Reg}
    (hi : l.code[t.pc]? = some (.call n shift)) (hshift : shift ≤ l.frameSize)
    (hruns : ∀ o, m.exec Meaning.done o t.pc (.call n shift) f a
      (fun pc f b => t.pc < pc → m.Runs Meaning.done l.code pc f b o) → ends o) :
    Advance m holds post leases t w a (Step.enter n shift t w) := by
  obtain ⟨args, hn, hs, hargs, hc, hcall, he, hv⟩ := exec_call h.below.not_stuck hruns
  exact h.enter hm hp hw (h.inst?_eq hi) rfl hn hs hshift hcall (.refl _ _ _)
    (h.fits.arguments hargs) he fun v b leases' stack' hr hagree hslot =>
      ⟨_, h.fits.afterCall hs hc hagree hslot, hv v b hr⟩

end Standing

/-! ### Tasks -/

theorem size_writeAll (stack : Array Slot) (i : Nat) (vs : List Slot) :
    (Task.writeAll stack i vs).size = stack.size := by
  induction vs generalizing stack i with
  | nil => rfl
  | cons v vs ih => rw [Task.writeAll, ih, Array.size_setIfInBounds]

theorem writeAll_of_lt {stack : Array Slot} {i j : Nat} (h : j < i) (vs : List Slot) :
    (Task.writeAll stack i vs)[j]? = stack[j]? := by
  induction vs generalizing stack i with
  | nil => rfl
  | cons v vs ih => rw [Task.writeAll, ih (by omega), Array.getElem?_setIfInBounds_ne (by omega)]

theorem writeAll_add {stack : Array Slot} {i j : Nat} {vs : List Slot}
    (hi : i + vs.length ≤ stack.size) (hj : j < vs.length) :
    (Task.writeAll stack i vs)[i + j]? = vs[j]? := by
  induction vs generalizing stack i j with
  | nil => exact absurd hj (Nat.not_lt_zero j)
  | cons v vs ih =>
    rw [List.length_cons] at hi hj
    rw [Task.writeAll]
    cases j with
    | zero =>
      show (Task.writeAll (stack.setIfInBounds i v) (i + 1) vs)[i]? = some v
      rw [writeAll_of_lt (by omega), Array.getElem?_setIfInBounds_self_of_lt (by omega)]
    | succ j =>
      rw [show i + (j + 1) = i + 1 + j by omega,
        ih (by rw [Array.size_setIfInBounds]; omega) (by omega), List.getElem?_cons_succ]

/-- Arguments that stand side by side on a stack. -/
theorem extract_eq {stack : Array Slot} {i : Nat} {args : List Datum}
    (h : ∀ j v, args[j]? = some v → stack[i + j]? = some v.slot) :
    (stack.extract i (i + args.length)).toList = args.map Datum.slot := by
  have hslot : ∀ j, j < args.length → stack[i + j]? = (args.map Datum.slot)[j]? := by
    intro j hj
    rw [h j _ (List.getElem?_eq_getElem hj), List.getElem?_map, List.getElem?_eq_getElem hj,
      Option.map_some]
  refine List.ext_getElem? fun j => ?_
  rw [Array.getElem?_toList, Array.getElem?_extract]
  split
  · rename_i hj
    exact hslot j (by omega)
  · rename_i hj
    by_cases hlt : j < args.length
    · -- then the slot lies on the stack
      have hin := hslot j hlt
      rw [List.getElem?_eq_getElem (by simpa using hlt)] at hin
      have := (Array.getElem?_eq_some_iff.mp hin).1
      exact absurd hj (by omega)
    · rw [List.getElem?_eq_none]
      rw [List.length_map]
      omega

/-- A task that is started with a function conducts itself. -/
theorem conducts_start {program : Program} (hp : program.Fulfils m) {n : FuncId} {callee : Lowered}
    (hcallee : program.func? n = some callee) {args : List Datum} (hn : args.length = callee.arity)
    {c : Task} (hroom : callee.frameSize ≤ c.stack.size) (hs : ¬ m.call n args a .stuck)
    (hv : ∀ v b, m.call n args a (.value v b) → post (.ok v.slot) b)
    (he : ∀ e b, m.call n args a (.fault e b) → post (.error e) b) :
    Conducts m post leases (c.start program n (args.map Datum.slot)) a := by
  have harity : args.length ≤ callee.frameSize := by
    rw [hn, hp.frameSize (.func n) callee hcallee]
    exact Nat.le_max_left _ _
  refine ⟨callee, Frame.enter args, m.call n args a, hcallee, ?_, ?_,
    fun o ho => hp.call n callee hcallee args a o hn ho, .bottom hs hv he⟩
  · show 0 + callee.frameSize ≤ (Task.writeAll c.stack 0 _).size
    rw [size_writeAll, Nat.zero_add]
    exact hroom
  · refine Fits.enter fun j v hj => ?_
    have hlt := (List.getElem?_eq_some_iff.mp hj).1
    show (Task.writeAll c.stack 0 _)[0 + j]? = _
    rw [writeAll_add (by rw [List.length_map]; omega) (by rw [List.length_map]; exact hlt),
      List.getElem?_map, hj, Option.map_some]

namespace Standing

theorem args_eq (h : Standing m post leases t a l f ends) {shift : Nat} {args : List Datum}
    (hargs : f.Holds shift args) :
    (t.stack.extract (t.base + shift) (t.base + shift + args.length)).toList =
      args.map Datum.slot :=
  extract_eq (h.fits.arguments hargs)

theorem spawn (h : Standing m post leases t a l f ends) (hm : Describes m holds)
    (hp : t.program.Fulfils m) (hf : Furnished m leases t w.pool) (hw : holds w a) {n : FuncId}
    {shift : Reg} (hi : l.code[t.pc]? = some (.spawn n shift)) (hshift : shift ≤ l.frameSize)
    (hruns : ∀ o, m.exec Meaning.done o t.pc (.spawn n shift) f a
      (fun pc f b => t.pc < pc → m.Runs Meaning.done l.code pc f b o) → ends o) :
    Advance m holds post leases t w a (Step.spawn n shift t w) := by
  obtain ⟨args, hn, hs, hargs, hc, hspawn, he, hv⟩ := exec_spawn h.below.not_stuck hruns
  have hn' := hn
  rw [hp.arity] at hn'
  obtain ⟨callee, hcallee, hlen⟩ := Option.map_eq_some_iff.mp hn'
  have hthree : t.base + 3 ≤ t.base + shift := Nat.add_le_add_left hs _
  have htop : t.base + shift ≤ t.stack.size :=
    Nat.le_trans (Nat.add_le_add_left hshift _) h.room
  have hslot : t.base + (shift - 3) = t.base + shift - 3 := (Nat.add_sub_assoc hs _).symm
  unfold Step.spawn
  simp only [hcallee]
  split
  · exact h.fault hw (he _ a (hm.spawn n args a _ (hm.overflow n args a)))
  · rename_i hfit
    rw [if_neg (Nat.not_lt.mpr hs)]
    have hwrite : ∀ (s : Slot) (w : World) (k : Task → World → Step),
        Step.write (shift - 3) s t w k =
          k { t with stack := t.stack.setIfInBounds (t.base + shift - 3) s } w := by
      intro s w k
      rw [Step.write_of_lt (by omega), hslot]
    -- with no free task the function is called, and the handle says that the result follows it
    cases htake : w.pool.take? with
    | none =>
      simp only [hwrite]
      have hset := Agree.set t.id leases t.stack (t.base + shift - 3) (.future none)
      refine h.enter hm hp hw (h.inst?_eq hi) rfl hn (Nat.le_trans (by decide) hs) hshift
        (fun hr => hspawn (hm.spawn n args a _ hr)) (hset.mono (by omega)) ?_
        (fun e b hr => he e b (hm.spawn n args a _ hr)) ?_
      · intro j v hj
        rw [Array.getElem?_setIfInBounds_ne (by omega)]
        exact h.fits.arguments hargs j v hj
      · intro v b leases' stack' hr hagree hresult
        obtain ⟨p, hp, hjoin⟩ := hm.spawn n args a _ hr
        refine ⟨_, h.fits.afterSpawn hs hc (hset.trans (hagree.mono (by omega))) (p := p) ?_,
          hv p b hp⟩
        refine .inl ⟨?_, v, ?_, hjoin⟩
        · rw [hagree.slots _ (by omega), Array.getElem?_setIfInBounds_self_of_lt (by omega)]
        · rw [show t.base + shift - 3 + 1 = t.base + shift - 2 by omega, hresult]
    | some taken =>
      obtain ⟨c, pool⟩ := taken
      obtain ⟨⟨p, hp', hcall, hvalue, hfault⟩, hsize, id, hid, hfree⟩ :=
        hf.taken c pool n args a htake hspawn
      simp only [hlen, h.args_eq hargs, List.length_map, Nat.lt_irrefl, if_false, hwrite]
      have hset := Agree.set t.id leases t.stack (t.base + shift - 3) (.future c.id)
      have hstart : Agree t.id (t.base + shift - 3) leases
          (leases.start id ⟨t.id, t.base + shift - 3, p⟩) t.stack
          (t.stack.setIfInBounds (t.base + shift - 3) (.future c.id)) :=
        hset.trans (Agree.start hfree)
      refine .spawned ⟨t.id, t.base + shift - 3, p⟩ hspawn ⟨rfl, rfl, hset.size⟩ htake hid rfl
        (by simp only [Task.handleSlot?, h.inst?_eq hi]) (by rw [hid]; rfl)
        (h.go (hstart.mono (by omega)) ?_ (hv p a hp')) fun leases' => ?_
      · refine h.fits.afterSpawn hs hc hstart (.inr ⟨id, ?_, Leases.start_self _ _ _⟩)
        rw [Array.getElem?_setIfInBounds_self_of_lt (by omega), hid]
      · exact conducts_start hp hcallee hlen.symm (hsize ▸ Nat.le_of_not_lt hfit)
          hcall hvalue hfault

/-- The handle at a join, and what follows it. -/
theorem handle (h : Standing m post leases t a l f ends) {r : Reg}
    (hi : l.code[t.pc]? = some (.join r)) :
    ∃ p, f.pend r = some p ∧ f.Unshadowed r ∧
      (∀ e b, m.join p a (.fault e b) → ends (.fault e b)) ∧
      ∀ v b, m.join p a (.value v b) →
        Leads (fun o pc f b => m.Runs Meaning.done l.code pc f b o) ends (t.pc + 1)
          (f.afterJoin r v) b :=
  exec_join h.below.not_stuck fun o ho => h.runs o ((Meaning.runs_iff hi).mpr ho)

theorem put_eq (h : Standing m post leases t a l f ends) {r : Reg} (hr : r < l.frameSize)
    (v : Datum) (t' : Task) (hstack : t'.stack = t.stack) (hbase : t'.base = t.base) (w : World) :
    Step.put r v.slot t' w = .next
      { t' with stack := t.stack.setIfInBounds (t.base + r) v.slot, pc := t'.pc + 1 } w := by
  have hlt : t'.base + r < t'.stack.size := by
    rw [hstack, hbase]
    exact Nat.lt_of_lt_of_le (Nat.add_lt_add_left hr _) h.room
  unfold Step.put Step.advance
  rw [Step.write_of_lt hlt, hstack, hbase]

/-- A task goes on with an outcome that the lease allows. -/
theorem resume (h : Standing m post leases t a l f ends) {r : Reg}
    (hi : l.code[t.pc]? = some (.join r)) (hr : r < l.frameSize) {id : TaskId} {p : H}
    (hp : f.pend r = some p) (hlease : leases id = some ⟨t.id, t.base + r, p⟩) {outcome : Outcome}
    (hd : Delivers m p outcome a) (w : World) :
    Resumed m post leases t a id w (Step.resume r id outcome t w) := by
  obtain ⟨p', hp', hu, he, hv⟩ := h.handle hi
  obtain rfl := Option.some.inj (hp.symm.trans hp')
  cases outcome with
  | error e => exact .ended ⟨rfl, rfl, rfl⟩ rfl (h.below.fault (he e a (hd a)))
  | ok s =>
    obtain ⟨v, rfl, hjoin⟩ := hd
    show Resumed m post leases t a id w
      (Step.put r v.slot { t with children := t.children.filter (· != id) } w)
    have hset := Agree.set t.id leases t.stack (t.base + r) v.slot
    rw [h.put_eq hr v { t with children := t.children.filter (· != id) } rfl rfl]
    have hdrop : Agree t.id t.base leases (leases.drop id) t.stack
        (t.stack.setIfInBounds (t.base + r) v.slot) :=
      (hset.mono (Nat.le_add_right _ _)).trans (Agree.drop hlease fun _ => Nat.le_add_right _ _)
    refine .next ⟨rfl, rfl, hset.size⟩ rfl (h.go hdrop ?_ (hv v a (hjoin a)))
    refine h.fits.afterJoin hp hu (fun id' i q hi hl => ?_) v
    rw [Leases.drop_of_ne, hl]
    rintro rfl
    rw [hlease, Option.some_inj, Lease.mk.injEq] at hl
    exact hi hl.2.1.symm

theorem join (h : Standing m post leases t a l f ends) (hf : Furnished m leases t w.pool)
    (hw : holds w a) {r : Reg} (hi : l.code[t.pc]? = some (.join r)) (hr : r < l.frameSize) :
    Advance m holds post leases t w a (Step.join r t w) := by
  obtain ⟨p, hp, hu, -, hv⟩ := h.handle hi
  unfold Step.join Step.withReg Task.read?
  rcases h.fits.pend r p hp with ⟨hslot, v, hresult, hjoin⟩ | ⟨id, hslot, hlease⟩
  · rw [Nat.add_assoc] at hresult
    simp only [hslot, hresult]
    rw [h.put_eq hr v _ rfl rfl]
    have hset := Agree.set t.id leases t.stack (t.base + r) v.slot
    have ha := hset.mono (Nat.le_add_right t.base r)
    exact .next ⟨rfl, rfl, ha.size⟩ (.within rfl rfl (Nat.lt_succ_self _) ha.slots) rfl rfl hw
      (h.inst?_eq hi) .nil
      (h.go ha (h.fits.afterJoin hp hu (fun _ _ _ _ hl => hl) v) (hv v a (hjoin a)))
  · have hawaits : t.awaits? = some (r, id) := by
      simp only [Task.awaits?, h.inst?_eq hi, Task.read?, hslot]
    simp only [hslot]
    cases hj : w.pool.join? id with
    | none => exact .suspended hawaits hlease rfl hj
    | some found =>
      obtain ⟨outcome, pool⟩ := found
      have hresumed := h.resume hi hr hp hlease (hf.joined id _ p outcome pool hlease hj a)
        { w with pool }
      dsimp only
      generalize Step.resume r id outcome t { w with pool } = s at hresumed
      cases hresumed with
      | next ht hc h' => exact .joined hawaits ht hlease rfl hj hc h'
      | ended ht hc hpost => exact .failed hawaits ht hlease rfl hj hc hpost

/-! ### Instructions -/

theorem exec (h : Standing m post leases t a l f ends) (hm : Describes m holds)
    (hp : t.program.Fulfils m) (hf : Furnished m leases t w.pool) (hw : holds w a) {i : Inst}
    (hi : l.code[t.pc]? = some i)
    (hruns : ∀ o, m.exec Meaning.done o t.pc i f a
      (fun pc f b => t.pc < pc → m.Runs Meaning.done l.code pc f b o) → ends o) :
    Advance m holds post leases t w a (Step.exec i t w) := by
  have hlt : ∀ {r d : Nat}, i.maxReg? = some r → d ≤ r → d < l.frameSize := by
    obtain ⟨ref, href⟩ : ∃ ref, t.program.code? ref = some l := ⟨t.code, h.lowered⟩
    intro r d hr hd
    rw [hp.frameSize ref l href]
    exact frameSize_gt hi hr hd
  by_cases hin : isInner i = true
  · have hroom : ∀ d ∈ i.defs, t.base + d < t.stack.size := by
      intro d hd
      obtain ⟨k, hk, hdk⟩ := exists_maxReg hin hd
      exact Nat.lt_of_lt_of_le (Nat.add_lt_add_left (hlt hk hdk) _) h.room
    have hstays := exec_inside hm h.fits hw hin hroom (fun d _ => Nat.le_add_right t.base d)
      h.below.not_stuck hruns
    generalize Step.exec i t w = s at hstays
    cases hstays with
    | next hpc ha hf hpool hw' he hgo =>
      exact .next ⟨rfl, rfl, ha.size⟩ (.within rfl rfl hpc ha.slots) rfl hpool hw' (h.inst?_eq hi)
        he (h.go ha hf hgo)
    | fault hw' he => exact .ended ⟨rfl, rfl, rfl⟩ rfl rfl hw' (h.below.fault he)
  cases i with
  | call n shift =>
    have hroom : shift - 1 < l.frameSize := hlt rfl (Nat.le_refl _)
    exact h.call hm hp hw hi (Nat.le_of_pred_lt hroom) hruns
  | spawn n shift =>
    have hroom : shift - 1 < l.frameSize := hlt rfl (Nat.le_refl _)
    exact h.spawn hm hp hf hw hi (Nat.le_of_pred_lt hroom) hruns
  | join r => exact h.join hf hw hi (hlt rfl (Nat.le_succ r))
  | ret s | retConst x =>
    obtain ⟨v, hanswer, hend⟩ := exec_return hm h.fits rfl h.below.not_stuck hruns
    rw [hanswer.exec]
    exact h.leave hw (h.inst?_eq hi) rfl hend
  | _ => exact absurd rfl hin

end Standing

/-- A task that conducts itself takes a step and goes on conducting itself, or ends in
a wanted way. -/
theorem Conducts.step (h : Conducts m post leases t a) (hm : Describes m holds)
    (hp : t.program.Fulfils m) (hf : Furnished m leases t w.pool) (hw : holds w a) :
    Advance m holds post leases t w a (step t w) := by
  obtain ⟨l, f, ends, h⟩ := h
  obtain ⟨i, hi⟩ := h.inst
  unfold Machine.step
  rw [h.inst?_eq hi]
  exact h.exec hm hp hf hw hi fun o ho => h.runs o ((Meaning.runs_iff hi).mpr ho)

/-! ### Tasks among others -/

/-- Leases of other tasks do not matter to a task. -/
theorem Conducts.ofLeases (h : Conducts m post leases t a)
    (hl : ∀ id i p, leases id = some ⟨t.id, i, p⟩ → leases' id = some ⟨t.id, i, p⟩) :
    Conducts m post leases' t a := by
  obtain ⟨l, f, ends, h⟩ := h
  exact ⟨l, f, ends, h.lowered, h.room, h.fits.ofLeases hl, h.runs,
    h.below.agree ⟨rfl, fun _ _ => rfl, fun id i p _ => hl id i p⟩⟩

/-- More may be wanted of a task. -/
theorem Conducts.weaken {post' : Outcome → W → Prop} (h : Conducts m post leases t a)
    (hp : ∀ o w, post o w → post' o w) : Conducts m post' leases t a := by
  obtain ⟨l, f, ends, h⟩ := h
  exact ⟨l, f, ends, h.lowered, h.room, h.fits, h.runs, h.below.weaken hp⟩

theorem Conducts.fits (h : Conducts m post leases t a) : t.fits = true := by
  obtain ⟨l, f, ends, h⟩ := h
  unfold Task.fits
  rw [h.lowered]
  exact decide_eq_true h.room

/-- A task that waits for another one stands at a join, and the register holds the handle. -/
theorem Task.of_awaits? {r : Reg} {id : TaskId} (h : t.awaits? = some (r, id)) :
    t.inst? = some (.join r) ∧ t.read? r = some (.future (some id)) := by
  unfold Task.awaits? at h
  split at h
  · rename_i r' hinst
    split at h
    · rename_i id' hread
      obtain ⟨rfl, rfl⟩ := Prod.mk.inj (Option.some.inj h)
      exact ⟨hinst, hread⟩
    · cases h
  · cases h

/-- A task that waits for another one has a lease on it, and goes on with an outcome that is due. -/
theorem Conducts.resume (h : Conducts m post leases t a) (hp : t.program.Fulfils m) {r : Reg}
    {id : TaskId} (hawaits : t.awaits? = some (r, id)) :
    ∃ p, leases id = some ⟨t.id, t.base + r, p⟩ ∧ ∀ outcome w, Delivers m p outcome a →
      Resumed m post leases t a id w (Step.resume r id outcome t w) := by
  obtain ⟨l, f, ends, h⟩ := h
  obtain ⟨hinst, hread⟩ := Task.of_awaits? hawaits
  have hi : l.code[t.pc]? = some (.join r) := by
    unfold Task.inst? at hinst
    rw [h.lowered] at hinst
    exact hinst
  have hr : r < l.frameSize := by
    rw [hp.frameSize t.code l h.lowered]
    exact frameSize_gt hi (by rfl) (Nat.le_succ r)
  obtain ⟨p, hpend, -, -⟩ := h.handle hi
  rcases h.fits.pend r p hpend with ⟨hslot, -⟩ | ⟨id, hslot, hlease⟩
  · cases hread.symm.trans hslot
  · cases hread.symm.trans hslot
    exact ⟨p, hlease, fun outcome w hd => h.resume hi hr hpend hlease hd w⟩

end

end ForkLisp.Machine
