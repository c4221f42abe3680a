/-
Stretches of code.

A task runs a stretch of the code that it is in, where the meaning knows the stretch as code of its
own with a return behind it. The stretch writes registers from `r` on. Then the task comes to the
end of the stretch, or it ends with a fault that the meaning allows (`Task.Stretch.passes`). On the
way it leaves the slots below the register `r` alone: in its frame it stays in the stretch, and the
frames of the functions that it calls lie above.

Calls leave less room on the stack, and all other steps leave less code, so that no bound on the
number of steps has to be given.
-/
import ForkLisp.Proofs.Schedule.Alone

namespace ForkLisp.Machine

open ForkLisp.Code ForkLisp.Behaviour ForkLisp.Reference ForkLisp.Schedule

variable {H W : Type}

/-! ### Ways of tasks -/

/-- A task comes to where it is wanted, or it ends with a fault. Until then it is only where it may
be. -/
inductive Task.Comes (amid : Task → Prop) (last : Task → World → Prop)
    (fault : Fault → World → Prop) :
    Task → World → Prop where
  | last {t : Task} {w : World} (h : last t w) : Comes amid last fault t w
  | next {t t' : Task} {w w' : World} (ha : amid t) (hs : step t w = .next t' w')
      (h : Comes amid last fault t' w') : Comes amid last fault t w
  | fault {t t' : Task} {w w' : World} {e : Fault} (ha : amid t)
      (hs : step t w = .ended t' (.error e) w') (h : fault e w') : Comes amid last fault t w

/-- A way that is continued where it was wanted. -/
theorem Task.Comes.trans {amid amid' : Task → Prop} {last last' : Task → World → Prop}
    {fault fault' : Fault → World → Prop} {t : Task} {w : World} (h : t.Comes amid last fault w)
    (ha : ∀ u, amid u → amid' u) (hl : ∀ u w, last u w → u.Comes amid' last' fault' w)
    (hf : ∀ e w, fault e w → fault' e w) : t.Comes amid' last' fault' w := by
  induction h with
  | last h => exact hl _ _ h
  | next hm hs _ ih => exact .next (ha _ hm) hs ih
  | fault hm hs h => exact .fault (ha _ hm) hs (hf _ _ h)

/-- A task is still the same one, and the slots below `n` are as they were. -/
structure Task.Spares (t : Task) (n : Nat) (u : Task) : Prop where
  same : t.Continues u
  slots : ∀ i, i < n → u.stack[i]? = t.stack[i]?

theorem Task.Spares.refl (t : Task) (n : Nat) : t.Spares n t :=
  ⟨⟨rfl, rfl, rfl⟩, fun _ _ => rfl⟩

theorem Task.Spares.trans {t u v : Task} {n k : Nat} (h : t.Spares n u) (h' : u.Spares k v)
    (hk : n ≤ k) : t.Spares n v :=
  ⟨⟨h'.same.id.trans h.same.id, h'.same.program.trans h.same.program,
    h'.same.size.trans h.same.size⟩, fun i hi => (h'.slots i (by omega)).trans (h.slots i hi)⟩

/-- A task is further on in the frame in which it was, and the registers below `r` are
as they were. -/
structure Task.Ahead (t : Task) (w : World) (r : Nat) (u : Task) (w' : World) : Prop where
  spares : t.Spares (t.base + r) u
  base : u.base = t.base
  code : u.code = t.code
  pc : t.pc ≤ u.pc
  pool : w'.pool = w.pool

theorem Task.Ahead.slots_eq {t u : Task} {w w' : World} {r : Nat} (h : t.Ahead w r u w') :
    t.base + r ≤ u.base + r :=
  Nat.add_le_add_right (Nat.le_of_eq h.base.symm) r

theorem Task.Ahead.trans {t u v : Task} {w w₁ w₂ : World} {r : Nat} (h : t.Ahead w r u w₁)
    (h' : u.Ahead w₁ r v w₂) : t.Ahead w r v w₂ where
  spares := h.spares.trans h'.spares h.slots_eq
  base := h'.base.trans h.base
  code := h'.code.trans h.code
  pc := Nat.le_trans h.pc h'.pc
  pool := h'.pool.trans h.pool

theorem Task.Ahead.lowered?_eq {t u : Task} {w w' : World} {r : Nat} (h : t.Ahead w r u w') :
    u.lowered? = t.lowered? := by
  rw [lowered?, lowered?, h.spares.same.program, h.code]

/-- At the end of a function the value is written to where the linkage was. -/
theorem Task.Ahead.step_leave {t u : Task} {w w' : World} (h : t.Ahead w 0 u w') (hb : 2 ≤ t.base)
    {base pc : Nat} {ref : CodeRef} (hframe : t.stack[t.base - 2]? = some (.frame base))
    (hreturn : t.stack[t.base - 1]? = some (.returnTo ref pc)) {i : Inst} {v : Slot}
    (hi : u.inst? = some i) (hv : u.Answers i v) :
    step u w' = .next
      { u with stack := u.stack.setIfInBounds (t.base - 2) v, pc, base, code := ref } w' := by
  have hkept : ∀ k, k < t.base → u.stack[k]? = t.stack[k]? := h.spares.slots
  have hframe' : u.stack[u.base - 2]? = some (.frame base) := by
    rw [h.base, hkept _ (by omega), hframe]
  have hreturn' : u.stack[u.base - 1]? = some (.returnTo ref pc) := by
    rw [h.base, hkept _ (by omega), hreturn]
  unfold step
  rw [hi]
  dsimp only
  rw [hv.exec, Step.leave_eq (h.base.symm ▸ hb) hframe' hreturn', h.base]

/-- A task is on its way through a stretch: at an instruction of it, or in a function that was
called from there. -/
structure Task.Amid (t : Task) (code : ForkLisp.Code) (r : Nat) (u : Task) : Prop where
  spares : t.Spares (t.base + r) u
  place : (u.base = t.base ∧ u.code = t.code ∧ t.pc ≤ u.pc ∧
    ∃ i, code[u.pc]? = some i ∧ i.isReturn = false) ∨ t.base + r + 2 ≤ u.base

theorem Task.Ahead.amid {t u v : Task} {w w' : World} {code : ForkLisp.Code} {r : Nat}
    (h : t.Ahead w r u w') (ha : u.Amid code r v) : t.Amid code r v where
  spares := h.spares.trans ha.spares h.slots_eq
  place := ha.place.imp
    (fun ⟨hb, hc, hpc, hi⟩ => ⟨hb.trans h.base, hc.trans h.code, Nat.le_trans h.pc hpc, hi⟩)
    fun hb => h.base ▸ hb

section

variable (m : Meaning Datum H W) (holds : World → W → Prop)

/-- A task is at the end of a stretch, with a value that may be returned there. -/
structure Task.AtEnd (t : Task) (w : World) (code : ForkLisp.Code) (r : Nat)
    (ends : Ending Datum W → Prop) (u : Task) (w' : World) : Prop where
  ahead : t.Ahead w r u w'
  answer : ∃ i v a, code[u.pc]? = some i ∧ u.Answers i v.slot ∧ ends (.value v a) ∧ holds w' a

/-- A task gets through a stretch as is wanted of it. -/
def Task.Passes (t : Task) (w : World) (code : ForkLisp.Code) (r : Nat)
    (ends : Ending Datum W → Prop) : Prop :=
  t.Comes (t.Amid code r) (t.AtEnd holds w code r ends)
    (fun e w => ∃ a, ends (.fault e a) ∧ holds w a) w

/-- A task stands in a stretch: up to the returns its instructions are those of the code that the
task is in, and they write registers from `r` on. -/
structure Task.Stretch (t : Task) (code : ForkLisp.Code) (r : Nat) (l : Lowered)
    (f : Frame Datum H) :
    Prop where
  lowered : t.lowered? = some l
  same : ∀ pc i, t.pc ≤ pc → code[pc]? = some i → i.isReturn = false → l.code[pc]? = some i
  writes : ∀ pc i, t.pc ≤ pc → code[pc]? = some i → ∀ d ∈ i.defs, r ≤ d
  room : t.base + l.frameSize ≤ t.stack.size
  fits : Fits m t.id noLeases t.stack t.base f

/-- Wherever the task goes on in the stretch, it gets through the rest of it. -/
def Task.Onward (t : Task) (w : World) (code : ForkLisp.Code) (r : Nat)
    (ends : Ending Datum W → Prop) : Prop :=
  ∀ {u : Task} {f : Frame Datum H} {w' : World} {a : W}, t.Ahead w r u w' → t.pc < u.pc →
    Fits m u.id noLeases u.stack u.base f → holds w' a →
    (∀ o, m.Runs Meaning.done code u.pc f a o → ends o) → u.Passes holds w' code r ends

/-- Whatever function the task calls, it gets through the code of it. -/
def Task.Downward (t : Task) (w : World) : Prop :=
  ∀ {u : Task} {l : Lowered} {f : Frame Datum H} {a : W} {ends : Ending Datum W → Prop},
    t.Continues u → t.base < u.base → u.base ≤ u.stack.size → u.Stretch m l.code 0 l f →
    holds w a → ¬ ends .stuck → (∀ o, m.Runs Meaning.done l.code u.pc f a o → ends o) →
    u.Passes holds w l.code 0 ends

end

section

variable {m : Meaning Datum H W} {holds : World → W → Prop} {t u : Task} {w w' : World} {a : W}
  {code : ForkLisp.Code} {r : Nat} {l : Lowered} {f : Frame Datum H} {ends : Ending Datum W → Prop}
  {i : Inst}

/-- What a task comes to from a place ahead. -/
theorem Task.Passes.comes (h : u.Passes holds w' code r ends) (ha : t.Ahead w r u w') :
    u.Comes (t.Amid code r) (t.AtEnd holds w code r ends)
      (fun e w => ∃ a, ends (.fault e a) ∧ holds w a) w' :=
  h.trans (fun _ => ha.amid) (fun _ _ h => .last ⟨ha.trans h.ahead, h.answer⟩) fun _ _ h => h

theorem Task.Ahead.of_agree {stack : Array Slot} {pc : Nat} {leases leases' : Leases H}
    (ha : Agree t.id (t.base + r) leases leases' t.stack stack) (hpc : t.pc < pc)
    (hp : w'.pool = w.pool) : t.Ahead w r { t with stack, pc } w' :=
  ⟨⟨⟨rfl, rfl, ha.size⟩, ha.slots⟩, rfl, rfl, Nat.le_of_lt hpc, hp⟩

namespace Task.Stretch

theorem inst? (h : t.Stretch m code r l f) (hi : code[t.pc]? = some i) (hr : i.isReturn = false) :
    t.inst? = some i := by
  unfold Task.inst?
  rw [h.lowered]
  exact h.same t.pc i (Nat.le_refl _) hi hr

theorem step_eq (h : t.Stretch m code r l f) (hi : code[t.pc]? = some i) (hr : i.isReturn = false)
    (w : World) : step t w = Step.exec i t w := by
  unfold Machine.step
  rw [h.inst? hi hr]

theorem amid (hi : code[t.pc]? = some i) (hr : i.isReturn = false) : t.Amid code r t :=
  ⟨.refl _ _, .inl ⟨rfl, rfl, Nat.le_refl _, i, hi, hr⟩⟩

/-- The registers that an instruction touches lie on the stack. -/
theorem slot_lt (h : t.Stretch m code r l f) (hp : t.program.Fulfils m) (hi : code[t.pc]? = some i)
    (hr : i.isReturn = false) {k d : Nat} (hk : i.maxReg? = some k) (hd : d ≤ k) :
    t.base + d < t.stack.size := by
  have hl : t.program.code? t.code = some l := h.lowered
  have hlt : d < frameSize l.code l.arity :=
    frameSize_gt (h.same t.pc i (Nat.le_refl _) hi hr) hk hd
  rw [← hp.frameSize t.code l hl] at hlt
  exact Nat.lt_of_lt_of_le (Nat.add_lt_add_left hlt _) h.room

/-- An instruction inside the frame. -/
theorem inner (h : t.Stretch m code r l f) (hm : Describes m holds) (hp : t.program.Fulfils m)
    (hw : holds w a) (hi : code[t.pc]? = some i) (hin : isInner i = true) (hr : i.isReturn = false)
    (hs : ¬ ends .stuck)
    (hruns : ∀ o, m.exec Meaning.done o t.pc i f a
      (fun pc f b => t.pc < pc → m.Runs Meaning.done code pc f b o) → ends o)
    (honward : t.Onward m holds w code r ends) : t.Passes holds w code r ends := by
  have hroom : ∀ d ∈ i.defs, t.base + d < t.stack.size := by
    intro d hd
    obtain ⟨k, hk, hdk⟩ := exists_maxReg hin hd
    exact h.slot_lt hp hi hr hk hdk
  have hn : ∀ d ∈ i.defs, t.base + r ≤ t.base + d := fun d hd =>
    Nat.add_le_add_left (h.writes t.pc i (Nat.le_refl _) hi d hd) _
  have hstays := exec_inside hm h.fits hw hin hroom hn hs hruns
  have hstep := h.step_eq hi hr w
  generalize Step.exec i t w = s at hstays hstep
  cases hstays with
  | next hpc ha hf hpool hw' _ hgo =>
    have hahead := Task.Ahead.of_agree ha hpc hpool
    exact .next (amid hi hr) hstep ((honward hahead hpc hf hw' hgo).comes hahead)
  | fault hw' he => exact .fault (amid hi hr) hstep ⟨_, he, hw'⟩

/-! ### Calls -/

/-- The function that is called returns, and the task goes on behind the call. -/
theorem entered (hm : Describes m holds) (hp : t.program.Fulfils m)
    (hw : holds w a) (hi : code[t.pc]? = some i) (hr : i.isReturn = false) {n : FuncId}
    {args : List Datum} {shift : Nat} {stack : Array Slot}
    (hstep : step t w = Step.enter n shift { t with stack } w) (hn : m.arity n = some args.length)
    (hs : r + 2 ≤ shift) (htop : t.base + shift ≤ t.stack.size) (hcall : ¬ m.call n args a .stuck)
    (hspare : t.Spares (t.base + r) { t with stack })
    (hargs : ∀ j v, args[j]? = some v → stack[t.base + shift + j]? = some v.slot)
    (he : ∀ e b, m.call n args a (.fault e b) → ends (.fault e b))
    (hv : ∀ v b (stack' : Array Slot), m.call n args a (.value v b) → stack'.size = stack.size →
      (∀ i, i < t.base + shift - 2 → stack'[i]? = stack[i]?) →
      stack'[t.base + shift - 2]? = some v.slot → ∃ f', Fits m t.id noLeases stack' t.base f' ∧
        ∀ o, m.Runs Meaning.done code (t.pc + 1) f' b o → ends o)
    (honward : t.Onward m holds w code r ends) (hdown : t.Downward m holds w) :
    t.Passes holds w code r ends := by
  have hsize : stack.size = t.stack.size := hspare.same.size
  rw [hp.arity] at hn
  obtain ⟨callee, hcallee, hlen⟩ := Option.map_eq_some_iff.mp hn
  have hshift : 2 ≤ shift := by omega
  rcases Step.enter_eq (t := { t with stack }) hcallee hshift (by rw [hsize]; exact htop) w with
    hfull | ⟨linked, henter, hroom, hsize', hframe, hreturn, hslots⟩
  · exact .fault (amid hi hr) (hstep.trans hfull) ⟨a, he _ a (hm.overflow n args a), hw⟩
  dsimp only at henter hroom hsize' hframe hreturn hslots
  -- the linkage and the frame lie above the registers that are spared
  have hcallee' : t.Spares (t.base + r)
      { t with stack := linked, pc := 0, base := t.base + shift, code := .func n } :=
    hspare.trans ⟨⟨rfl, rfl, hsize'⟩, fun i hi => hslots i (by omega) (by omega)⟩ (Nat.le_refl _)
  have hcalled : Task.Passes holds
      { t with stack := linked, pc := 0, base := t.base + shift, code := .func n } w
      callee.code 0 (m.call n args a) := by
    refine hdown hcallee'.same (by dsimp only; omega) (by dsimp only; omega)
      ⟨hcallee, fun _ _ _ hi _ => hi, fun _ _ _ _ _ _ => Nat.zero_le _, hroom,
        .enter fun j v (hj : args[j]? = some v) => ?_⟩
      hw hcall fun o ho => hp.call n callee hcallee args a o hlen.symm ho
    exact (hslots _ (by dsimp only; omega) (by dsimp only; omega)).trans (hargs j v hj)
  refine .next (amid hi hr) (hstep.trans henter)
    (hcalled.trans (fun v hv' => ?_) (fun v w' hend => ?_)
    fun e w' ⟨b, hb, hw'⟩ => ⟨b, he e b hb, hw'⟩)
  · refine ⟨hcallee'.trans hv'.spares (by dsimp only; omega), .inr ?_⟩
    rcases hv'.place with ⟨hb, -⟩ | hb
    · rw [hb]
      dsimp only
      omega
    · dsimp only at hb
      omega
  · -- the value is written where the linkage was
    obtain ⟨i', x, b, hi', hanswer, hx, hw'⟩ := hend.answer
    have hahead := hend.ahead
    have hkept : ∀ i, i < t.base + shift → v.stack[i]? = linked[i]? := hahead.spares.slots
    have hvsize : v.stack.size = linked.size := hahead.spares.same.size
    have hvbase : v.base = t.base + shift := hahead.base
    have hinst : v.inst? = some i' := by
      rw [Task.inst?, hahead.lowered?_eq, Task.lowered?,
        show t.program.code? (.func n) = some callee from hcallee]
      exact hi'
    have hleave := hahead.step_leave (by dsimp only; omega) hframe hreturn hinst hanswer
    have hback : ∀ i, i < t.base + shift - 2 →
        (v.stack.setIfInBounds (t.base + shift - 2) x.slot)[i]? = stack[i]? := by
      intro i hi
      rw [Array.getElem?_setIfInBounds_ne (by omega), hkept i (by omega),
        hslots i (by omega) (by omega)]
    obtain ⟨f', hf', hruns⟩ := hv x b (v.stack.setIfInBounds (t.base + shift - 2) x.slot) hx
      (by rw [Array.size_setIfInBounds, hvsize, hsize']) hback
      (Array.getElem?_setIfInBounds_self_of_lt (by omega))
    have hahead' : t.Ahead w r { v with
        stack := v.stack.setIfInBounds (t.base + shift - 2) x.slot
        pc := t.pc + 1, base := t.base, code := t.code } w' := by
      refine ⟨⟨⟨hahead.spares.same.id, hahead.spares.same.program, ?_⟩, fun i hi => ?_⟩, rfl, rfl,
        Nat.le_succ _, hahead.pool⟩
      · rw [Array.size_setIfInBounds, hvsize, hsize', hsize]
      · exact (hback i (by omega)).trans (hspare.slots i hi)
    refine .next ⟨hcallee'.trans hahead.spares (by dsimp only; omega), .inr (by omega)⟩ hleave
      ((honward hahead' (Nat.lt_succ_self _) ?_ hw' hruns).comes hahead')
    show Fits m v.id noLeases _ t.base f'
    rw [hahead.spares.same.id]
    exact hf'

/-- A call leaves its result where the linkage was. -/
theorem call (h : t.Stretch m code r l f) (hm : Describes m holds) (hp : t.program.Fulfils m)
    (hw : holds w a) {n : FuncId} {shift : Nat} (hi : code[t.pc]? = some (.call n shift))
    (hs : ¬ ends .stuck)
    (hruns : ∀ o, m.exec Meaning.done o t.pc (.call n shift) f a
      (fun pc f b => t.pc < pc → m.Runs Meaning.done code pc f b o) → ends o)
    (honward : t.Onward m holds w code r ends) (hdown : t.Downward m holds w) :
    t.Passes holds w code r ends := by
  obtain ⟨args, hn, htwo, hargs, hc, hcall, he, hv⟩ := exec_call hs hruns
  have hlow : r ≤ shift - 2 :=
    h.writes t.pc _ (Nat.le_refl _) hi _ (by simp [Inst.defs, Inst.below, htwo])
  have htop := h.slot_lt hp hi rfl rfl (Nat.le_refl (shift - 1))
  exact entered hm hp hw hi rfl (h.step_eq hi rfl w) hn (by omega) (by omega) hcall
    (Task.Spares.refl t _) (h.fits.arguments hargs) he
    (fun v b stack' hx hsize hslots hslot => ⟨_, h.fits.afterCall htwo hc
      ⟨hsize, hslots, fun _ _ _ _ hl => hl⟩ hslot, hv v b hx⟩) honward hdown

/-- A task that is not started is a call made at once, whose result stands above the handle. -/
theorem spawn (h : t.Stretch m code r l f) (hm : Describes m holds) (hp : t.program.Fulfils m)
    (halone : Alone m w.pool) (hw : holds w a) {n : FuncId} {shift : Reg}
    (hi : code[t.pc]? = some (.spawn n shift)) (hs : ¬ ends .stuck)
    (hruns : ∀ o, m.exec Meaning.done o t.pc (.spawn n shift) f a
      (fun pc f b => t.pc < pc → m.Runs Meaning.done code pc f b o) → ends o)
    (honward : t.Onward m holds w code r ends) (hdown : t.Downward m holds w) :
    t.Passes holds w code r ends := by
  obtain ⟨args, hn, hthree, hargs, hc, hspawn, he, hv⟩ := exec_spawn hs hruns
  have hlow : r ≤ shift - 3 :=
    h.writes t.pc _ (Nat.le_refl _) hi _ (by simp [Inst.defs, Inst.below, hthree])
  have htop := h.slot_lt hp hi rfl rfl (Nat.le_refl (shift - 1))
  -- as something is spawned, the pool is empty, and the task runs the function itself
  have htake : w.pool.take? = none := halone.resolve_right fun hno => hspawn (hno n args a)
  have hn' := hn
  rw [hp.arity] at hn'
  obtain ⟨callee, hcallee, -⟩ := Option.map_eq_some_iff.mp hn'
  have hexec := h.step_eq hi rfl w
  rw [Step.exec] at hexec
  unfold Step.spawn at hexec
  simp only [hcallee, htake] at hexec
  split at hexec
  · exact .fault (amid hi rfl) hexec
      ⟨a, he _ a (hm.spawn n args a _ (hm.overflow n args a)), hw⟩
  rw [if_neg (Nat.not_lt.mpr hthree), Step.write_of_lt (by omega)] at hexec
  have hhandle : t.base + (shift - 3) < t.stack.size := by omega
  -- what it runs lies above the handle, and the result comes to stand right behind it
  refine entered hm hp hw hi rfl hexec hn (by omega) (by omega)
    (fun hx => hspawn (hm.spawn n args a _ hx))
      ⟨⟨rfl, rfl, Array.size_setIfInBounds⟩, fun i hi => ?_⟩
    (fun j v hj => ?_) (fun e b hx => he e b (hm.spawn n args a _ hx))
    (fun v b stack' hx hsize hslots hslot => ?_) honward hdown
  · exact Array.getElem?_setIfInBounds_ne (by omega)
  · rw [Array.getElem?_setIfInBounds_ne (by omega)]
    exact h.fits.arguments hargs j v hj
  · obtain ⟨p, hp, hjoin⟩ := hm.spawn n args a _ hx
    have hagree : Agree t.id (t.base + shift - 3) (noLeases : Leases H)
      noLeases t.stack stack' := by
      refine ⟨hsize.trans Array.size_setIfInBounds, fun i hi => ?_, fun _ _ _ _ hl => hl⟩
      rw [hslots i (by omega), Array.getElem?_setIfInBounds_ne (by omega)]
    refine ⟨_, h.fits.afterSpawn hthree hc hagree (.inl ⟨?_, v, ?_, hjoin⟩), hv p b hp⟩
    · rw [hslots _ (by omega), show t.base + shift - 3 = t.base + (shift - 3) by omega,
        Array.getElem?_setIfInBounds_self_of_lt hhandle]
    · rw [show t.base + shift - 3 + 1 = t.base + shift - 2 by omega, hslot]

/-- The handle of a call made at once is replaced by the result. -/
theorem join (h : t.Stretch m code r l f) (hp : t.program.Fulfils m) (hw : holds w a) {d : Nat}
    (hi : code[t.pc]? = some (.join d)) (hs : ¬ ends .stuck)
    (hruns : ∀ o, m.exec Meaning.done o t.pc (.join d) f a
      (fun pc f b => t.pc < pc → m.Runs Meaning.done code pc f b o) → ends o)
    (honward : t.Onward m holds w code r ends) : t.Passes holds w code r ends := by
  obtain ⟨p, hpend, hu, -, hv'⟩ := exec_join hs hruns
  have hlow : r ≤ d := h.writes t.pc _ (Nat.le_refl _) hi d (List.mem_singleton_self d)
  have hslot := h.slot_lt hp hi rfl rfl (Nat.le_succ d)
  have hexec := h.step_eq hi rfl w
  rcases h.fits.pend d p hpend with ⟨hfuture, v, hv, hjoin⟩ | ⟨id, -, hlease⟩
  · rw [Nat.add_assoc] at hv
    rw [Step.exec, Step.join, Step.withReg, Task.read?, hfuture] at hexec
    dsimp only at hexec
    rw [Step.withReg, Task.read?, hv] at hexec
    dsimp only at hexec
    rw [Step.put, Step.write_of_lt hslot] at hexec
    have ha := (Agree.set t.id (noLeases : Leases H) t.stack (t.base + d) v.slot).mono
      (Nat.add_le_add_left hlow t.base)
    have hahead : t.Ahead w r { t with
        stack := t.stack.setIfInBounds (t.base + d) v.slot, pc := t.pc + 1 } w :=
      .of_agree ha (Nat.lt_succ_self _) rfl
    exact .next (amid hi rfl) hexec ((honward hahead (Nat.lt_succ_self _)
      (h.fits.afterJoin hpend hu (fun _ _ _ _ hl => hl) v) hw (hv' v a (hjoin a))).comes hahead)
  · exact absurd hlease (by simp [noLeases])

/-- A return is the end of a stretch. -/
theorem atEnd (h : t.Stretch m code r l f) (hm : Describes m holds) (hw : holds w a)
    (hi : code[t.pc]? = some i) (hr : i.isReturn = true) (hs : ¬ ends .stuck)
    (hruns : ∀ o, m.exec Meaning.done o t.pc i f a
      (fun pc f b => t.pc < pc → m.Runs Meaning.done code pc f b o) → ends o) :
    t.Passes holds w code r ends := by
  obtain ⟨v, hanswer, hend⟩ := exec_return hm h.fits hr hs hruns
  exact .last ⟨⟨.refl _ _, rfl, rfl, Nat.le_refl _, rfl⟩, i, v, a, hi, hanswer, hend, hw⟩

/-- A task gets through a stretch. -/
theorem passes (h : t.Stretch m code r l f) (hm : Describes m holds) (hp : t.program.Fulfils m)
    (halone : Alone m w.pool) (hw : holds w a) (hs : ¬ ends .stuck)
    (hruns : ∀ o, m.Runs Meaning.done code t.pc f a o → ends o) : t.Passes holds w code r ends := by
  -- calls leave less room on the stack, and all other steps leave less code
  induction hroom : t.stack.size - t.base using Nat.strongRecOn
    generalizing t w a f code r l ends with
  | ind room ihRoom =>
  induction hrest : code.size - t.pc using Nat.strongRecOn generalizing t w a f with
  | ind rest ihRest =>
  obtain ⟨i, hi⟩ : ∃ i, code[t.pc]? = some i := by
    cases hi : code[t.pc]? with
    | some i => exact ⟨i, rfl⟩
    | none =>
      refine absurd (hruns .stuck ?_) hs
      rw [Meaning.Runs]
      intro i hi'
      rw [hi] at hi'
      exact absurd hi' (by simp)
  have hpc : t.pc < code.size := (Array.getElem?_eq_some_iff.mp hi).1
  have hexec : ∀ o, m.exec Meaning.done o t.pc i f a
      (fun pc f b => t.pc < pc → m.Runs Meaning.done code pc f b o) → ends o :=
    fun o ho => hruns o ((Meaning.runs_iff hi).mpr ho)
  have honward : t.Onward m holds w code r ends := by
    intro u f' w' a' hahead hlt hfits hw' hruns'
    have hsize := hahead.spares.same.size
    refine ihRest (code.size - u.pc) (by omega) ⟨?_, fun pc i hle => h.same pc i (by omega),
      fun pc i hle => h.writes pc i (by omega), ?_, hfits⟩ (hahead.spares.same.program ▸ hp)
      (hahead.pool ▸ halone) hw' hruns' (by rw [hsize, hahead.base, hroom]) rfl
    · rw [← h.lowered, hahead.lowered?_eq]
    · rw [hahead.base, hsize]
      exact h.room
  have hdown : t.Downward m holds w := by
    intro u l' f' a' ends' hsame hbase htop hstretch hw' hs' hruns'
    have hsize := hsame.size
    exact ihRoom (u.stack.size - u.base) (by omega) hstretch (hsame.program ▸ hp) halone
      hw' hs' hruns' rfl
  by_cases hret : i.isReturn = true
  · exact h.atEnd hm hw hi hret hs hexec
  · have hret : i.isReturn = false := by simpa using hret
    cases i with
    | call n shift => exact h.call hm hp hw hi hs hexec honward hdown
    | spawn n shift => exact h.spawn hm hp halone hw hi hs hexec honward hdown
    | join d => exact h.join hp hw hi hs hexec honward
    | ret s | retConst x => exact absurd hret (by simp [Inst.isReturn])
    | _ => exact h.inner hm hp hw hi rfl rfl hs hexec honward

end Task.Stretch

end

end ForkLisp.Machine
