/-
Programs that start no tasks.

A task that conducts itself and starts no other one comes to an end: every instruction goes forward
in its code, and every call takes up more of the stack (`conducts_finishes`). So running a program
on workers that have nothing else to do has a result, which is a wanted one (`Scheduler.run_alone`).
-/
import ForkLisp.Proofs.Machine.Conduct
import ForkLisp.Proofs.Schedule.Idle
import ForkLisp.Schedule.Crew

namespace ForkLisp.Schedule

open ForkLisp.Code ForkLisp.Machine ForkLisp.Behaviour ForkLisp.Reference

variable {H W : Type} {m : Meaning Datum H W} {holds : World → W → Prop}
  {post : Outcome → W → Prop}

/-- Nobody waits for a pooled task. -/
def noLeases : Leases H := fun _ => none

/-- A task never starts another one: the pool is empty, or starting one has no meaning. -/
def Alone (m : Meaning Datum H W) (pool : Pool) : Prop :=
  pool.take? = none ∨ ∀ n args a, m.spawn n args a .stuck

theorem Alone.furnished {pool : Pool} (h : Alone m pool) (t : Task) :
    Furnished m noLeases t pool where
  taken c rest n args a htake hs := by
    rcases h with h | h
    · rw [h] at htake
      exact absurd htake (by simp)
    · exact absurd (h n args a) hs
  joined _ _ _ _ _ hl := absurd hl (by simp [noLeases])

/-- The task of a form that runs by itself. -/
structure Single (m : Meaning Datum H W) (t : Task) : Prop where
  id : t.id = none
  children : t.children = []
  program : t.program.Fulfils m

/-- Running a task comes to an end in a wanted way. What the task does to globals and prints on the
way, it does to the world `a` of the meaning. -/
def Concludes (m : Meaning Datum H W) (holds : World → W → Prop) (post : Outcome → W → Prop)
    (crew : Crew) (pool : Pool) (t : Task) (w : World) (a : W) : Prop :=
  ∃ outcome w' b es,
    Shift.work ⟨some t, w, crew⟩ = Shift.work ⟨none, w', { crew with outcome := some outcome }⟩ ∧
    Completes t w es outcome w' ∧ Undergoes m es a b ∧ post outcome b ∧ holds w' b ∧ w'.pool = pool

variable {crew : Crew} {pool : Pool} {t t' : Task} {w w' : World} {a a' : W} {i : Inst}

theorem Shift.work_of_more {s s' : Shift} (h : s.turn = .more s') : s.work = s'.work := by
  rw [work, h]

theorem Shift.work_of_done {s : Shift} (h : s.turn = .done w crew) : s.work = some (w, crew) := by
  rw [work, h]

theorem Concludes.of_next (hstep : step t w = .next t' w') (hi : t.inst? = some i)
    (he : Undergoes m (t.effects i) a a') (h : Concludes m holds post crew pool t' w' a') :
    Concludes m holds post crew pool t w a := by
  obtain ⟨outcome, w'', b, es, hwork, hcompletes, hes, hpost, hw, hp⟩ := h
  refine ⟨outcome, w'', b, t.effects i ++ es, ?_, .next hi hstep hcompletes, he.trans hes, hpost,
    hw, hp⟩
  rw [← hwork]
  refine Shift.work_of_more ?_
  simp only [Shift.turn, hstep]

theorem complete_single {outcome : Outcome} (hid : t.id = none) (hc : t.children = []) :
    complete t outcome w crew = (w, { crew with outcome := some outcome }) := by
  unfold complete
  rw [hid, hc]
  rfl

theorem Concludes.of_ended {outcome : Outcome} (hstep : step t w = .ended t' outcome w')
    (hid : t'.id = none) (hc : t'.children = []) (hpost : post outcome a) (hw : holds w' a)
    (hp : w'.pool = pool) : Concludes m holds post crew pool t w a := by
  refine ⟨outcome, w', a, [], Shift.work_of_more ?_, .ended hstep, .nil, hpost, hw, hp⟩
  simp only [Shift.turn, hstep, complete_single hid hc]

/-- A step of a single task: it moves on, or it ends in a wanted way. -/
theorem Single.step (hs : Single m t) (hm : Describes m holds) (halone : Alone m w.pool)
    (h : Conducts m post noLeases t a) (hw : holds w a) :
    (∃ t' w' b i, step t w = .next t' w' ∧ t.Continues t' ∧ Moves t t' ∧ Single m t' ∧
      w'.pool = w.pool ∧ t.inst? = some i ∧ Undergoes m (t.effects i) a b ∧
      Conducts m post noLeases t' b ∧ holds w' b) ∨
    ∃ t' w' outcome, step t w = .ended t' outcome w' ∧ t'.id = none ∧ t'.children = [] ∧
      w'.pool = w.pool ∧ post outcome a ∧ holds w' a := by
  have hadv := h.step hm hs.program (halone.furnished t) hw
  generalize Machine.step t w = s at hadv
  cases hadv with
  | @next t' w' b i ht hmove hc hp hw' hi he h' =>
    exact .inl ⟨t', w', b, i, rfl, ht, hmove, ⟨ht.id.trans hs.id, hc.trans hs.children,
      ht.program ▸ hs.program⟩, hp, hi, he, h', hw'⟩
  | @ended t' w' outcome ht hc hp hw' hpost =>
    exact .inr ⟨t', w', outcome, rfl, ht.id.trans hs.id, hc.trans hs.children, hp, hpost, hw'⟩
  | joined _ _ hl | failed _ _ hl | suspended _ hl => exact absurd hl (by simp [noLeases])
  | spawned _ hs' _ htake =>
    rcases halone with halone | halone
    · rw [halone] at htake
      exact absurd htake (by simp)
    · exact absurd (halone _ _ _) hs'

/-- The state in which a task goes back to a caller is one from which it comes to an end. -/
def Returns (m : Meaning Datum H W) (holds : World → W → Prop) (post : Outcome → W → Prop)
    (crew : Crew) (pool : Pool) (t : Task) : Prop :=
  ∀ t' w' b, t.stack[t.base - 2]? = some (.frame t'.base) →
    t.stack[t.base - 1]? = some (.returnTo t'.code t'.pc) → 2 ≤ t.base →
    (∀ i, i < t.base - 2 → t'.stack[i]? = t.stack[i]?) → t.Continues t' →
    Single m t' → Conducts m post noLeases t' b → holds w' b → w'.pool = pool →
    Concludes m holds post crew pool t' w' b

/-- A single task that conducts itself comes to an end, if it does so wherever it goes back to. -/
theorem conducts_finishes (hm : Describes m holds) (halone : Alone m pool) (hs : Single m t)
    (h : Conducts m post noLeases t a) (hw : holds w a) (hp : w.pool = pool)
    (hback : Returns m holds post crew pool t) : Concludes m holds post crew pool t w a := by
  -- calls leave less room on the stack, and all other steps leave less code
  induction hroom : t.stack.size - t.base using Nat.strongRecOn generalizing t w a with
  | ind room ihRoom =>
  obtain ⟨l, f, ends, hst⟩ := h
  induction hrest : l.code.size - t.pc using Nat.strongRecOn generalizing t w a f ends with
  | ind rest ihRest =>
  have hpc : t.pc < l.code.size := by
    obtain ⟨i, hi⟩ := hst.inst
    exact (Array.getElem?_eq_some_iff.mp hi).1
  have halone' : Alone m w.pool := hp ▸ halone
  rcases hs.step hm halone' ⟨l, f, ends, hst⟩ hw with
    ⟨t', w', b, i, hstep, ht, hmove, hs', hp', hi, he, h', hw'⟩ |
    ⟨t', w', outcome, hstep, hid, hc, hp', hpost, hw'⟩
  · refine .of_next hstep hi he ?_
    -- an activation of the same code further on
    have hlater : ∀ {t'' w'' b'}, t''.code = t.code → t''.base = t.base → t.pc < t''.pc →
        (∀ i, i < t.base → t''.stack[i]? = t.stack[i]?) → t.Continues t'' → Single m t'' →
        Conducts m post noLeases t'' b' → holds w'' b' → w''.pool = pool →
        Concludes m holds post crew pool t'' w'' b' := by
      intro t'' w'' b' hcode hbase hlt hslots ht'' hs'' h'' hw'' hp''
      obtain ⟨l'', f'', ends'', hst''⟩ := h''
      have hl : some l'' = some l := by
        rw [← hst''.lowered, ← hst.lowered, Task.lowered?, Task.lowered?, ht''.program, hcode]
      obtain rfl := Option.some.inj hl
      refine ihRest _ (by omega) hs'' hw'' hp'' ?_ (by rw [ht''.size, hbase, hroom]) f''
        ends'' hst'' rfl
      intro t₀ w₀ b₀ hframe hreturn htwo hbelow ht₀
      rw [hbase] at hframe hreturn htwo hbelow
      rw [hslots _ (by omega)] at hframe hreturn
      refine hback t₀ w₀ b₀ hframe hreturn htwo (fun i hi => ?_)
        ⟨ht₀.id.trans ht''.id, ht₀.program.trans ht''.program, ht₀.size.trans ht''.size⟩
      rw [hbelow i hi, hslots i (by omega)]
    cases hmove with
    | within hcode hbase hlt hslots =>
      exact hlater hcode hbase hlt hslots ht hs' h' hw' (hp'.trans hp)
    | enters hbase htop hframe hreturn hslots =>
      have hsize := ht.size
      refine ihRoom _ (by omega) hs' h' hw' (hp'.trans hp) ?_ rfl
      intro t₀ w₀ b₀ hframe' hreturn' htwo hbelow ht₀ hs₀ h₀ hw₀ hp₀
      rw [hframe, Option.some_inj, Slot.frame.injEq] at hframe'
      rw [hreturn, Option.some_inj, Slot.returnTo.injEq] at hreturn'
      refine hlater hreturn'.1.symm hframe'.symm (by omega) (fun i hi => ?_)
        ⟨ht₀.id.trans ht.id, ht₀.program.trans ht.program, ht₀.size.trans ht.size⟩ hs₀ h₀ hw₀ hp₀
      rw [hbelow i (by omega), hslots i hi]
    | leaves htwo hframe hreturn hslots =>
      exact hback t' w' b hframe hreturn htwo hslots ht hs' h' hw' (hp'.trans hp)
  · exact .of_ended hstep hid hc hpost hw' (hp'.trans hp)

/-! ### Programs -/

/-- Workers that have nothing to do, and one of which is left. -/
structure Scheduler.Idle (s : Scheduler) : Prop where
  queue : s.crew.queue.Idle
  workers : s.crew.lost < s.crew.workers

theorem Scheduler.new_idle (settings : Settings) : (Scheduler.new settings).Idle :=
  ⟨RunQueue.new_idle _ _ _, Nat.lt_of_lt_of_le Nat.zero_lt_one (Nat.le_max_right _ _)⟩

/-- All that the entry of a program can come to is wanted. -/
structure Entry (m : Meaning Datum H W) (post : Outcome → W → Prop) (program : Program) (a : W) :
    Prop where
  not_stuck : ¬ m.Runs Meaning.done program.entry.code 0 (Frame.enter []) a .stuck
  value : ∀ v b, m.Runs Meaning.done program.entry.code 0 (Frame.enter []) a (.value v b) →
    post (.ok v.slot) b
  fault : ∀ e b, m.Runs Meaning.done program.entry.code 0 (Frame.enter []) a (.fault e b) →
    post (.error e) b
  overflow : post (.error .stackOverflow) a

theorem Entry.conducts {program : Program} (h : Entry m post program a) (leases : Leases H)
    (ht : t.program = program) (hcode : t.code = .entry) (hpc : t.pc = 0) (hbase : t.base = 0)
    (hfits : t.fits = true) : Conducts m post leases t a := by
  have hl : t.lowered? = some program.entry := by
    rw [Task.lowered?, ht, hcode]
    rfl
  unfold Task.fits at hfits
  rw [hl] at hfits
  refine ⟨program.entry, Frame.enter [],
    m.Runs Meaning.done program.entry.code 0 (Frame.enter []) a, hl, of_decide_eq_true hfits,
    Fits.enter fun j v hj => absurd hj (by simp), fun o ho => ?_, ?_⟩
  · rw [hpc] at ho
    exact ho
  · rw [hbase]
    exact .bottom h.not_stuck h.value h.fault

theorem Shift.turn_none (t : Task) (w : World) (crew : Crew) {queue : RunQueue Task}
    (hlost : crew.lost < crew.workers) (htake : crew.queue.take? crew.lost = some (t, queue)) :
    turn ⟨none, w, crew⟩ =
      if t.fits then .more ⟨some t, w, { crew with queue }⟩
      else
        let (w, crew) := complete t (.error .stackOverflow) w { crew with queue }
        .more ⟨none, w, crew⟩ := by
  simp only [turn, if_pos hlost, htake]

theorem Shift.work_none_idle {w : World} {crew : Crew} (h : crew.queue.Idle) :
    work ⟨none, w, crew⟩ = some (w, crew) := by
  refine work_of_done ?_
  simp only [turn, h.take?_eq_none]
  split <;> rfl

/-- A program that starts no tasks comes to an end, and to a wanted outcome. Unless this is an
overflow, the root task has run through, with effects that are those on the world of
the meaning. -/
theorem Scheduler.run_alone {s : Scheduler} (hs : s.Idle) (hm : Describes m holds)
    {program : Program} (hp : program.Fulfils m) (halone : Alone m s.pool) {globals : Array Slot}
    (hw : holds ⟨globals, #[], s.pool⟩ a) (he : Entry m post program a) :
    ∃ r b, s.run? program globals = some r ∧ post r.outcome b ∧
      holds ⟨r.globals, r.printed.toArray, s.pool⟩ b ∧ r.scheduler.Idle ∧
      r.scheduler.pool = s.pool ∧ (r.outcome = .error .stackOverflow ∨ ∃ es,
        Completes (Task.root s.crew.stackSize program) ⟨globals, #[], s.pool⟩ es r.outcome
          ⟨r.globals, r.printed.toArray, s.pool⟩ ∧ Undergoes m es a b) := by
  obtain ⟨q, q', hinject, htake, hidle⟩ :=
    hs.queue.inject_take (Task.root s.crew.stackSize program) s.crew.lost
  have hend : ∃ outcome w b,
      Shift.work ⟨none, ⟨globals, #[], s.pool⟩, { s.crew with queue := q, outcome := none }⟩ =
        some (w, { s.crew with queue := q', outcome := some outcome }) ∧
      post outcome b ∧ holds w b ∧ w.pool = s.pool ∧ (outcome = .error .stackOverflow ∨ ∃ es,
        Completes (Task.root s.crew.stackSize program) ⟨globals, #[], s.pool⟩ es outcome w ∧
          Undergoes m es a b) := by
    have hturn := Shift.turn_none (Task.root s.crew.stackSize program) ⟨globals, #[], s.pool⟩
      { s.crew with queue := q, outcome := none } hs.workers htake
    -- the root task runs to its end in one turn; if it does not fit, that turn is the overflow
    by_cases hfits : (Task.root s.crew.stackSize program).fits = true
    · rw [if_pos hfits] at hturn
      have hcond : Conducts m post noLeases (Task.root s.crew.stackSize program) a :=
        he.conducts noLeases rfl rfl rfl rfl hfits
      have hends : Concludes m holds post { s.crew with queue := q', outcome := none } s.pool
          (Task.root s.crew.stackSize program) ⟨globals, #[], s.pool⟩ a :=
        conducts_finishes hm halone ⟨rfl, rfl, hp⟩ hcond hw rfl fun _ _ _ _ _ htwo =>
          absurd htwo (by simp [Task.root, Task.idle])
      obtain ⟨outcome, w, b, es, hwork, hcompletes, hes, hpost, hw', hpool⟩ := hends
      refine ⟨outcome, w, b, ?_, hpost, hw', hpool, .inr ⟨es, hcompletes, hes⟩⟩
      rw [Shift.work_of_more hturn, hwork, Shift.work_none_idle hidle]
    · have hroot : (Task.root s.crew.stackSize program).id = none := rfl
      simp only [if_neg hfits, complete_single hroot rfl] at hturn
      refine ⟨.error .stackOverflow, _, a, ?_, he.overflow, hw, rfl, .inl rfl⟩
      rw [Shift.work_of_more hturn, Shift.work_none_idle hidle]
  obtain ⟨outcome, w, b, hwork, hpost, hw', hpool, hcompletes⟩ := hend
  have hworld : (⟨w.globals, w.printed.toList.toArray, s.pool⟩ : World) = w := by rw [← hpool]
  refine ⟨⟨outcome, w.globals, w.printed.toList,
    ⟨{ s.crew with queue := q', outcome := some outcome }, w.pool⟩⟩, b, ?_, hpost, ?_,
    ⟨hidle, hs.workers⟩, hpool, ?_⟩
  · unfold Scheduler.run?
    simp only [hinject, hwork]
    rfl
  · dsimp only
    rw [hworld]
    exact hw'
  · dsimp only
    rw [hworld]
    exact hcompletes

end ForkLisp.Schedule
