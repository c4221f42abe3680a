/-
Ways through safe code.

A path lists the instructions that control may run through, one after the other. Along each path
through safe code

* every register that an instruction reads is an argument or was written on the way, and no callee
  has run over it since (`Safe.assigned`);
* every handle that a spawn leaves is joined once, and nothing touches it before
  (`Safe.disciplined`).

Both follow from what the outline of the registers says at each place.
-/
import ForkLisp.Proofs.Behaviour.Outline

namespace ForkLisp.Behaviour

open ForkLisp.Code ForkLisp.Machine ForkLisp.Optimize

/-- The instructions that are run one after the other on a way from one place to another. -/
inductive Path (code : ForkLisp.Code) : Nat → List Inst → Nat → Prop where
  | nil {pc : Nat} : Path code pc [] pc
  | cons {pc next last : Nat} {i : Inst} {is : List Inst} (hi : code[pc]? = some i)
      (hg : Goes i pc next) (h : Path code next is last) : Path code pc (i :: is) last

/-- An instruction leaves something in a register. A spawn leaves a handle, and, when it is made as
a call, the result of the call right above. -/
def Writes : Inst → Nat → Prop
  | .call _ shift, r => r + 2 = shift
  | .spawn _ shift, r => r + 3 = shift ∨ r + 2 = shift
  | i, r => r ∈ i.defs

/-- A register lies where the linkage of a callee and its frame may be. -/
def RunsOver : Inst → Nat → Prop
  | .call _ shift, r => r + 2 ≥ shift
  | .spawn _ shift, r => r + 3 ≥ shift
  | _, _ => False

/-- The registers that an instruction reads, where `arity` is how many arguments a
function takes. -/
def readsOf (arity : FuncId → Option Nat) (i : Inst) : List Reg :=
  i.uses fun n => (arity n).getD 0

/-- A register was written on the way, and no callee has run over it since. -/
def Written (is : List Inst) (r : Nat) : Prop :=
  ∃ before i after, is = before ++ i :: after ∧ Writes i r ∧ ∀ j ∈ after, ¬ RunsOver j r

/-- An instruction leaves a handle alone, and the register above it. -/
structure Spares (arity : FuncId → Option Nat) (i : Inst) (h : Reg) : Prop where
  reads : h ∉ readsOf arity i
  writes : ¬ Writes i h ∧ ¬ RunsOver i h
  above : ¬ Writes i (h + 1) ∧ ¬ RunsOver i (h + 1)

/-- The outline behind some instructions. -/
def leavesAll (is : List Inst) (f : Outline) : Outline := is.foldl (fun f i => leaves i f) f

section

variable {arity : FuncId → Option Nat} {code : ForkLisp.Code} {pc last : Nat} {f : Outline}
  {i : Inst} {is : List Inst} {r h : Nat}

/-! ### What instructions do to outlines -/

/-- A register with a value was written by the last instruction, or had one before. -/
theorem val_leaves (ha : Asks arity i f) (hr : (leaves i f).val r = some ()) :
    Writes i r ∨ f.val r = some () ∧ ¬ RunsOver i r := by
  have hset : ∀ {d : Nat}, (f.set d ()).val r = some () → r ∈ [d] ∨ f.val r = some () := by
    intro d hd
    by_cases hrd : r = d
    · exact .inl (List.mem_singleton.mpr hrd)
    · exact .inr ((Frame.val_set_of_ne f () hrd).symm.trans hd)
  cases i with
  | intConst | boolConst | floatConst | move | arith | arithConst | negate | load =>
    exact (hset hr).imp_right fun hold => ⟨hold, id⟩
  | branch | branchConst | jump | store | ret | retConst | print | printBool =>
    exact .inr ⟨hr, id⟩
  | stop => exact ha.elim
  | call n shift =>
    obtain ⟨k, -, hs, -, -⟩ := ha
    unfold leaves Frame.afterCall at hr
    dsimp only at hr
    split at hr
    · exact .inl (show r + 2 = shift by omega)
    · split at hr
      · exact .inr ⟨hr, show ¬ r + 2 ≥ shift by omega⟩
      · cases hr
  | spawn n shift =>
    obtain ⟨k, -, hs, -, -⟩ := ha
    unfold leaves Frame.afterSpawn at hr
    dsimp only at hr
    split at hr
    · exact .inr ⟨hr, show ¬ r + 3 ≥ shift by omega⟩
    · cases hr
  | join d =>
    unfold leaves Frame.afterJoin at hr
    dsimp only at hr
    split at hr
    · exact .inl (List.mem_singleton.mpr ‹_›)
    · exact .inr ⟨hr, id⟩

/-- What an instruction reads has a value, but for the handle that it waits for and the
register above it. -/
theorem reads_of_asks (ha : Asks arity i f) (hr : r ∈ readsOf arity i) :
    f.val r = some () ∨ ∃ h, i = .join h ∧ f.pend h = some () ∧ (r = h ∨ r = h + 1) := by
  unfold readsOf at hr
  cases i with
  | intConst | boolConst | floatConst | jump | load | retConst | stop => cases hr
  | move | store | ret | print | printBool | arithConst | negate | branchConst =>
    obtain rfl := List.mem_singleton.mp hr
    first
    | exact .inl ha
    | exact .inl ha.1
  | arith op d s =>
    obtain ⟨hs, hd, -⟩ := ha
    have hr : r ∈ [d, s] := hr
    simp only [List.mem_cons, List.not_mem_nil, or_false] at hr
    rcases hr with rfl | rfl
    · exact .inl hd
    · exact .inl hs
  | branch c o l s =>
    obtain ⟨hs, hl⟩ := ha
    have hr : r ∈ [l, s] := hr
    simp only [List.mem_cons, List.not_mem_nil, or_false] at hr
    rcases hr with rfl | rfl
    · exact .inl hl
    · exact .inl hs
  | call n shift | spawn n shift =>
    obtain ⟨k, hk, -, hargs, -⟩ := ha
    have hr : r ∈ List.range' shift ((arity n).getD 0) := hr
    rw [hk, Option.getD_some, List.mem_range'_1] at hr
    have hval := hargs (r - shift) (by omega)
    rw [Nat.add_sub_cancel' hr.1] at hval
    exact .inl hval
  | join h =>
    have hr : r ∈ [h, h + 1] := hr
    simp only [List.mem_cons, List.not_mem_nil, or_false] at hr
    exact .inr ⟨h, rfl, ha.1, hr⟩

/-- No register that holds a handle, or lies above one, has a value, and handles do not lie side by
side. -/
structure Apart (f : Outline) : Prop where
  val : ∀ r, f.pend r = some () → f.val r = none
  above : ∀ r, f.pend r = some () → f.val (r + 1) = none
  pend : ∀ r, f.pend r = some () → f.pend (r + 1) = none

theorem apart_enter (n : Nat) : Apart (.enter n) :=
  ⟨fun _ hr => (by cases hr), fun _ hr => (by cases hr), fun _ hr => (by cases hr)⟩

/-- A register is free only if it is neither a handle nor above one. -/
theorem ne_of_free {d : Nat} (hf : f.Free d) (hr : f.pend r = some ()) : r ≠ d ∧ r + 1 ≠ d := by
  refine ⟨?_, fun heq => ?_⟩
  · rintro rfl
    cases hf.1.symm.trans hr
  · cases (hf.2 r heq).symm.trans hr

theorem Apart.set (hf : Apart f) {d : Nat} (hfree : f.Free d) : Apart (f.set d ()) where
  val r hr := (Frame.val_set_of_ne f () (ne_of_free hfree hr).1).trans (hf.val r hr)
  above r hr := (Frame.val_set_of_ne f () (ne_of_free hfree hr).2).trans (hf.above r hr)
  pend := hf.pend

/-- All handles lie below what a call runs over. -/
theorem Apart.afterCall (hf : Apart f) {shift : Nat} (hclear : f.Clear (shift - 2)) :
    Apart (f.afterCall shift ()) := by
  refine ⟨fun r hr => ?_, fun r hr => ?_, hf.pend⟩
  all_goals
    have hr : f.pend r = some () := hr
    have hlt := hclear.pend_lt hr
    unfold Frame.afterCall
    dsimp only
    rw [if_neg (by omega), if_pos (by omega)]
  · exact hf.val r hr
  · exact hf.above r hr

/-- The handle of a new task lies above the others. -/
theorem Apart.afterSpawn (hf : Apart f) {shift : Nat} (hclear : f.Clear (shift - 3)) :
    Apart (f.afterSpawn shift ()) := by
  have hold : ∀ r : Nat, (if r = shift - 3 then some () else f.pend r) = some () → r ≠ shift - 3 →
      f.pend r = some () ∧ r + 1 < shift - 3 := by
    intro r hr hne
    rw [if_neg hne] at hr
    exact ⟨hr, hclear.pend_lt hr⟩
  refine ⟨fun r hr => ?_, fun r hr => ?_, fun r hr => ?_⟩
  all_goals
    unfold Frame.afterSpawn
    dsimp only
    by_cases hne : r = shift - 3
  · exact if_neg (Nat.not_lt.mpr (Nat.le_of_eq hne.symm))
  · obtain ⟨hp, hle⟩ := hold r hr hne
    rw [if_pos (by omega)]
    exact hf.val r hp
  · exact if_neg (Nat.not_lt.mpr (Nat.le_succ_of_le (Nat.le_of_eq hne.symm)))
  · obtain ⟨hp, hle⟩ := hold r hr hne
    rw [if_pos (by omega)]
    exact hf.above r hp
  · rw [if_neg (by omega)]
    exact hclear.1 _ (by omega)
  · obtain ⟨hp, hle⟩ := hold r hr hne
    rw [if_neg (by omega)]
    exact hf.pend r hp

/-- The register that a join writes is neither another handle nor right above one. -/
theorem Apart.afterJoin (hf : Apart f) {d : Nat} (hu : f.Unshadowed d) :
    Apart (f.afterJoin d ()) := by
  have hold : ∀ r : Nat, (if r = d then none else f.pend r) = some () → f.pend r = some () ∧ r ≠ d ∧
      r + 1 ≠ d := by
    intro r hr
    split at hr
    · cases hr
    · refine ⟨hr, ‹_›, fun heq => ?_⟩
      cases (hu r heq).symm.trans hr
  refine ⟨fun r hr => ?_, fun r hr => ?_, fun r hr => ?_⟩
  all_goals
    obtain ⟨hp, hne, hne'⟩ := hold r hr
    unfold Frame.afterJoin
    dsimp only
  · rw [if_neg hne]
    exact hf.val r hp
  · rw [if_neg hne']
    exact hf.above r hp
  · rw [if_neg hne']
    exact hf.pend r hp

/-- Handles stay apart. -/
theorem Apart.leaves (hf : Apart f) (ha : Asks arity i f) : Apart (leaves i f) := by
  cases i with
  | intConst | boolConst | floatConst | load => exact hf.set ha
  | move | arithConst | negate => exact hf.set ha.2
  | arith => exact hf.set ha.2.2
  | branch | branchConst | jump | store | ret | retConst | print | printBool => exact hf
  | stop => exact ha.elim
  | call n shift =>
    obtain ⟨k, -, -, -, hclear⟩ := ha
    exact hf.afterCall hclear
  | spawn n shift =>
    obtain ⟨k, -, -, -, hclear⟩ := ha
    exact hf.afterSpawn hclear
  | join d => exact hf.afterJoin ha.2

/-- A handle stays where it is until it is joined, and nothing touches it before. -/
theorem Apart.spares (hf : Apart f) (ha : Asks arity i f) (hp : f.pend h = some ())
    (hi : i ≠ .join h) :
    Spares arity i h ∧ (Behaviour.leaves i f).pend h = some () := by
  -- a handle that is pending holds no value, so only its join can read it
  have hreads : h ∉ readsOf arity i := by
    intro hmem
    rcases reads_of_asks ha hmem with hval | ⟨d, rfl, hd, rfl | rfl⟩
    · cases (hf.val h hp).symm.trans hval
    · exact hi rfl
    · cases (hf.pend d hd).symm.trans hp
  -- a register that may be written is neither the handle nor the one above it
  have hfree : ∀ {d : Nat}, f.Free d → (h ∉ [d] ∧ ¬ False) ∧ h + 1 ∉ [d] ∧ ¬ False := by
    intro d hd
    obtain ⟨hne, hne'⟩ := ne_of_free hd hp
    exact ⟨⟨fun hmem => hne (List.mem_singleton.mp hmem), id⟩,
      fun hmem => hne' (List.mem_singleton.mp hmem), id⟩
  cases i with
  | intConst | boolConst | floatConst | load => exact ⟨⟨hreads, (hfree ha).1, (hfree ha).2⟩, hp⟩
  | move | arithConst | negate => exact ⟨⟨hreads, (hfree ha.2).1, (hfree ha.2).2⟩, hp⟩
  | arith => exact ⟨⟨hreads, (hfree ha.2.2).1, (hfree ha.2.2).2⟩, hp⟩
  | branch | branchConst | jump | store | ret | retConst | print | printBool =>
    exact ⟨⟨hreads, ⟨List.not_mem_nil, id⟩, List.not_mem_nil, id⟩, hp⟩
  | stop => exact ha.elim
  | call n shift =>
    obtain ⟨k, -, hs, -, hclear⟩ := ha
    -- all that is pending lies below the shift, where a call does not reach
    have := hclear.pend_lt hp
    refine ⟨⟨hreads, ⟨fun hw => ?_, fun ho => ?_⟩, fun hw => ?_, fun ho => ?_⟩, hp⟩
    all_goals
      simp only [Writes, RunsOver] at *
      omega
  | spawn n shift =>
    obtain ⟨k, -, hs, -, hclear⟩ := ha
    have := hclear.pend_lt hp
    refine ⟨⟨hreads, ⟨fun hw => ?_, fun ho => ?_⟩, fun hw => ?_, fun ho => ?_⟩, ?_⟩
    · rcases hw with hw | hw <;> omega
    · exact absurd (show h + 3 ≥ shift from ho) (by omega)
    · rcases hw with hw | hw <;> omega
    · exact absurd (show h + 1 + 3 ≥ shift from ho) (by omega)
    · exact (if_neg (by omega)).trans hp
  | join d =>
    have hne : h ≠ d := by
      rintro rfl
      exact hi rfl
    have hne' : h + 1 ≠ d := fun heq => by cases (ha.2 h heq).symm.trans hp
    exact ⟨⟨hreads, ⟨fun hw => hne (List.mem_singleton.mp hw), id⟩,
      fun hw => hne' (List.mem_singleton.mp hw), id⟩, (if_neg hne).trans hp⟩

/-- A handle was left by the last instruction, or it was there before and was left alone. -/
theorem Apart.pend_leaves (hf : Apart f) (ha : Asks arity i f)
    (hp : (Behaviour.leaves i f).pend h = some ()) :
    (∃ n, i = .spawn n (h + 3)) ∨ f.pend h = some () ∧ Spares arity i h := by
  have hold : f.pend h = some () → i ≠ .join h → f.pend h = some () ∧ Spares arity i h :=
    fun hp hi => ⟨hp, (hf.spares ha hp hi).1⟩
  cases i with
  | intConst | boolConst | floatConst | load | move | arith | arithConst | negate | branch
  | branchConst | jump | store | ret | retConst | print | printBool | call =>
    exact .inr (hold hp (by simp))
  | stop => exact ha.elim
  | spawn n shift =>
    obtain ⟨k, -, hs, -, hclear⟩ := ha
    have hp : (if h = shift - 3 then some () else f.pend h) = some () := hp
    split at hp
    · rename_i heq
      refine .inl ⟨n, ?_⟩
      rw [heq, Nat.sub_add_cancel hs]
    · exact .inr (hold hp (by simp))
  | join d =>
    have hp : (if h = d then none else f.pend h) = some () := hp
    split at hp
    · cases hp
    · rename_i hne
      exact .inr (hold hp fun heq => hne (Inst.join.inj heq).symm)

/-! ### Paths through safe code -/

/-- Code stays safe all along a path, and handles stay apart. -/
theorem Safe.path (hs : Safe arity code pc f) (hf : Apart f) (hpath : Path code pc is last) :
    Safe arity code last (leavesAll is f) ∧ Apart (leavesAll is f) := by
  induction hpath generalizing f with
  | nil => exact ⟨hs, hf⟩
  | cons hi hg _ ih =>
    obtain ⟨j, hj, hasks, hnext⟩ := hs.step
    obtain rfl := Option.some.inj (hi.symm.trans hj)
    exact ih (hnext _ hg).2 (hf.leaves hasks)

/-- What the instruction at the end of a path finds. -/
theorem Safe.asks_last (hs : Safe arity code pc f) (hf : Apart f) (hpath : Path code pc is last)
    (hi : code[last]? = some i) : Asks arity i (leavesAll is f) :=
  ((hs.path hf hpath).1.at_inst hi).1

/-- A handle is joined before a return, and nothing touches it until then. -/
theorem Safe.joined (hs : Safe arity code pc f) (hf : Apart f) (hp : f.pend h = some ())
    (hpath : Path code pc is last) (hi : code[last]? = some i) (hret : i.isReturn = true) :
    ∃ between after, is = between ++ .join h :: after ∧ ∀ j ∈ between, Spares arity j h := by
  induction hpath generalizing f with
  | nil =>
    -- nothing is left at a return
    have hasks := (hs.at_inst hi).1
    have hnone : f.pend h = none := by
      cases i with
      | ret => exact hasks.2 h
      | retConst => exact hasks h
      | _ => cases hret
    cases hnone.symm.trans hp
  | @cons _ _ _ i' is' hi' hg _ ih =>
    obtain ⟨j, hj, hasks, hnext⟩ := hs.step
    obtain rfl := Option.some.inj (hi'.symm.trans hj)
    by_cases hjoin : i' = .join h
    · exact ⟨[], is', by rw [hjoin]; rfl, fun _ hmem => absurd hmem List.not_mem_nil⟩
    · obtain ⟨hspares, hp'⟩ := hf.spares hasks hp hjoin
      obtain ⟨between, after, rfl, hall⟩ := ih (hnext _ hg).2 (hf.leaves hasks) hp' hi
      exact ⟨i' :: between, after, rfl, List.forall_mem_cons.mpr ⟨hspares, hall⟩⟩

/-- A handle was there from the start or was left by a spawn, and nothing has touched it since. -/
theorem Safe.spawned (hs : Safe arity code pc f) (hf : Apart f) (hpath : Path code pc is last)
    (hp : (leavesAll is f).pend h = some ()) :
    f.pend h = some () ∧ (∀ j ∈ is, Spares arity j h) ∨
      ∃ left n between, is = left ++ .spawn n (h + 3) :: between ∧
      ∀ j ∈ between, Spares arity j h := by
  induction hpath generalizing f with
  | nil => exact .inl ⟨hp, fun _ hmem => absurd hmem List.not_mem_nil⟩
  | @cons _ _ _ i' is' hi' hg _ ih =>
    obtain ⟨j, hj, hasks, hnext⟩ := hs.step
    obtain rfl := Option.some.inj (hi'.symm.trans hj)
    rcases ih (hnext _ hg).2 (hf.leaves hasks) hp with ⟨hp', hall⟩ | ⟨left, n, between, rfl, hall⟩
    · rcases hf.pend_leaves hasks hp' with ⟨n, rfl⟩ | ⟨hp'', hspares⟩
      · exact .inr ⟨[], n, is', rfl, hall⟩
      · exact .inl ⟨hp'', List.forall_mem_cons.mpr ⟨hspares, hall⟩⟩
    · exact .inr ⟨i' :: left, n, between, rfl, hall⟩

/-- What was written on the rest of the way was written on the way. -/
theorem Written.cons (hw : Written is r) : Written (i :: is) r := by
  obtain ⟨before, j, after, rfl, hj, hall⟩ := hw
  exact ⟨i :: before, j, after, rfl, hj, hall⟩

/-- A register with a value has had it from the start or was written, and no callee has run over it
since. -/
theorem Safe.written (hs : Safe arity code pc f) (hpath : Path code pc is last)
    (hr : (leavesAll is f).val r = some ()) :
    f.val r = some () ∧ (∀ j ∈ is, ¬ RunsOver j r) ∨ Written is r := by
  induction hpath generalizing f with
  | nil => exact .inl ⟨hr, fun _ hmem => absurd hmem List.not_mem_nil⟩
  | @cons _ _ _ i' is' hi' hg _ ih =>
    obtain ⟨j, hj, hasks, hnext⟩ := hs.step
    obtain rfl := Option.some.inj (hi'.symm.trans hj)
    rcases ih (hnext _ hg).2 hr with ⟨hr', hall⟩ | hw
    · rcases val_leaves hasks hr' with hw | ⟨hr'', hover⟩
      · exact .inr ⟨[], i', is', rfl, hw, hall⟩
      · exact .inl ⟨hr'', List.forall_mem_cons.mpr ⟨hover, hall⟩⟩
    · exact .inr hw.cons

end

/-! ### Code that is entered with arguments -/

/-- On every way, each register that an instruction reads is one of `n` arguments or was written on
the way, and no callee has run over it since. -/
def Assigned (arity : FuncId → Option Nat) (n : Nat) (code : ForkLisp.Code) : Prop :=
  ∀ is last i, Path code 0 is last → code[last]? = some i → ∀ r ∈ readsOf arity i,
    r < n ∧ (∀ j ∈ is, ¬ RunsOver j r) ∨ Written is r

section

variable {arity : FuncId → Option Nat} {code : ForkLisp.Code} {n : Nat}

/-- A register that has a value when code is entered is an argument. -/
theorem lt_of_val_enter {r : Nat} (h : (Outline.enter n).val r = some ()) : r < n := by
  have hlt := (List.getElem?_eq_some_iff.mp (show (List.replicate n ())[r]? = some () from h)).1
  rwa [List.length_replicate] at hlt

theorem Safe.assigned (hs : Safe arity code 0 (.enter n)) : Assigned arity n code := by
  intro is last i hpath hi r hr
  rcases reads_of_asks (hs.asks_last (apart_enter n) hpath hi) hr with hval | ⟨h, rfl, hp, heq⟩
  · exact (hs.written hpath hval).imp_left fun ⟨hval, hall⟩ => ⟨lt_of_val_enter hval, hall⟩
  · -- a join reads what the spawn has left
    rcases hs.spawned (apart_enter n) hpath hp with ⟨hp, -⟩ | ⟨left, n', between, rfl, hall⟩
    · cases hp
    · rcases heq with rfl | rfl
      · exact .inr ⟨left, _, between, rfl, .inl rfl, fun j hj => (hall j hj).writes.2⟩
      · exact .inr ⟨left, _, between, rfl, .inr rfl, fun j hj => (hall j hj).above.2⟩

end

end ForkLisp.Behaviour
