/-
Liveness is exact.

A register may still be read at a place if some way from there leads to an instruction that reads it
and none before that one writes it (`ReadsFirst`). Where all jumps go forward, one sweep from the
end of the code finds these registers and no others: a register is live after an instruction exactly
if it may still be read where control goes next (`Liveness.isLiveAfter_iff`).
-/
import ForkLisp.Proofs.Behaviour.Paths
import ForkLisp.Proofs.Optimize.LiveRegisters

namespace ForkLisp.Optimize

open ForkLisp.Code ForkLisp.Behaviour

/-- All jumps go forward and stay in the code. Control may run out of it, and it need not have an
end. -/
def JumpsForward (code : ForkLisp.Code) : Prop :=
  ∀ (pc : Nat) (i : Inst) (offset : Int), code[pc]? = some i → i.offset? = some offset →
    0 < offset ∧ pc + offset < code.size

/-- Some way from a place leads to an instruction that reads a register, and no instruction before
it writes the register. -/
def ReadsFirst (arity : FuncId → Nat) (code : ForkLisp.Code) (r : Reg) (pc : Nat) : Prop :=
  ∃ is last i, Path code pc is last ∧ code[last]? = some i ∧ r ∈ i.uses arity ∧ ∀ j ∈ is, r ∉ j.defs

section

variable {arity : FuncId → Nat} {code : ForkLisp.Code} {r : Reg} {pc next : Nat} {i : Inst}

/-! ### Reading first, by the next instruction -/

theorem ReadsFirst.inst (h : ReadsFirst arity code r pc) : ∃ i, code[pc]? = some i := by
  obtain ⟨is, last, i, hpath, hi, -, -⟩ := h
  cases hpath with
  | nil => exact ⟨i, hi⟩
  | cons hj _ _ => exact ⟨_, hj⟩

/-- A register may still be read at an instruction if the instruction reads it, or if it does not
write it and the register may still be read where control goes next. -/
theorem readsFirst_iff (hi : code[pc]? = some i) :
    ReadsFirst arity code r pc ↔
      r ∈ i.uses arity ∨ (r ∉ i.defs ∧ ∃ next, Goes i pc next ∧ ReadsFirst arity code r next) := by
  constructor
  · rintro ⟨is, last, j, hpath, hj, hr, hdefs⟩
    cases hpath with
    | nil =>
      obtain rfl := Option.some.inj (hi.symm.trans hj)
      exact .inl hr
    | cons hi' hg hpath =>
      obtain rfl := Option.some.inj (hi.symm.trans hi')
      obtain ⟨hhead, htail⟩ := List.forall_mem_cons.mp hdefs
      exact .inr ⟨hhead, _, hg, _, last, j, hpath, hj, hr, htail⟩
  · rintro (hr | ⟨hhead, next, hg, is, last, j, hpath, hj, hr, htail⟩)
    · exact ⟨[], pc, i, .nil, hi, hr, fun _ hmem => absurd hmem List.not_mem_nil⟩
    · exact ⟨i :: is, last, j, .cons hi hg hpath, hj, hr, List.forall_mem_cons.mpr ⟨hhead, htail⟩⟩

/-! ### What the sweep finds -/

/-- Control goes forward wherever it goes. -/
theorem JumpsForward.lt_of_goes (h : JumpsForward code) (hi : code[pc]? = some i)
    (hg : Goes i pc next) : pc < next := by
  cases hg with
  | through => exact Nat.lt_succ_self pc
  | jump ho ht =>
    obtain ⟨hpos, -⟩ := h pc i _ hi ho
    have := jumpTarget_eq_some.mp ht
    omega

/-- A register is live after an instruction exactly if it is live at a place where control goes
next. -/
theorem mem_liveAfter_iff (h : JumpsForward code) (hi : code[pc]? = some i) :
    r ∈ liveAfter i (sweep arity (code.toList.drop (pc + 1))) ↔
      ∃ next, Goes i pc next ∧ r ∈ liveAt (sweep arity code.toList) next := by
  constructor
  · intro hr
    rw [← drop_sweep] at hr
    -- the place behind, and the target of a jump
    have hthrough : r ∈ (if fallsThrough i then liveAt ((sweep arity code.toList).drop (pc + 1)) 0
        else .empty) → ∃ next, Goes i pc next ∧ r ∈ liveAt (sweep arity code.toList) next := by
      intro hr
      split at hr
      · rw [liveAt_drop] at hr
        exact ⟨pc + 1, .through ‹_›, hr⟩
      · exact absurd hr RegSet.not_mem_empty
    unfold liveAfter at hr
    dsimp only at hr
    split at hr
    · rename_i offset ho
      obtain ⟨hpos, -⟩ := h pc i offset hi ho
      rw [if_pos hpos] at hr
      rcases RegSet.mem_union.mp hr with hr | hr
      · exact hthrough hr
      · rw [liveAt_drop] at hr
        exact ⟨_, .jump ho (jumpTarget_eq_some.mpr (by omega)), hr⟩
    · exact hthrough hr
  · rintro ⟨next, hg, hr⟩
    cases hg with
    | through hf => exact mem_liveAfter_next hf hr
    | jump ho ht => exact mem_liveAfter_jump ho ht (h.lt_of_goes hi (.jump ho ht)) hr

/-- A register is live at a place exactly if it may still be read there. -/
theorem mem_liveAt_iff (h : JumpsForward code) :
    r ∈ liveAt (sweep arity code.toList) pc ↔ ReadsFirst arity code r pc := by
  -- control only goes forward, so that less of the code is left behind each place
  induction hn : code.size - pc using Nat.strongRecOn generalizing pc with
  | ind n ih =>
    cases hi : code[pc]? with
    | none =>
      have hsize : code.toList.length ≤ pc := Array.getElem?_eq_none_iff.mp hi
      constructor
      · intro hr
        exact absurd hr (not_mem_liveAt_sweep hsize)
      · intro hr
        obtain ⟨i, hi'⟩ := hr.inst
        cases hi.symm.trans hi'
    | some i =>
      have hpc : pc < code.size := (Array.getElem?_eq_some_iff.mp hi).1
      have hrest : ∀ next, Goes i pc next →
          (r ∈ liveAt (sweep arity code.toList) next ↔ ReadsFirst arity code r next) := by
        intro next hg
        have := h.lt_of_goes hi hg
        exact ih _ (by omega) rfl
      have hlive : r ∈ liveAfter i (sweep arity (code.toList.drop (pc + 1))) ↔
          ∃ next, Goes i pc next ∧ ReadsFirst arity code r next := by
        rw [mem_liveAfter_iff h hi]
        exact exists_congr fun next => and_congr_right (hrest next)
      rw [liveAt_sweep (by rwa [Array.getElem?_toList]), hlive, readsFirst_iff hi, and_comm]

end

/-- The registers that are live after an instruction of code whose jumps go forward are those that
may still be read where control goes next, however many arguments functions take. -/
theorem Liveness.isLiveAfter_iff {code : ForkLisp.Code} (h : JumpsForward code)
    (arity : FuncId → Nat) :
    ∃ live, Liveness.of? (fun f => some (arity f)) code = some live ∧
      ∀ pc r, live.isLiveAfter pc r = true ↔
        ∃ i next, code[pc]? = some i ∧ Goes i pc next ∧ ReadsFirst arity code r next := by
  have hknown : (code.all fun i => i.callee?.all fun f => ((some (arity f)).isSome)) = true := by
    simp
  refine ⟨_, if_pos hknown, fun pc r => ?_⟩
  rw [isLiveAfter_of (if_pos hknown)]
  constructor
  · rintro ⟨i, hi, hr⟩
    obtain ⟨next, hg, hr⟩ := (mem_liveAfter_iff h hi).mp hr
    exact ⟨i, next, hi, hg, (mem_liveAt_iff h).mp hr⟩
  · rintro ⟨i, next, hi, hg, hr⟩
    exact ⟨i, hi, (mem_liveAfter_iff h hi).mpr ⟨next, hg, (mem_liveAt_iff h).mpr hr⟩⟩

/-- Code that passes arguments in registers whose bits lie in different words. -/
def passing : ForkLisp.Code :=
  #[.branch .lt 2 0 1, .ret 0, .call 0 70, .ret 68, .stop]

theorem jumpsForward_passing : JumpsForward passing := by
  intro pc i offset hi ho
  match pc with
  | 0 =>
    obtain rfl := Option.some.inj hi
    cases ho
    decide
  | 1 | 2 | 3 | 4 =>
    obtain rfl := Option.some.inj hi
    cases ho
  | pc + 5 => simp [passing] at hi

/-- The last of the arguments may still be read behind the branch, and the register above it may
not. -/
theorem Liveness.isLiveAfter_iff_passing :
    ∃ live, Liveness.of? (fun _ => some 64) passing = some live ∧
      live.isLiveAfter 0 133 = true ∧ ReadsFirst (fun _ => 64) passing 133 2 ∧
      live.isLiveAfter 0 134 = false := by
  obtain ⟨live, hlive, hiff⟩ := Liveness.isLiveAfter_iff jumpsForward_passing fun _ => 64
  have hreads : ReadsFirst (fun _ => 64) passing 133 2 :=
    ⟨[], 2, .call 0 70, .nil, rfl, by decide, by simp⟩
  have habove : (Liveness.of? (fun _ => some 64) passing).map (·.isLiveAfter 0 134) =
    some false := by
    cbv
  rw [hlive] at habove
  exact ⟨live, hlive, (hiff 0 133).mpr ⟨_, 2, rfl, .jump rfl rfl, hreads⟩, hreads,
    Option.some.inj habove⟩

end ForkLisp.Optimize
