/-
Live registers of code and of its copies.

The sweep from the end of code annotates it in the sense of `Annotates`: what an instruction reads
is live before it, and so is what it does not write and is live behind it (`annotates_sweep`). A
copy of code whose registers are moved up is annotated by the same sets moved up, together with all
registers below the copy (`Site.annotates`). A register that the copy reports as dead is not live at
any place where control goes next (`Site.not_live_of_dead_next`, `Site.not_live_of_dead_jump`).
-/
import ForkLisp.Optimize.Draft
import ForkLisp.Proofs.Behaviour.Agreement

namespace ForkLisp.Optimize

open ForkLisp.Code ForkLisp.Behaviour

theorem mem_liveAround {arity : FuncId → Nat} {i : Inst} {behind : List Live} {r : Nat} :
    r ∈ (liveAround arity i behind).before ↔
      r ∈ i.uses arity ∨ (r ∈ liveAfter i behind ∧ r ∉ i.defs) := by
  show r ∈ ((liveAfter i behind).eraseAll i.defs).insertAll (i.uses arity) ↔ _
  rw [RegSet.mem_insertAll, RegSet.mem_eraseAll]

theorem drop_sweep (arity : FuncId → Nat) (is : List Inst) (n : Nat) :
    (sweep arity is).drop n = sweep arity (is.drop n) := by
  induction is generalizing n with
  | nil => simp [sweep]
  | cons i is ih =>
    cases n with
    | zero => rfl
    | succ n => exact ih n

theorem liveAt_drop (behind : List Live) (n k : Nat) :
    liveAt (behind.drop n) k = liveAt behind (n + k) := by
  unfold liveAt
  rw [List.getElem?_drop]

/-- What the sweep finds around an instruction. -/
theorem sweep_getElem? {arity : FuncId → Nat} {is : List Inst} {pc : Nat} {i : Inst}
    (h : is[pc]? = some i) :
    (sweep arity is)[pc]? = some (liveAround arity i (sweep arity (is.drop (pc + 1)))) := by
  induction is generalizing pc with
  | nil => simp at h
  | cons j is ih =>
    cases pc with
    | zero =>
      rw [List.getElem?_cons_zero, Option.some_inj] at h
      subst h
      rfl
    | succ pc => exact ih h

/-- A register that is live at the place behind is live after an instruction that goes on there. -/
theorem mem_liveAfter_next {arity : FuncId → Nat} {is : List Inst} {pc : Nat} {i : Inst} {r : Nat}
    (hf : fallsThrough i = true) (hr : r ∈ liveAt (sweep arity is) (pc + 1)) :
    r ∈ liveAfter i (sweep arity (is.drop (pc + 1))) := by
  have hr : r ∈ liveAt (sweep arity (is.drop (pc + 1))) 0 := by
    rw [← drop_sweep, liveAt_drop]
    exact hr
  unfold liveAfter
  simp only [hf, if_true]
  cases i.offset? with
  | none => exact hr
  | some offset =>
    simp only
    split
    · exact RegSet.mem_union.mpr (.inl hr)
    · exact hr

/-- A register that is live at the target of a jump is live after the jump. -/
theorem mem_liveAfter_jump {arity : FuncId → Nat} {is : List Inst} {pc t : Nat} {i : Inst} {r : Nat}
    {offset : Int} (ho : i.offset? = some offset) (ht : jumpTarget pc offset = some t)
    (hlt : pc < t) (hr : r ∈ liveAt (sweep arity is) t) :
    r ∈ liveAfter i (sweep arity (is.drop (pc + 1))) := by
  have hpos : (pc : Int) + offset = t := jumpTarget_eq_some.mp ht
  have hn : t = pc + 1 + (offset.toNat - 1) := by omega
  have hr : r ∈ liveAt (sweep arity (is.drop (pc + 1))) (offset.toNat - 1) := by
    rw [← drop_sweep, liveAt_drop, ← hn]
    exact hr
  unfold liveAfter
  rw [ho]
  simp only
  rw [if_pos (by omega)]
  exact RegSet.mem_union.mpr (.inr hr)

theorem liveAt_sweep {arity : FuncId → Nat} {is : List Inst} {pc : Nat} {i : Inst}
    (h : is[pc]? = some i) {r : Nat} :
    r ∈ liveAt (sweep arity is) pc ↔
      r ∈ i.uses arity ∨ (r ∈ liveAfter i (sweep arity (is.drop (pc + 1))) ∧ r ∉ i.defs) := by
  unfold liveAt
  rw [sweep_getElem? h]
  exact mem_liveAround

theorem length_sweep (arity : FuncId → Nat) (is : List Inst) :
    (sweep arity is).length = is.length := by
  induction is with
  | nil => rfl
  | cons i is ih => exact congrArg (· + 1) ih

/-- Nothing is live behind the code. -/
theorem not_mem_liveAt_sweep {arity : FuncId → Nat} {is : List Inst} {pc r : Nat}
    (h : is.length ≤ pc) :
    r ∉ liveAt (sweep arity is) pc := by
  unfold liveAt
  rw [List.getElem?_eq_none (by rwa [length_sweep])]
  exact RegSet.not_mem_empty

/-- What is live after an instruction is what the sweep finds there. -/
theorem Liveness.isLiveAfter_of {arity? : FuncId → Option Nat} {code : ForkLisp.Code}
    {live : Liveness} {pc r : Nat} (h : Liveness.of? arity? code = some live) :
    live.isLiveAfter pc r = true ↔ ∃ i, code[pc]? = some i ∧
      r ∈ liveAfter i (sweep (fun f => (arity? f).getD 0) (code.toList.drop (pc + 1))) := by
  unfold Liveness.of? at h
  split at h
  · obtain rfl := Option.some.inj h
    unfold isLiveAfter
    rw [List.getElem?_toArray, List.getElem?_map]
    cases hi : code[pc]? with
    | none =>
      rw [List.getElem?_eq_none (by rw [length_sweep]; exact Array.getElem?_eq_none_iff.mp hi)]
      simp
    | some i =>
      rw [sweep_getElem? (by rwa [Array.getElem?_toList])]
      simp only [Option.map_some, Option.some.injEq, exists_eq_left', RegSet.contains_iff]
      rfl
  · cases h

theorem defs_of_offset {i : Inst} {offset : Int} (h : i.offset? = some offset) : i.defs = [] := by
  cases i <;> first | rfl | exact absurd h (by simp [Inst.offset?])

/-- The sets of the sweep annotate the code. -/
theorem annotates_sweep {arity : FuncId → Nat} {is : List Inst} {pc : Nat} {i : Inst}
    (h : is[pc]? = some i) :
    Annotates arity i pc fun pc r => r ∈ liveAt (sweep arity is) pc := by
  refine ⟨fun r hr => (liveAt_sweep h).mpr (.inl hr), fun hf r hr => ?_, ?_⟩
  · by_cases hd : r ∈ i.defs
    · exact .inl hd
    · exact .inr ((liveAt_sweep h).mpr (.inr ⟨mem_liveAfter_next hf hr, hd⟩))
  · intro offset t ho ht hlt r hr
    refine (liveAt_sweep h).mpr (.inr ⟨mem_liveAfter_jump ho ht hlt hr, ?_⟩)
    rw [defs_of_offset ho]
    exact List.not_mem_nil

/-! ### Copies -/

theorem offset?_rebase (b : Nat) (i : Inst) : (i.rebase b).offset? = i.offset? := by
  cases i <;> rfl

theorem fallsThrough_rebase (b : Nat) (i : Inst) : fallsThrough (i.rebase b) = fallsThrough i := by
  cases i <;> rfl

theorem isReturn_rebase (b : Nat) (i : Inst) : (i.rebase b).isReturn = i.isReturn := by
  cases i <;> rfl

theorem mem_uses_rebase {arity : FuncId → Nat} {b : Nat} {i : Inst} {r : Nat}
    (h : r ∈ (i.rebase b).uses arity) : b ≤ r ∧ r - b ∈ i.uses arity := by
  cases i <;> simp only [Inst.rebase, Inst.uses, List.mem_cons, List.not_mem_nil, or_false,
    List.mem_range'_1] at h ⊢ <;> grind

theorem mem_defs_rebase {b : Nat} {i : Inst} {r : Nat} (hb : b ≤ r) (h : r - b ∈ i.defs) :
    r ∈ (i.rebase b).defs := by
  cases i <;> simp only [Inst.rebase, Inst.defs, Inst.below, List.mem_cons, List.not_mem_nil,
    or_false] at h ⊢ <;> grind

/-- The instructions of code with every register moved up. -/
def raise (b : Nat) (code : Code) : Code := code.map (Inst.rebase b)

theorem raise_getElem? (b : Nat) (code : Code) (pc : Nat) :
    (raise b code)[pc]? = (code[pc]?).map (Inst.rebase b) := by
  rw [raise, Array.getElem?_map]

theorem rebase_zero (i : Inst) : i.rebase 0 = i := by
  cases i <;> rfl

theorem raise_zero (code : Code) : raise 0 code = code := by
  rw [raise, show Inst.rebase 0 = id from funext rebase_zero, Array.map_id]

/-- Whether a register is live in a copy. Those below the copy belong to its caller. -/
def Site.Live (s : Site) (arity : FuncId → Nat) (pc r : Nat) : Prop :=
  r < s.base ∨ r - s.base ∈ liveAt (sweep arity s.code.toList) pc

namespace Site

variable {s : Site} {arity : FuncId → Nat}

theorem annotates {pc : Nat} {i : Inst} (h : (raise s.base s.code)[pc]? = some i) :
    Annotates arity i pc (s.Live arity) := by
  rw [raise_getElem?, Option.map_eq_some_iff] at h
  obtain ⟨j, hj, rfl⟩ := h
  have hs : Annotates arity j pc fun pc r => r ∈ liveAt (sweep arity s.code.toList) pc :=
    annotates_sweep (by rw [Array.getElem?_toList]; exact hj)
  refine ⟨fun r hr => ?_, fun hf r hr => ?_, fun offset t ho ht hlt r hr => ?_⟩
  · exact .inr (hs.uses _ (mem_uses_rebase hr).2)
  · rcases hr with hr | hr
    · exact .inr (.inl hr)
    · by_cases hb : r < s.base
      · exact .inr (.inl hb)
      · rcases hs.next (by rw [← hf, fallsThrough_rebase]) _ hr with hd | hl
        · exact .inl (mem_defs_rebase (by omega) hd)
        · exact .inr (.inr hl)
  · rcases hr with hr | hr
    · exact .inl hr
    · exact .inr (hs.jump offset t (by rw [← ho, offset?_rebase]) ht hlt _ hr)

/-- What a copy reports as dead lies in the copy and is not live after the place. -/
theorem deadAfter_eq_true {arity? : FuncId → Option Nat} (hl : s.live = Liveness.of? arity? s.code)
    {pc r : Nat} {i : Inst} (hi : s.code[pc]? = some i) (hd : s.deadAfter pc r = some true) :
    s.base ≤ r ∧ r - s.base ∉
      liveAfter i (sweep (fun f => (arity? f).getD 0) (s.code.toList.drop (pc + 1))) := by
  unfold deadAfter at hd
  split at hd
  · exact absurd hd (by simp)
  · obtain ⟨l, hs, hd⟩ := Option.map_eq_some_iff.mp hd
    refine ⟨by unfold Reg at *; omega, fun hmem => ?_⟩
    have hlive := (Liveness.isLiveAfter_of (hl.symm.trans hs)).mpr ⟨i, hi, hmem⟩
    rw [hlive] at hd
    exact absurd hd (by simp)

theorem not_live_of_dead_next {arity? : FuncId → Option Nat}
    (hl : s.live = Liveness.of? arity? s.code) {pc r : Nat} {i : Inst} (hi : s.code[pc]? = some i)
    (hd : s.deadAfter pc r = some true) (hf : fallsThrough i = true) :
    ¬ s.Live (fun f => (arity? f).getD 0) (pc + 1) r := by
  obtain ⟨hb, hn⟩ := deadAfter_eq_true hl hi hd
  rintro (hlt | hmem)
  · exact Nat.not_lt.mpr hb hlt
  · exact hn (mem_liveAfter_next hf hmem)

theorem not_live_of_dead_jump {arity? : FuncId → Option Nat}
    (hl : s.live = Liveness.of? arity? s.code) {pc t r : Nat} {i : Inst} {offset : Int}
    (hi : s.code[pc]? = some i) (hd : s.deadAfter pc r = some true)
    (ho : i.offset? = some offset) (ht : jumpTarget pc offset = some t) (hlt : pc < t) :
    ¬ s.Live (fun f => (arity? f).getD 0) t r := by
  obtain ⟨hb, hn⟩ := deadAfter_eq_true hl hi hd
  rintro (h | hmem)
  · exact Nat.not_lt.mpr hb h
  · exact hn (mem_liveAfter_jump ho ht hlt hmem)

end Site

end ForkLisp.Optimize
