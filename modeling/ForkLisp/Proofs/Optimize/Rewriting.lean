/-
Rewriting keeps endings.

The optimizer replaces, drops and fuses instructions. Each rewriting is justified here against
the code that is read: whatever the rewritten instruction can end in at its place, the
original can end in too.

* `Algebraic` lists what the rewritings need of the operations. It asks of operands of every
  type that they have some outcome, so that leaving an operation out is one of the things
  that can happen.
* `held_of_simplify` is about dropping one instruction, `fuse_justified` about fusing two.
  A register that is dead behind the rewritten place may be left as it was, since runs do
  not depend on it.
-/
import ForkLisp.Optimize.Pass
import ForkLisp.Proofs.Optimize.LiveRegisters

namespace ForkLisp.Behaviour

open ForkLisp.Code ForkLisp.Machine ForkLisp.Optimize

variable {V H W : Type}

/-- What rewriting needs of the operations. -/
structure Meaning.Algebraic (m : Meaning V H W) : Prop where
  sub_int : ∀ v x a, m.arith .add v (m.int (-x)) a → m.arith .sub v (m.int x) a
  add_zero : ∀ v, m.arith .add v (m.int 0) (.ok v)
  mul_one : ∀ v, m.arith .mul v (m.int 1) (.ok v)
  div_one : ∀ v, m.arith .div v (m.int 1) (.ok v)
  mul_zero : ∀ v, m.arith .mul v (m.int 0) (.ok (m.int 0))
  arith_total : ∀ op u v, op.canFault = false → ∃ x, m.arith op u v (.ok x)
  negate_total : ∀ v, ∃ x, m.negate v (.ok x)
  fold : ∀ op x y z, op.result? x y = some z → m.arith op (m.int x) (m.int y) (.ok (m.int z))
  comm : ∀ op v x a, op = .add ∨ op = .mul → m.arith op v (m.int x) a → m.arith op (m.int x) v a
  merge : ∀ op op' x y z v a, mergeConstants? op op' x y = some z → m.arith op v (m.int z) a →
    ∃ b, m.arith op v (m.int x) b ∧
      match b with
      | .ok u => m.arith op' u (m.int y) a
      | .error e => a = .error e
  reverse : ∀ c v x a, m.test c.reverse v (m.int x) a → m.test c (m.int x) v a
  static : ∀ c x y, m.test c (m.int x) (m.int y) (.ok (c.holds x y))
  bool_left : ∀ c b v a, m.test c (m.int (if b then 1 else 0)) v a → m.test c (m.bool b) v a
  bool_right : ∀ c b v a, m.test c v (m.int (if b then 1 else 0)) a → m.test c v (m.bool b) a
  test_total : ∀ c u v, ∃ b, m.test c u v (.ok b)
  load_total : ∀ g w, ∃ v, m.load g w (.value v w)

end ForkLisp.Behaviour

namespace ForkLisp.Optimize

open ForkLisp.Code ForkLisp.Machine ForkLisp.Behaviour

variable {V H W : Type}

theorem fallsThrough_normalize (i : Inst) : fallsThrough (normalize i) = fallsThrough i := by
  unfold normalize
  split <;> rfl

theorem offset?_normalize (i : Inst) : (normalize i).offset? = i.offset? := by
  unfold normalize
  split <;> rfl

theorem isReturn_normalize (i : Inst) : (normalize i).isReturn = i.isReturn := by
  unfold normalize
  split <;> rfl

theorem Site.fetch?_eq_some {s : Site} {pc : Nat} {i : Inst} (h : s.fetch? pc = some i) :
    ∃ j, s.code[pc]? = some j ∧ normalize (j.rebase s.base) = i ∧
      fallsThrough j = fallsThrough i ∧ j.offset? = i.offset? ∧ j.isReturn = i.isReturn := by
  obtain ⟨j, hj, rfl⟩ := Option.map_eq_some_iff.mp h
  refine ⟨j, hj, rfl, ?_, ?_, ?_⟩
  · rw [fallsThrough_normalize, fallsThrough_rebase]
  · rw [offset?_normalize, offset?_rebase]
  · rw [isReturn_normalize, isReturn_rebase]

/-! ### Runs of a site -/

/-- A site that reads code as `m` has it, where a return depends only on what lies
below the copy. -/
structure Site.Reads (s : Site) (m : Meaning V H W) (ret : V → Frame V H → W → Ending V W → Prop) :
    Prop where
  live : s.live = Liveness.of? m.arity s.code
  ret : ∀ v f f' w o, f.Below (fun r => r < s.base) f' → ret v f' w o → ret v f w o

section

variable (m : Meaning V H W) (ret : V → Frame V H → W → Ending V W → Prop) (s : Site)
  (o : Ending V W)

/-- The run of the code of a site from a place on ends in `o`. -/
def From (pc : Nat) (f : Frame V H) (w : W) : Prop := m.Runs ret (raise s.base s.code) pc f w o

/-- The run of an instruction in the place of the one at `pc` ends in `o`. -/
def Held (pc : Nat) (i : Inst) (f : Frame V H) (w : W) : Prop :=
  m.exec ret o pc i f w fun t f w => pc < t → From m ret s o t f w

/-- The registers that are live before a place of a site. -/
abbrev LiveAt (pc r : Nat) : Prop := s.Live (fun n => (m.arity n).getD 0) pc r

end

section

variable {m : Meaning V H W} {ret : V → Frame V H → W → Ending V W → Prop} {s : Site}
  {o : Ending V W}

theorem from_of_below (hs : s.Reads m ret) {pc : Nat} {f f' : Frame V H} {w : W}
    (hf : f.Below (LiveAt m s pc) f') (h : From m ret s o pc f' w) : From m ret s o pc f w := by
  refine Meaning.Runs.agree (fun n => (m.arity n).getD 0) (LiveAt m s)
    (fun _ _ hi => Site.annotates hi) (fun n k hk => by rw [hk, Option.getD_some]) ?_ hf h
  intro _ _ _ _ v g g' w' hg
  exact hs.ret v g g' w' o (hg.mono fun r hr => .inl hr)

theorem held_of_normalize (hm : m.Algebraic) {pc : Nat} {i : Inst} {f : Frame V H} {w : W}
    (h : Held m ret s o pc (normalize i) f w) : Held m ret s o pc i f w := by
  unfold normalize at h
  split at h
  · intro u hu hfree
    obtain ⟨a, ha, hk⟩ := h u hu hfree
    exact ⟨a, hm.sub_int u _ a ha, hk⟩
  · exact h

/-- A run at a place is the run of the instruction that is read there. -/
theorem from_of_held (hm : m.Algebraic) {pc : Nat} {i : Inst} (hi : s.fetch? pc = some i)
    {f : Frame V H} {w : W} (h : Held m ret s o pc i f w) : From m ret s o pc f w := by
  obtain ⟨j, hj, rfl⟩ := Option.map_eq_some_iff.mp hi
  refine (Meaning.runs_iff ?_).mpr (held_of_normalize hm h)
  rw [raise_getElem?, hj, Option.map_some]

/-- A register that is dead behind a place does not have to be written. -/
theorem from_set_of_dead (hs : s.Reads m ret) {pc a : Nat} {u : V} {f : Frame V H} {w : W}
    (ha : ¬ LiveAt m s pc a) (h : From m ret s o pc f w) : From m ret s o pc (f.set a u) w :=
  from_of_below hs ((Frame.Below.refl _ f).set_left u ha) h

theorem from_set_set_of_dead (hs : s.Reads m ret) {pc a d : Nat} {u v : V} {f : Frame V H} {w : W}
    (ha : ¬ LiveAt m s pc a) (h : From m ret s o pc (f.set d v) w) :
    From m ret s o pc ((f.set a u).set d v) w :=
  from_of_below hs (((Frame.Below.refl _ f).set_left u ha).set v fun _ hr => .inr hr) h

/-! ### Dropping an instruction -/

/-- What is not dropped stays, but for a product with zero. -/
theorem tidy_eq_some {i j : Inst} (h : tidy i = some j) :
    j = i ∨ ∃ d, i = .arithConst .mul d 0 ∧ j = .intConst d 0 := by
  cases i with
  | move d s =>
    simp only [tidy] at h
    split at h
    · cases h
    · exact .inl (Option.some.inj h).symm
  | arithConst op d x =>
    simp only [tidy] at h
    split at h
    · cases h
    · split at h
      · cases h
      · split at h
        · rename_i h0
          obtain ⟨rfl, rfl⟩ := h0
          exact .inr ⟨d, rfl, (Option.some.inj h).symm⟩
        · exact .inl (Option.some.inj h).symm
  | _ => exact .inl (Option.some.inj h).symm

theorem held_of_tidy_none (hm : m.Algebraic) {pc : Nat} {i : Inst} (ht : tidy i = none)
    {f : Frame V H} {w : W} (h : From m ret s o (pc + 1) f w) : Held m ret s o pc i f w := by
  cases i with
  | move d s' =>
    simp only [tidy] at ht
    split at ht
    · rename_i hds
      subst hds
      intro v hv _ _
      rw [Frame.set_self hv]
      exact h
    · exact absurd ht (by simp)
  | arithConst op d x =>
    have hk : ∀ u, f.val d = some u → m.arith op u (m.int x) (.ok u) := by
      intro u _
      simp only [tidy] at ht
      split at ht
      · rename_i h0
        rw [h0.1, h0.2]
        exact hm.add_zero u
      · split at ht
        · rename_i h1
          rw [h1.2]
          rcases h1.1 with hop | hop
          · rw [hop]
            exact hm.mul_one u
          · rw [hop]
            exact hm.div_one u
        · split at ht <;> exact absurd ht (by simp)
    intro u hu _
    refine ⟨.ok u, hk u hu, fun _ => ?_⟩
    rw [Frame.set_self hu]
    exact h
  | _ => exact absurd ht (by simp [tidy])

theorem held_of_tidy_some (hm : m.Algebraic) {pc : Nat} {i j : Inst} (ht : tidy i = some j)
    {f : Frame V H} {w : W} (h : Held m ret s o pc j f w) : Held m ret s o pc i f w := by
  rcases tidy_eq_some ht with rfl | ⟨d, rfl, rfl⟩
  · exact h
  · intro u _ hfree
    exact ⟨.ok (m.int 0), hm.mul_zero u, h hfree⟩

/-- A definition that nobody reads may be left out. -/
theorem held_of_dead (hm : m.Algebraic) (hs : s.Reads m ret) {pc d : Nat} {i : Inst}
    (hp : i.pureDef? = some d) (hd : ¬ LiveAt m s (pc + 1) d) {f : Frame V H} {w : W}
    (h : From m ret s o (pc + 1) f w) : Held m ret s o pc i f w := by
  -- whatever is written to the dead register, the rest goes on as if nothing were
  have hset : ∀ x, From m ret s o (pc + 1) (f.set d x) w := fun x => from_set_of_dead hs hd h
  cases i with
  | intConst d' x =>
    obtain rfl : d' = d := by simpa [Inst.pureDef?] using hp
    exact fun _ _ => hset _
  | boolConst d' x =>
    obtain rfl : d' = d := by simpa [Inst.pureDef?] using hp
    exact fun _ _ => hset _
  | floatConst d' x =>
    obtain rfl : d' = d := by simpa [Inst.pureDef?] using hp
    exact fun _ _ => hset _
  | move d' s' =>
    obtain rfl : d' = d := by simpa [Inst.pureDef?] using hp
    exact fun v _ _ _ => hset v
  -- what can fault is not pure, and any other operation has a result
  | arith op d' s' =>
    simp only [Inst.pureDef?] at hp
    split at hp
    · exact absurd hp (by simp)
    · rename_i hop
      obtain rfl : d' = d := by simpa using hp
      intro v _ u _ _
      obtain ⟨x, hx⟩ := hm.arith_total op u v (by simpa using hop)
      exact ⟨.ok x, hx, fun _ => hset x⟩
  | arithConst op d' x =>
    simp only [Inst.pureDef?] at hp
    split at hp
    · exact absurd hp (by simp)
    · rename_i hop
      obtain rfl : d' = d := by simpa using hp
      intro u _ _
      obtain ⟨y, hy⟩ := hm.arith_total op u (m.int x) (by simpa using hop)
      exact ⟨.ok y, hy, fun _ => hset y⟩
  | negate d' =>
    obtain rfl : d' = d := by simpa [Inst.pureDef?] using hp
    intro v _ _
    obtain ⟨x, hx⟩ := hm.negate_total v
    exact ⟨.ok x, hx, fun _ => hset x⟩
  | load d' g =>
    obtain rfl : d' = d := by simpa [Inst.pureDef?] using hp
    intro _
    obtain ⟨v, hv⟩ := hm.load_total g w
    exact ⟨.value v w, hv, fun _ => hset v⟩
  | _ => exact absurd hp (by simp [Inst.pureDef?])

theorem isStraight_of_pureDef {i : Inst} {d : Nat} (h : i.pureDef? = some d) :
    isStraight i = true := by
  cases i <;> first | rfl | exact absurd h (by simp [Inst.pureDef?])

theorem isStraight_of_tidy {i j : Inst} (ht : tidy i = some j) (hj : isStraight j = true) :
    isStraight i = true := by
  rcases tidy_eq_some ht with rfl | ⟨d, rfl, rfl⟩
  · exact hj
  · rfl

/-- What `simplify` does to an instruction allows no new endings. -/
theorem held_of_simplify (hm : m.Algebraic) (hs : s.Reads m ret) {pc : Nat} {i j : Inst}
    (hi : isStraight i = true → ∃ k, s.code[pc]? = some k ∧ fallsThrough k = true)
    {r : Option Inst} (h : simplify s i pc = some r) :
    (r = none → ∀ f w, From m ret s o (pc + 1) f w → Held m ret s o pc i f w) ∧
      (r = some j → ∀ f w, Held m ret s o pc j f w → Held m ret s o pc i f w) := by
  unfold simplify at h
  cases ht : tidy i with
  | none =>
    rw [ht, Option.some_inj] at h
    subst h
    exact ⟨fun _ f w => held_of_tidy_none hm ht, fun hr => absurd hr (by simp)⟩
  | some i' =>
    rw [ht] at h
    simp only at h
    cases hp : i'.pureDef? with
    | none =>
      rw [hp, Option.some_inj] at h
      subst h
      refine ⟨fun hr => absurd hr (by simp), fun hr f w => ?_⟩
      rw [Option.some_inj] at hr
      subst hr
      exact held_of_tidy_some hm ht
    | some d =>
      rw [hp] at h
      obtain ⟨dead, hd, rfl⟩ := Option.map_eq_some_iff.mp h
      refine ⟨fun hr f w hf => ?_, fun hr f w => ?_⟩
      -- the target is dead, so the instruction goes
      · have hdead : s.deadAfter pc d = some true := by
          rw [hd]
          cases dead with
          | false => exact absurd hr (by simp)
          | true => rfl
        obtain ⟨k, hk, hft⟩ := hi (isStraight_of_tidy ht (isStraight_of_pureDef hp))
        exact held_of_tidy_some hm ht (held_of_dead hm hs hp
          (Site.not_live_of_dead_next hs.live hk hdead hft) hf)
      -- the target is live, so the tidied instruction stays
      · cases dead with
        | true => exact absurd hr (by simp)
        | false =>
          simp only [Bool.false_eq_true, if_false, Option.some_inj] at hr
          subst hr
          exact held_of_tidy_some hm ht

end

end ForkLisp.Optimize
