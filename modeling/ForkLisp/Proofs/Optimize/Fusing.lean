/-
Fusing neighbours keeps endings.

`Fusion.Justifies` says what the outcome of a fusion owes to the two instructions that it replaces:
whatever it can end in, they can end in too. `fuse_justified` shows it for every rule, from the laws
of `Algebraic` and from the registers that are dead behind the second instruction.
-/
import ForkLisp.Proofs.Optimize.FusionRules
import ForkLisp.Proofs.Optimize.Rewriting

namespace ForkLisp.Optimize

open ForkLisp.Code ForkLisp.Machine ForkLisp.Behaviour

variable {V H W : Type} {m : Meaning V H W} {ret : V → Frame V H → W → Ending V W → Prop}
  {s : Site} {o : Ending V W}

/-- What stands in the place of two instructions, the second of which was read at `pc`, has endings
that are among those of `target` only. -/
def Fusion.Justifies (m : Meaning V H W) (ret : V → Frame V H → W → Ending V W → Prop) (s : Site)
    (o : Ending V W) (pc : Nat) (target : Frame V H → W → Prop) : Fusion → Prop
  | .into j => ∀ f w, Held m ret s o pc j f w → target f w
  | .split first rest => ∀ f w,
      m.exec ret o pc first f w (fun _ f w => Held m ret s o pc rest f w) → target f w
  | .vanish => ∀ f w, From m ret s o (pc + 1) f w → target f w
  | .apart => True

/-- What is known of the second instruction of a pair: where it is read, and which registers are not
live behind it. -/
structure Second (m : Meaning V H W) (ret : V → Frame V H → W → Ending V W → Prop) (s : Site)
    (pc : Nat) (next : Inst) : Prop where
  reads : s.Reads m ret
  through : ∀ a, s.deadAfter pc a = some true → fallsThrough next = true → ¬ LiveAt m s (pc + 1) a
  jump : ∀ a offset t, s.deadAfter pc a = some true → next.offset? = some offset →
    jumpTarget pc offset = some t → pc < t → ¬ LiveAt m s t a

theorem Second.of_fetch (hs : s.Reads m ret) {pc : Nat} {next : Inst}
    (hn : s.fetch? pc = some next) : Second m ret s pc next := by
  obtain ⟨j, hj, -, hf, ho, -⟩ := Site.fetch?_eq_some hn
  refine ⟨hs, fun a hd hft => ?_, fun a offset t hd hoff ht hlt => ?_⟩
  · exact Site.not_live_of_dead_next hs.live hj hd (by rw [hf, hft])
  · exact Site.not_live_of_dead_jump hs.live hj hd (by rw [ho, hoff]) ht hlt

/-- A dead register may keep its value before a test that does not read it any more. -/
theorem branch_set_of_dead {pc : Nat} {next : Inst} (h : Second m ret s pc next) {a l l' : Nat}
    {v v' u : V} {offset : Int} {c c' : Comparison} (ho : next.offset? = some offset)
    (hft : fallsThrough next = true) (hd : s.deadAfter pc a = some true) {f : Frame V H} {w : W}
    (htest : ∀ x b, (f.set a u).val l = some x → ∃ y, f.val l' = some y ∧
      (m.test c' y v' b → m.test c x v b))
    (hb : m.branch c' offset l' v' pc f w o fun t => pc < t → From m ret s o t f w) :
    m.branch c offset l v pc (f.set a u) w o
      fun t => pc < t → From m ret s o t (f.set a u) w := by
  intro x hx
  obtain ⟨y, hy, -⟩ := htest x (.ok true) hx
  obtain ⟨b, htb, hk⟩ := hb y hy
  obtain ⟨y', hy', hxb⟩ := htest x b hx
  rw [hy, Option.some_inj] at hy'
  subst hy'
  refine ⟨b, hxb htb, orFault_mono (fun b _ hg => ⟨fun ht t hj hlt => ?_, fun hn hlt => ?_⟩) hk⟩
  · exact from_set_of_dead h.reads (h.jump a offset t hd ho hj hlt) (hg.1 ht t hj hlt)
  · exact from_set_of_dead h.reads (h.through a hd hft) (hg.2 hn hlt)

/-- A value that is copied on is written to where it goes in the end. -/
theorem held_move_of_dead {pc a d : Nat} (h : Second m ret s pc (.move d a))
    (hd : s.deadAfter pc a = some true) {u : V} {f : Frame V H} {w : W}
    (hf : f.Free d → pc < pc + 1 → From m ret s o (pc + 1) (f.set d u) w) :
    Held m ret s o pc (.move d a) (f.set a u) w := by
  intro v hv hfree hlt
  rw [Frame.val_set_self, Option.some_inj] at hv
  subst hv
  exact from_set_set_of_dead h.reads (h.through a hd rfl) (hf hfree hlt)

/-- An operand is used without being copied. -/
theorem held_arith_of_dead {pc a d : Nat} {op : ArithOp} (h : Second m ret s pc (.arith op d a))
    (hda : d ≠ a) (hd : s.deadAfter pc a = some true) {u : V} {f : Frame V H} {w : W}
    (hf : m.operate op d u f w o fun f => pc < pc + 1 → From m ret s o (pc + 1) f w) :
    Held m ret s o pc (.arith op d a) (f.set a u) w := by
  intro v hv x hx hfree
  rw [Frame.val_set_self, Option.some_inj] at hv
  subst hv
  rw [Frame.val_set_of_ne _ _ hda] at hx
  obtain ⟨b, hb, hk⟩ := hf x hx hfree
  refine ⟨b, hb, orFault_mono (fun z _ hz hlt => ?_) hk⟩
  exact from_set_set_of_dead h.reads (h.through a hd rfl) (hz hlt)

/-- A value is returned without being copied: the return does not see what the copy wrote to its own
registers. -/
theorem held_ret {pc a : Nat} (h : Second m ret s pc (.ret a)) (ha : s.base ≤ a) {u : V}
    {f : Frame V H} {w : W} (hf : ret u f w o) : Held m ret s o pc (.ret a) (f.set a u) w := by
  intro v hv
  rw [Frame.val_set_self, Option.some_inj] at hv
  subst hv
  refine h.reads.ret u _ f w o ?_ hf
  exact (Frame.Below.refl _ f).set_left u fun hlt => Nat.not_lt.mpr ha hlt

/-- Operands change places: the copy comes first. -/
theorem held_swap (hm : m.Algebraic) {pc a r : Nat} {op : ArithOp} (hra : r ≠ a)
    (hop : op = .add ∨ op = .mul) {x : Int64} {f : Frame V H} {w : W} (hfree : f.Free a)
    (hf : m.exec ret o pc (.move a r) f w fun _ f w => Held m ret s o pc (.arithConst op a x) f w) :
    Held m ret s o pc (.arith op a r) (f.set a (m.int x)) w := by
  intro v hv u hu _
  rw [Frame.val_set_of_ne _ _ hra] at hv
  rw [Frame.val_set_self, Option.some_inj] at hu
  subst hu
  obtain ⟨b, hb, hk⟩ := hf v hv hfree v (Frame.val_set_self _ _ _) hfree
  refine ⟨b, hm.comm op v x b hop hb, ?_⟩
  simp only [Frame.set_set] at hk ⊢
  exact hk

/-- An operator that is applied to two numbers has one result. -/
theorem held_fold (hm : m.Algebraic) {pc a : Nat} {op : ArithOp} {x z r : Int64}
    (hr : op.result? x z = some r) {f : Frame V H} {w : W} (hfree : f.Free a)
    (hf : Held m ret s o pc (.intConst a r) f w) :
    Held m ret s o pc (.arithConst op a z) (f.set a (m.int x)) w := by
  intro u hu _
  rw [Frame.val_set_self, Option.some_inj] at hu
  subst hu
  refine ⟨.ok (m.int r), hm.fold op x z r hr, ?_⟩
  show pc < pc + 1 → From m ret s o (pc + 1) ((f.set a (m.int x)).set a (m.int r)) w
  rw [Frame.set_set]
  exact hf hfree

/-- Either operand of a branch is read from the register that was copied. -/
theorem held_branch_of_dead {pc a b l r : Nat} {c : Comparison} {offset : Int}
    (h : Second m ret s pc (.branch c offset l r)) (hd : s.deadAfter pc a = some true) {u : V}
    {f : Frame V H} {w : W} (hu : f.val b = some u)
    (hf : Held m ret s o pc
      (.branch c offset (if l = a then b else l) (if r = a then b else r)) f w) :
    Held m ret s o pc (.branch c offset l r) (f.set a u) w := by
  intro v hv
  have hread : ∀ k z, (f.set a u).val k = some z → f.val (if k = a then b else k) = some z := by
    intro k z hz
    by_cases hk : k = a
    · rw [hk, Frame.val_set_self] at hz
      rw [if_pos hk, hu, hz]
    · rw [Frame.val_set_of_ne _ _ hk] at hz
      rw [if_neg hk, hz]
  refine branch_set_of_dead h rfl rfl hd (fun z t hz => ?_) (hf v (hread r v hv))
  exact ⟨z, hread l z hz, id⟩

/-- Two operators that follow each other are one. -/
theorem held_merge (hm : m.Algebraic) {pc a : Nat} {op op' : ArithOp} {x z r : Int64}
    (hr : mergeConstants? op op' x z = some r) {f : Frame V H} {w : W}
    (hf : Held m ret s o pc (.arithConst op a r) f w) :
    m.exec ret o pc (.arithConst op a x) f w fun _ f w =>
      Held m ret s o pc (.arithConst op' a z) f w := by
  intro u hu hfree
  obtain ⟨b, hb, hk⟩ := hf u hu hfree
  obtain ⟨c, hc, hcb⟩ := hm.merge op op' x z r u b hr hb
  refine ⟨c, hc, ?_⟩
  cases c with
  | error e =>
    subst hcb
    exact hk
  | ok v =>
    intro v' hv' _
    rw [Frame.val_set_self, Option.some_inj] at hv'
    subst hv'
    refine ⟨b, hcb, orFault_mono (fun t _ ht => ?_) hk⟩
    show pc < pc + 1 → From m ret s o (pc + 1) ((f.set a v).set a t) w
    rw [Frame.set_set]
    exact ht

/-! ### All pairs -/

/-- A test of a constant, which may be a truth value that counts as the number `x`. -/
theorem Tests.justified (hm : m.Algebraic) {pc a : Nat} {x : Int64} {next : Inst}
    (h : Second m ret s pc next) {u : V}
    (hleft : ∀ c v b, m.test c (m.int x) v b → m.test c u v b)
    (hright : ∀ c v b, m.test c v (m.int x) b → m.test c v u b) {y : Fusion}
    (hy : Tests (s.deadAfter pc) a x next y) :
    y.Justifies m ret s o pc fun f w => f.Free a → Held m ret s o pc next (f.set a u) w := by
  cases hy with
  | right hl hd =>
    intro f w hf _ v hv
    rw [Frame.val_set_self, Option.some_inj] at hv
    subst hv
    refine branch_set_of_dead h rfl rfl hd (fun z b hz => ?_) hf
    rw [Frame.val_set_of_ne _ _ hl] at hz
    exact ⟨z, hz, hright _ z b⟩
  | left hr hd =>
    intro f w hf _ v hv
    rw [Frame.val_set_of_ne _ _ hr] at hv
    refine branch_set_of_dead h rfl rfl hd (fun z b hz => ?_) hf
    rw [Frame.val_set_self, Option.some_inj] at hz
    subst hz
    exact ⟨v, hv, fun hb => hleft _ v b (hm.reverse _ v x b hb)⟩
  | @taken c offset z hc hd =>
    intro f w hf _ v hv
    rw [Frame.val_set_self, Option.some_inj] at hv
    subst hv
    refine ⟨.ok true, hleft c _ _ (hc ▸ hm.static c x z), fun _ t ht hlt => ?_, fun hb => ?_⟩
    · exact from_set_of_dead h.reads (h.jump _ offset t hd rfl ht hlt) (hf t ht hlt)
    · exact absurd hb (by simp)
  | @passed c offset z hc hd =>
    intro f w hf _ v hv
    rw [Frame.val_set_self, Option.some_inj] at hv
    subst hv
    refine ⟨.ok false, hleft c _ _ (hc ▸ hm.static c x z), fun hb => ?_, fun _ _ => ?_⟩
    · exact absurd hb (by simp)
    · exact from_set_of_dead h.reads (h.through _ hd rfl) hf

/-- What an instruction that only writes registers does before `next` at `pc`. -/
def Before (m : Meaning V H W) (ret : V → Frame V H → W → Ending V W → Prop) (s : Site)
    (o : Ending V W) (pc : Nat) (i next : Inst) (f : Frame V H) (w : W) : Prop :=
  m.exec ret o pc i f w fun _ f w => Held m ret s o pc next f w

theorem fuse_justified (hm : m.Algebraic) {pc : Nat} {i next : Inst} (hs : s.Reads m ret)
    (hn : s.fetch? pc = some next) (hi : ∀ d ∈ i.defs, s.base ≤ d) {y : Fusion}
    (hy : fuse (s.deadAfter pc) i next = some y) :
    y.Justifies m ret s o pc (Before m ret s o pc i next) := by
  have h := Second.of_fetch hs hn
  rcases fuse_rules hy with rfl | hy
  · exact trivial
  cases hy with
  | intTest hy => exact hy.justified hm h (fun _ _ _ => id) (fun _ _ _ => id)
  | @boolTest _ x _ _ hy =>
    exact hy.justified hm h (fun c v b => hm.bool_left c x v b) (fun c v b => hm.bool_right c x v b)
  | intMove hd | boolMove hd => exact fun f w hf _ => held_move_of_dead h hd hf
  | @intArith op _ d x hda hd =>
    exact fun f w hf _ =>
      held_arith_of_dead h hda hd (held_of_normalize (i := .arithConst op d x) hm hf)
  | swap hra hop => exact fun f w hf hfree => held_swap hm hra hop hfree hf
  | fold hr => exact fun f w hf hfree => held_fold hm hr hfree hf
  | @intRet a x => exact fun f w hf _ => held_ret h (hi a (List.mem_singleton_self a)) hf
  | moveMove hd => exact fun f w hf u hu _ => held_move_of_dead h hd (hf u hu)
  | moveArith hda hd => exact fun f w hf u hu _ => held_arith_of_dead h hda hd (hf u hu)
  | moveBranch hd => exact fun f w hf u hu _ => held_branch_of_dead h hd hu hf
  | moveBranchConst hd =>
    intro f w hf u hu _
    refine branch_set_of_dead h rfl rfl hd (fun x t hx => ?_) hf
    rw [Frame.val_set_self, Option.some_inj] at hx
    subst hx
    exact ⟨u, hu, id⟩
  | @moveRet a b =>
    exact fun f w hf u hu _ => held_ret h (hi a (List.mem_singleton_self a)) (hf u hu)
  | merge hr => exact fun f w hf => held_merge hm hr hf

end ForkLisp.Optimize
