/-
Copies of callees.

A copy of a callee works on the registers of its caller from `b` on. `Raised` relates its frame to
the one that the callee would have of its own. A run of the copy, whose returns leave the value
below it and go on in the caller, is a call followed by the rest of the caller (`copied_runs`).
-/
import ForkLisp.Proofs.Optimize.LiveRegisters

namespace ForkLisp.Optimize

open ForkLisp.Code ForkLisp.Machine ForkLisp.Behaviour

variable {V H W : Type}

/-- `g` holds the frame `f` of a callee from register `b` on, and below the linkage what `g₀` held
when the callee was entered. -/
structure Raised (b : Nat) (g₀ f g : Frame V H) : Prop where
  val : ∀ r v, f.val r = some v → g.val (r + b) = some v
  pend : ∀ r, g.pend (r + b) = f.pend r
  val_below : ∀ r, r < b - 2 → ∀ v, g₀.val r = some v → g.val r = some v
  pend_below : ∀ r, r < b → g.pend r = g₀.pend r

namespace Raised

variable {b : Nat} {g₀ f g : Frame V H} {r : Nat}

theorem enter {args : List V} (hargs : g₀.Holds b args) (hc : g₀.Clear (b - 2)) :
    Raised b g₀ (Frame.enter args) g₀ := by
  refine ⟨fun r v hv => ?_, fun r => hc.1 _ (by omega), fun _ _ _ h => h, fun _ _ => rfl⟩
  obtain ⟨hlt, -⟩ := List.getElem?_eq_some_iff.mp hv
  rw [Nat.add_comm, hargs r hlt]
  exact hv

theorem unshadowed (h : Raised b g₀ f g) (hc : g₀.Clear (b - 2)) (hr : f.Unshadowed r) :
    g.Unshadowed (r + b) := by
  intro s hs
  by_cases hb : b ≤ s
  · obtain ⟨k, rfl⟩ : ∃ k, s = k + b := ⟨s - b, by omega⟩
    rw [h.pend]
    exact hr k (by omega)
  · rw [h.pend_below s (by omega)]
    exact hc.1 s (by omega)

theorem free (h : Raised b g₀ f g) (hc : g₀.Clear (b - 2)) (hr : f.Free r) : g.Free (r + b) :=
  ⟨by rw [h.pend, hr.1], h.unshadowed hc hr.2⟩

theorem clear (h : Raised b g₀ f g) (hc : g₀.Clear (b - 2)) (hr : f.Clear r) : g.Clear (r + b) := by
  refine ⟨fun s hs => ?_, h.unshadowed hc hr.2⟩
  obtain ⟨k, rfl⟩ : ∃ k, s = k + b := ⟨s - b, by omega⟩
  rw [h.pend]
  exact hr.1 k (by omega)

theorem holds (h : Raised b g₀ f g) {args : List V} (hr : f.Holds r args) :
    g.Holds (r + b) args := by
  intro j hj
  have hv : f.val (r + j) = some args[j] := by rw [hr j hj, List.getElem?_eq_getElem hj]
  rw [List.getElem?_eq_getElem hj, show r + b + j = r + j + b by omega]
  exact h.val _ _ hv

theorem set (h : Raised b g₀ f g) (r : Nat) (v : V) :
    Raised b g₀ (f.set r v) (g.set (r + b) v) := by
  refine ⟨fun s u hu => ?_, h.pend, fun s hs u hu => ?_, h.pend_below⟩
  · by_cases hsr : s = r
    · rw [hsr, Frame.val_set_self] at hu ⊢
      exact hu
    · rw [Frame.val_set_of_ne _ _ hsr] at hu
      rw [Frame.val_set_of_ne _ _ (by omega)]
      exact h.val s u hu
  · rw [Frame.val_set_of_ne _ _ (by omega)]
    exact h.val_below s hs u hu

theorem afterCall (h : Raised b g₀ f g) {shift : Nat} (hs : 2 ≤ shift) (v : V) :
    Raised b g₀ (f.afterCall shift v) (g.afterCall (shift + b) v) := by
  refine ⟨fun s u hu => ?_, h.pend, fun s hsb u hu => ?_, h.pend_below⟩
  · unfold Frame.afterCall at hu ⊢
    simp only at hu ⊢
    by_cases hsr : s = shift - 2
    · rw [if_pos hsr] at hu
      rw [if_pos (by omega), hu]
    · rw [if_neg hsr] at hu
      rw [if_neg (by omega)]
      split at hu
      · rw [if_pos (by omega)]
        exact h.val s u hu
      · exact absurd hu (by simp)
  · unfold Frame.afterCall
    simp only
    rw [if_neg (by omega), if_pos (by omega)]
    exact h.val_below s hsb u hu

theorem afterSpawn (h : Raised b g₀ f g) {shift : Nat} (hs : 3 ≤ shift) (x : H) :
    Raised b g₀ (f.afterSpawn shift x) (g.afterSpawn (shift + b) x) := by
  refine ⟨fun s u hu => ?_, fun s => ?_, fun s hsb u hu => ?_, fun s hsb => ?_⟩
  · unfold Frame.afterSpawn at hu ⊢
    simp only at hu ⊢
    split at hu
    · rw [if_pos (by omega)]
      exact h.val s u hu
    · exact absurd hu (by simp)
  · unfold Frame.afterSpawn
    simp only
    by_cases hsr : s = shift - 3
    · rw [if_pos hsr, if_pos (by omega)]
    · rw [if_neg hsr, if_neg (by omega), h.pend]
  · unfold Frame.afterSpawn
    simp only
    rw [if_pos (by omega)]
    exact h.val_below s hsb u hu
  · unfold Frame.afterSpawn
    simp only
    rw [if_neg (by omega)]
    exact h.pend_below s hsb

theorem afterJoin (h : Raised b g₀ f g) (r : Nat) (v : V) :
    Raised b g₀ (f.afterJoin r v) (g.afterJoin (r + b) v) := by
  refine ⟨fun s u hu => ?_, fun s => ?_, fun s hsb u hu => ?_, fun s hsb => ?_⟩
  · unfold Frame.afterJoin at hu ⊢
    simp only at hu ⊢
    by_cases hsr : s = r
    · rw [if_pos hsr] at hu
      rw [if_pos (by omega), hu]
    · rw [if_neg hsr] at hu
      rw [if_neg (by omega)]
      exact h.val s u hu
  · unfold Frame.afterJoin
    simp only
    by_cases hsr : s = r
    · rw [if_pos hsr, if_pos (by omega)]
    · rw [if_neg hsr, if_neg (by omega), h.pend]
  · unfold Frame.afterJoin
    simp only
    rw [if_neg (by omega)]
    exact h.val_below s hsb u hu
  · unfold Frame.afterJoin
    simp only
    rw [if_neg (by omega)]
    exact h.pend_below s hsb

end Raised

section

variable {m : Meaning V H W} {ret : V → Frame V H → W → Ending V W → Prop} {o : Ending V W}
  {use : V → W → Prop} {b : Nat} {g₀ : Frame V H}

theorem copied_jump {pc : Nat} {offset : Int} {go : Nat → Prop} {go' : Ending V W → Nat → Prop}
    (hgo : ∀ t, go t → Followed o use fun r => go' r t) (h : Meaning.jump pc offset go) :
    Followed o use fun r => Meaning.jump pc offset (go' r) :=
  Followed.of_option fun t ht => hgo t (h t ht)

theorem copied_operate {op : ArithOp} {d : Nat} {v : V} {f g : Frame V H} {w : W}
    {go : Frame V H → Prop} {go' : Ending V W → Frame V H → Prop} (hc : g₀.Clear (b - 2))
    (hfg : Raised b g₀ f g)
    (hgo : ∀ f g, Raised b g₀ f g → go g → Followed o use fun r => go' r f)
    (h : m.operate op (d + b) v g w o go) :
    Followed o use fun r => m.operate op d v f w r (go' r) := by
  refine Followed.of_option fun u hu => Followed.of_imp fun hf => ?_
  obtain ⟨a, ha, hk⟩ := h u (hfg.val d u hu) (hfg.free hc hf)
  exact (Followed.of_orFault hk fun x hx => hgo _ _ (hfg.set d x) hx).mono fun r hr => ⟨a, ha, hr⟩

theorem copied_branch {c : Comparison} {offset : Int} {l : Nat} {v : V} {pc : Nat}
    {f g : Frame V H} {w : W} {go : Nat → Prop} {go' : Ending V W → Nat → Prop}
    (hfg : Raised b g₀ f g) (hgo : ∀ t, go t → Followed o use fun r => go' r t)
    (h : m.branch c offset (l + b) v pc g w o go) :
    Followed o use fun r => m.branch c offset l v pc f w r (go' r) := by
  refine Followed.of_option fun u hu => ?_
  obtain ⟨a, ha, hk⟩ := h u (hfg.val l u hu)
  refine (Followed.of_orFault hk fun x hx => ?_).mono fun r hr => ⟨a, ha, hr⟩
  cases x with
  | true =>
    exact (copied_jump hgo (hx.1 rfl)).mono fun r hr => ⟨fun _ => hr, fun h => absurd h (by simp)⟩
  | false => exact (hgo _ (hx.2 rfl)).mono fun r hr => ⟨fun h => absurd h (by simp), fun _ => hr⟩

/-- The arguments that a copy passes are those of the callee, above a linkage of `k` registers. -/
theorem copied_arguments {n : FuncId} {k shift : Nat} {f g : Frame V H} {P : List V → Prop}
    {P' : Ending V W → List V → Prop} (hc : g₀.Clear (b - 2)) (hfg : Raised b g₀ f g)
    (hP : ∀ args, k ≤ shift → P args → Followed o use fun r => P' r args)
    (h : ∀ args, m.arity n = some args.length → k ≤ shift + b → g.Holds (shift + b) args →
      g.Clear (shift + b - k) → P args) :
    Followed o use fun r => ∀ args, m.arity n = some args.length → k ≤ shift → f.Holds shift args →
      f.Clear (shift - k) → P' r args := by
  by_cases hargs : ∃ args, m.arity n = some args.length ∧ k ≤ shift ∧ f.Holds shift args ∧
      f.Clear (shift - k)
  · obtain ⟨args, hn, hs, ha, hcl⟩ := hargs
    have hcl' : g.Clear (shift + b - k) := by
      rw [Nat.sub_add_comm hs]
      exact hfg.clear hc hcl
    have hargs := h args hn (Nat.le_trans hs (Nat.le_add_right _ _)) (hfg.holds ha) hcl'
    refine (hP args hs hargs).mono fun r hr args' hn' _ ha' _ => ?_
    obtain rfl := ha.unique (Option.some.inj (hn.symm.trans hn')) ha'
    exact hr
  · exact .of_stuck fun args hn hs ha hcl => absurd ⟨args, hn, hs, ha, hcl⟩ hargs

/-- An instruction of a copy does what it does in the callee. -/
theorem copied_exec {pc : Nat} {i : Inst} {f g : Frame V H} {w : W}
    {go : Nat → Frame V H → W → Prop} {go' : Ending V W → Nat → Frame V H → W → Prop}
    (hc : g₀.Clear (b - 2)) (hfg : Raised b g₀ f g)
    (hgo : ∀ t f g w, Raised b g₀ f g → go t g w → Followed o use fun r => go' r t f w)
    (hret : ∀ v f g w, Raised b g₀ f g → ret v g w o → Followed o use (Meaning.done v f w))
    (h : m.exec ret o pc (i.rebase b) g w go) :
    Followed o use fun r => m.exec Meaning.done r pc i f w (go' r) := by
  cases i with
  | intConst d x => exact Followed.of_imp fun hf => hgo _ _ _ _ (hfg.set d _) (h (hfg.free hc hf))
  | boolConst d x => exact Followed.of_imp fun hf => hgo _ _ _ _ (hfg.set d _) (h (hfg.free hc hf))
  | floatConst d x => exact Followed.of_imp fun hf => hgo _ _ _ _ (hfg.set d _) (h (hfg.free hc hf))
  | move d s =>
    exact Followed.of_option fun v hv => Followed.of_imp fun hf =>
      hgo _ _ _ _ (hfg.set d v) (h v (hfg.val s v hv) (hfg.free hc hf))
  | arith op d s =>
    exact Followed.of_option fun v hv =>
      copied_operate hc hfg (fun f g => hgo _ f g w) (h v (hfg.val s v hv))
  | arithConst op d x => exact copied_operate hc hfg (fun f g => hgo _ f g w) h
  | negate d =>
    refine Followed.of_option fun v hv => Followed.of_imp fun hf => ?_
    obtain ⟨a, ha, hk⟩ := h v (hfg.val d v hv) (hfg.free hc hf)
    exact (Followed.of_orFault hk fun x hx => hgo _ _ _ _ (hfg.set d x) hx).mono
      fun r hr => ⟨a, ha, hr⟩
  | branch c offset l s =>
    exact Followed.of_option fun v hv =>
      copied_branch hfg (fun t => hgo t f g w hfg) (h v (hfg.val s v hv))
  | branchConst c offset l x => exact copied_branch hfg (fun t => hgo t f g w hfg) h
  | jump offset => exact copied_jump (fun t => hgo t f g w hfg) h
  | load d x =>
    refine Followed.of_imp fun hf => ?_
    obtain ⟨e, he, hk⟩ := h (hfg.free hc hf)
    exact (Followed.of_into hk fun v w hv => hgo _ _ _ w (hfg.set d v) hv).mono
      fun r hr => ⟨e, he, hr⟩
  | store s x =>
    refine Followed.of_option fun v hv => ?_
    obtain ⟨e, he, hk⟩ := h v (hfg.val s v hv)
    exact (Followed.of_into hk fun _ w hx => hgo _ _ _ w hfg hx).mono fun r hr => ⟨e, he, hr⟩
  | call n shift =>
    -- the arguments stand above the shift in both frames, that of the copy moved up with it
    refine copied_arguments hc hfg (fun args hs ha => ?_) h
    obtain ⟨e, he, hk⟩ := ha
    exact (Followed.of_into hk fun v w hx => hgo _ _ _ w (hfg.afterCall hs v) hx).mono
      fun r hr => ⟨e, he, hr⟩
  | spawn n shift =>
    refine copied_arguments hc hfg (fun args hs ha => ?_) h
    obtain ⟨e, he, hk⟩ := ha
    exact (Followed.of_into hk fun v w hx => hgo _ _ _ w (hfg.afterSpawn hs v) hx).mono
      fun r hr => ⟨e, he, hr⟩
  | join s =>
    refine Followed.of_option fun x hx => Followed.of_imp fun hu => ?_
    obtain ⟨e, he, hk⟩ := h x ((hfg.pend s).trans hx) (hfg.unshadowed hc hu)
    exact (Followed.of_into hk fun v w hv => hgo _ _ _ w (hfg.afterJoin s v) hv).mono
      fun r hr => ⟨e, he, hr⟩
  | ret s => exact Followed.of_option fun v hv => hret v f g w hfg (h v (hfg.val s v hv))
  | retConst x => exact hret _ f g w hfg h
  | print s =>
    refine Followed.of_option fun v hv => ?_
    obtain ⟨e, he, hk⟩ := h v (hfg.val s v hv)
    exact (Followed.of_into hk fun _ w hx => hgo _ _ _ w hfg hx).mono fun r hr => ⟨e, he, hr⟩
  | printBool s =>
    refine Followed.of_option fun v hv => ?_
    obtain ⟨e, he, hk⟩ := h v (hfg.val s v hv)
    exact (Followed.of_into hk fun _ w hx => hgo _ _ _ w hfg hx).mono fun r hr => ⟨e, he, hr⟩
  | stop => exact .of_stuck trivial

/-- A run of a copy is a run of the callee, followed by what a return of the copy does. -/
theorem copied_runs {code : Code} (hc : g₀.Clear (b - 2))
    (hret : ∀ v f g w, Raised b g₀ f g → ret v g w o → Followed o use (Meaning.done v f w))
    {pc : Nat} {f g : Frame V H} {w : W} (hfg : Raised b g₀ f g)
    (h : m.Runs ret (raise b code) pc g w o) :
    Followed o use (m.Runs Meaning.done code pc f w) := by
  induction hn : code.size - pc using Nat.strongRecOn generalizing pc f g w with
  | ind n ih =>
    cases hi : code[pc]? with
    | none =>
      refine .of_stuck ?_
      rw [Meaning.Runs]
      intro i hi'
      rw [hi] at hi'
      exact absurd hi' (by simp)
    | some i =>
      have hpc : pc < code.size := (Array.getElem?_eq_some_iff.mp hi).1
      have hraise : (raise b code)[pc]? = some (i.rebase b) := by
        rw [raise_getElem?, hi, Option.map_some]
      refine (copied_exec hc hfg (fun t f g w hfg hr => ?_) hret
        ((Meaning.runs_iff hraise).mp h)).mono fun r hr => (Meaning.runs_iff hi).mpr hr
      refine Followed.of_imp fun hlt => ?_
      exact ih (code.size - t) (by omega) hfg (hr hlt) rfl

end

end ForkLisp.Optimize
