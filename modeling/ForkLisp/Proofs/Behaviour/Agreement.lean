/-
What a run depends on.

A run reads only registers that are live where it starts. `Runs.agree` says so in one direction:
code that runs on a frame with the same handles and, in the live registers, at least the same values
has no endings that it does not have on the other frame. Liveness is any annotation that is closed
under the flow of control (`Annotates`), in particular the one under which every register is live.
-/
import ForkLisp.Optimize.Liveness
import ForkLisp.Proofs.Behaviour.Meaning

namespace ForkLisp.Behaviour

open ForkLisp.Code ForkLisp.Machine ForkLisp.Optimize

variable {V H W : Type}

/-- A frame has the handles of another one, and its values in some registers. -/
def Frame.Below (live : Nat → Prop) (f f' : Frame V H) : Prop :=
  f'.pend = f.pend ∧ ∀ r, live r → ∀ v, f.val r = some v → f'.val r = some v

namespace Frame

variable {live live' : Nat → Prop} {f f' : Frame V H}

theorem Below.refl (live : Nat → Prop) (f : Frame V H) : f.Below live f :=
  ⟨rfl, fun _ _ _ h => h⟩

theorem Below.mono (h : f.Below live f') (hl : ∀ r, live' r → live r) : f.Below live' f' :=
  ⟨h.1, fun r hr => h.2 r (hl r hr)⟩

theorem Below.free (h : f.Below live f') {r : Nat} (hr : f.Free r) : f'.Free r := by
  unfold Free Unshadowed at *
  rw [h.1]
  exact hr

theorem Below.clear (h : f.Below live f') {r : Nat} (hr : f.Clear r) : f'.Clear r := by
  unfold Clear Unshadowed at *
  rw [h.1]
  exact hr

theorem Below.holds (h : f.Below live f') {r : Nat} {args : List V}
    (hl : ∀ j, j < args.length → live (r + j)) (hf : f.Holds r args) : f'.Holds r args := by
  intro j hj
  rw [List.getElem?_eq_getElem hj]
  refine h.2 (r + j) (hl j hj) _ ?_
  rw [hf j hj, List.getElem?_eq_getElem hj]

theorem Below.set (h : f.Below live f') {r : Nat} (v : V) (hl : ∀ s, live' s → s = r ∨ live s) :
    (f.set r v).Below live' (f'.set r v) := by
  refine ⟨h.1, fun s hs u hu => ?_⟩
  by_cases hsr : s = r
  · rw [hsr, val_set_self] at hu ⊢
    exact hu
  · rw [val_set_of_ne _ _ hsr] at hu ⊢
    exact h.2 s ((hl s hs).resolve_left hsr) u hu

theorem Below.set_left (h : f.Below live f') {r : Nat} (v : V) (hr : ¬ live r) :
    (f.set r v).Below live f' := by
  refine ⟨h.1, fun s hs u hu => ?_⟩
  have hsr : s ≠ r := by
    rintro rfl
    exact hr hs
  rw [val_set_of_ne _ _ hsr] at hu
  exact h.2 s hs u hu

theorem Below.afterCall (h : f.Below live f') {shift : Nat} (v : V)
    (hl : ∀ s, live' s → s = shift - 2 ∨ live s) :
    (f.afterCall shift v).Below live' (f'.afterCall shift v) := by
  refine ⟨h.1, fun s hs u hu => ?_⟩
  unfold Frame.afterCall at hu ⊢
  by_cases hsr : s = shift - 2
  · simpa [hsr] using hu
  · by_cases hlt : s < shift - 2
    · simp only [hsr, if_false, hlt, if_true] at hu ⊢
      exact h.2 s ((hl s hs).resolve_left hsr) u hu
    · simp [hsr, hlt] at hu

theorem Below.afterSpawn (h : f.Below live f') {shift : Nat} (x : H)
    (hl : ∀ s, s < shift - 3 → live' s → live s) :
    (f.afterSpawn shift x).Below live' (f'.afterSpawn shift x) := by
  refine ⟨?_, fun s hs u hu => ?_⟩
  · unfold Frame.afterSpawn
    rw [h.1]
  · unfold Frame.afterSpawn at hu ⊢
    by_cases hlt : s < shift - 3
    · simp only [hlt, if_true] at hu ⊢
      exact h.2 s (hl s hlt hs) u hu
    · simp [hlt] at hu

theorem Below.afterJoin (h : f.Below live f') {r : Nat} (v : V)
    (hl : ∀ s, live' s → s = r ∨ live s) :
    (f.afterJoin r v).Below live' (f'.afterJoin r v) := by
  refine ⟨?_, fun s hs u hu => ?_⟩
  · unfold Frame.afterJoin
    rw [h.1]
  · unfold Frame.afterJoin at hu ⊢
    by_cases hsr : s = r
    · simpa [hsr] using hu
    · simp only [hsr, if_false] at hu ⊢
      exact h.2 s ((hl s hs).resolve_left hsr) u hu

end Frame

/-- What is live, by place, covers what the instruction at a place reads and what is live behind
it and not written by it. -/
structure Annotates (arity : FuncId → Nat) (i : Inst) (pc : Nat)
    (live : Nat → Nat → Prop) : Prop where
  uses : ∀ r ∈ i.uses arity, live pc r
  next : fallsThrough i = true → ∀ r, live (pc + 1) r → r ∈ i.defs ∨ live pc r
  jump : ∀ offset t, i.offset? = some offset → jumpTarget pc offset = some t → pc < t →
    ∀ r, live t r → live pc r

namespace Annotates

variable {arity : FuncId → Nat} {i : Inst} {pc : Nat} {live : Nat → Nat → Prop} {f f' : Frame V H}

/-- A register that is live behind a write is the written one, or live before it. -/
theorem set (h : Annotates arity i pc live) (hi : fallsThrough i = true) {d : Nat}
    (hd : i.defs = [d]) (hf : f.Below (live pc) f') (v : V) :
    (f.set d v).Below (live (pc + 1)) (f'.set d v) := by
  refine hf.set v fun s hs => ?_
  have hor := h.next hi s hs
  rwa [hd, List.mem_singleton] at hor

/-- If nothing is written, what is live behind an instruction is live before it. -/
theorem keep (h : Annotates arity i pc live) (hi : fallsThrough i = true) (hd : i.defs = [])
    (hf : f.Below (live pc) f') : f.Below (live (pc + 1)) f' := by
  refine hf.mono fun s hs => ?_
  have hor := h.next hi s hs
  rw [hd] at hor
  exact hor.resolve_left List.not_mem_nil

/-- Either way that a branch goes, what is live there is live before it. -/
theorem branch (h : Annotates arity i pc live) (hi : fallsThrough i = true) (hd : i.defs = [])
    {offset : Int} (ho : i.offset? = some offset) (hf : f.Below (live pc) f') {t : Nat}
    (ht : t = pc + 1 ∨ jumpTarget pc offset = some t) (hlt : pc < t) : f.Below (live t) f' := by
  rcases ht with rfl | ht
  · exact h.keep hi hd hf
  · exact hf.mono fun s hs => h.jump offset t ho ht hlt s hs

/-- The value of a register that is read is the same on both sides. -/
theorem read (h : Annotates arity i pc live) (hf : f.Below (live pc) f') {s : Nat}
    (hs : s ∈ i.uses arity) {v : V} (hv : f.val s = some v) : f'.val s = some v :=
  hf.2 s (h.uses s hs) v hv

/-- So are arguments that are passed. -/
theorem holds (h : Annotates arity i pc live) (hf : f.Below (live pc) f') {n : FuncId} {shift : Nat}
    (hu : i.uses arity = List.range' shift (arity n)) {args : List V} (hn : arity n = args.length)
    (hargs : f.Holds shift args) : f'.Holds shift args := by
  refine hf.holds (fun j hj => h.uses _ ?_) hargs
  rw [hu, hn, List.mem_range']
  exact ⟨j, hj, by omega⟩

end Annotates

namespace Meaning

variable {m : Meaning V H W}

theorem operate_agree {op : ArithOp} {d : Nat} {v : V} {f f' : Frame V H} {w : W} {o : Ending V W}
    {live : Nat → Prop} {go go' : Frame V H → Prop} (hd : live d) (hf : f.Below live f')
    (hgo : ∀ x, go' (f'.set d x) → go (f.set d x)) (h : m.operate op d v f' w o go') :
    m.operate op d v f w o go := by
  intro u hu hfree
  obtain ⟨a, ha, hk⟩ := h u (hf.2 d hd u hu) (hf.free hfree)
  exact ⟨a, ha, orFault_mono (fun x _ => hgo x) hk⟩

theorem branch_agree {c : Comparison} {offset : Int} {l : Nat} {v : V} {pc : Nat}
    {f f' : Frame V H} {w : W} {o : Ending V W} {live : Nat → Prop} {go go' : Nat → Prop}
    (hl : live l) (hf : f.Below live f')
    (hgo : ∀ t, t = pc + 1 ∨ jumpTarget pc offset = some t → go' t → go t)
    (h : m.branch c offset l v pc f' w o go') : m.branch c offset l v pc f w o go := by
  intro u hu
  obtain ⟨a, ha, hk⟩ := h u (hf.2 l hl u hu)
  refine ⟨a, ha, orFault_mono (fun b _ hb => ⟨fun ht t hj => ?_, fun hn => ?_⟩) hk⟩
  · exact hgo t (.inr hj) (hb.1 ht t hj)
  · exact hgo _ (.inl rfl) (hb.2 hn)

/-- What an instruction can end in depends on the live registers only, if that holds of the places
behind it and of returns. -/
theorem exec_agree {ret : V → Frame V H → W → Ending V W → Prop} {o : Ending V W} {pc : Nat}
    {i : Inst} {arity : FuncId → Nat} {live : Nat → Nat → Prop} (hi : Annotates arity i pc live)
    (har : ∀ n k, m.arity n = some k → arity n = k)
    (hret : i.isReturn = true → ∀ v f f' w, f.Below (live pc) f' → ret v f' w o → ret v f w o)
    {go go' : Nat → Frame V H → W → Prop}
    (hgo : ∀ t f f' w, (pc < t → f.Below (live t) f') → go' t f' w → go t f w) {f f' : Frame V H}
    {w : W} (hf : f.Below (live pc) f') (h : m.exec ret o pc i f' w go') :
    m.exec ret o pc i f w go := by
  cases i with
  | intConst d x =>
    intro hfree
    exact hgo _ _ _ _ (fun _ => hi.set rfl rfl hf _) (h (hf.free hfree))
  | boolConst d x =>
    intro hfree
    exact hgo _ _ _ _ (fun _ => hi.set rfl rfl hf _) (h (hf.free hfree))
  | floatConst d x =>
    intro hfree
    exact hgo _ _ _ _ (fun _ => hi.set rfl rfl hf _) (h (hf.free hfree))
  | move d s =>
    intro v hv hfree
    have hs : s ∈ (Inst.move d s).uses arity := by simp [Inst.uses]
    exact hgo _ _ _ _ (fun _ => hi.set rfl rfl hf _) (h v (hi.read hf hs hv) (hf.free hfree))
  | arith op d s =>
    -- the target is read as well as written, so both registers are live
    intro v hv
    have hs : s ∈ (Inst.arith op d s).uses arity := by simp [Inst.uses]
    refine operate_agree (hi.uses d (by simp [Inst.uses])) hf (fun x => ?_) (h v (hi.read hf hs hv))
    exact hgo _ _ _ _ fun _ => hi.set rfl rfl hf x
  | arithConst op d x =>
    have h : m.operate op d (m.int x) f' w o fun f => go' (pc + 1) f w := h
    show m.operate op d (m.int x) f w o fun f => go (pc + 1) f w
    refine operate_agree (hi.uses d (by simp [Inst.uses])) hf (fun x => ?_) h
    exact hgo _ _ _ _ fun _ => hi.set rfl rfl hf x
  | negate d =>
    intro v hv hfree
    have hs : d ∈ (Inst.negate d).uses arity := by simp [Inst.uses]
    obtain ⟨a, ha, hk⟩ := h v (hi.read hf hs hv) (hf.free hfree)
    exact ⟨a, ha, orFault_mono (fun x _ => hgo _ _ _ _ fun _ => hi.set rfl rfl hf x) hk⟩
  | branch c offset l r =>
    intro v hv
    have hs : r ∈ (Inst.branch c offset l r).uses arity := by simp [Inst.uses]
    refine branch_agree (hi.uses l (by simp [Inst.uses])) hf (fun t ht => ?_)
      (h v (hi.read hf hs hv))
    exact hgo _ _ _ _ fun hlt => hi.branch rfl rfl rfl hf ht hlt
  | branchConst c offset l x =>
    have h : m.branch c offset l (m.int x) pc f' w o fun t => go' t f' w := h
    show m.branch c offset l (m.int x) pc f w o fun t => go t f w
    refine branch_agree (hi.uses l (by simp [Inst.uses])) hf (fun t ht => ?_) h
    exact hgo _ _ _ _ fun hlt => hi.branch rfl rfl rfl hf ht hlt
  | jump offset =>
    intro t ht
    exact hgo _ _ _ _ (fun hlt => hf.mono fun s hs => hi.jump offset t rfl ht hlt s hs) (h t ht)
  | load d g =>
    intro hfree
    obtain ⟨r, hr, hk⟩ := h (hf.free hfree)
    exact ⟨r, hr, Ending.into_mono (fun v _ _ => hgo _ _ _ _ fun _ => hi.set rfl rfl hf v) hk⟩
  | store s g =>
    intro v hv
    obtain ⟨r, hr, hk⟩ := h v (hi.read hf (by simp [Inst.uses]) hv)
    exact ⟨r, hr, Ending.into_mono (fun _ w' _ => hgo _ _ _ _ fun _ => hi.keep rfl rfl hf) hk⟩
  | call n shift =>
    intro args hn hs hargs hclear
    obtain ⟨r, hr, hk⟩ := h args hn hs (hi.holds hf rfl (har n _ hn) hargs) (hf.clear hclear)
    refine ⟨r, hr, Ending.into_mono (fun v w' _ => hgo _ _ _ _ fun _ => ?_) hk⟩
    -- of the caller only what lies below the shift is live behind the call
    refine hf.afterCall v fun s hl => ?_
    have hor := hi.next rfl s hl
    simpa [Inst.defs, Inst.below, hs] using hor
  | spawn n shift =>
    intro args hn hs hargs hclear
    obtain ⟨r, hr, hk⟩ := h args hn hs (hi.holds hf rfl (har n _ hn) hargs) (hf.clear hclear)
    refine ⟨r, hr, Ending.into_mono (fun v w' _ => hgo _ _ _ _ fun _ => ?_) hk⟩
    refine hf.afterSpawn v fun s hlt hl => ?_
    have hor := hi.next rfl s hl
    simp only [Inst.defs, Inst.below, hs, if_true, List.mem_singleton] at hor
    -- the future itself is the one register that the spawn writes
    exact hor.resolve_left (by omega)
  | join r =>
    intro x hx hun
    -- both frames wait for the same handles, whatever registers they differ in
    rw [← hf.1] at hx
    have hun' : f'.Unshadowed r := by
      unfold Frame.Unshadowed at *
      rw [hf.1]
      exact hun
    obtain ⟨e, he, hk⟩ := h x hx hun'
    refine ⟨e, he, Ending.into_mono (fun v w' _ => hgo _ _ _ _ fun _ => ?_) hk⟩
    refine hf.afterJoin v fun s hl => ?_
    have hor := hi.next rfl s hl
    simpa [Inst.defs] using hor
  | ret s =>
    intro v hv
    exact hret rfl v f f' w hf (h v (hi.read hf (by simp [Inst.uses]) hv))
  | retConst x => exact hret rfl _ f f' w hf h
  | print s =>
    intro v hv
    obtain ⟨r, hr, hk⟩ := h v (hi.read hf (by simp [Inst.uses]) hv)
    exact ⟨r, hr, Ending.into_mono (fun _ w' _ => hgo _ _ _ _ fun _ => hi.keep rfl rfl hf) hk⟩
  | printBool s =>
    intro v hv
    obtain ⟨r, hr, hk⟩ := h v (hi.read hf (by simp [Inst.uses]) hv)
    exact ⟨r, hr, Ending.into_mono (fun _ w' _ => hgo _ _ _ _ fun _ => hi.keep rfl rfl hf) hk⟩
  | stop => exact trivial

/-- A run depends on the live registers only. -/
theorem Runs.agree {ret : V → Frame V H → W → Ending V W → Prop} {o : Ending V W} {code : Code}
    (arity : FuncId → Nat) (live : Nat → Nat → Prop)
    (hlive : ∀ pc i, code[pc]? = some i → Annotates arity i pc live)
    (har : ∀ n k, m.arity n = some k → arity n = k)
    (hret : ∀ pc i, code[pc]? = some i → i.isReturn = true →
      ∀ v f f' w, f.Below (live pc) f' → ret v f' w o → ret v f w o)
    {pc : Nat} {f f' : Frame V H} {w : W} (hf : f.Below (live pc) f')
    (h : m.Runs ret code pc f' w o) : m.Runs ret code pc f w o := by
  induction hn : code.size - pc using Nat.strongRecOn generalizing pc f f' w with
  | ind n ih =>
    rw [Runs]
    intro i hi
    have hpc : pc < code.size := (Array.getElem?_eq_some_iff.mp hi).1
    refine exec_agree (hlive pc i hi) har (hret pc i hi) (fun t g g' w' hg hr hlt => ?_) hf
      ((runs_iff hi).mp h)
    exact ih (code.size - t) (by omega) (hg hlt) (hr hlt) rfl

theorem annotates_true (arity : FuncId → Nat) (i : Inst) (pc : Nat) :
    Annotates arity i pc fun _ _ => True :=
  ⟨fun _ _ => trivial, fun _ _ _ => .inr trivial, fun _ _ _ _ _ _ _ => trivial⟩

/-- More values in the frame allow no more endings. -/
theorem Runs.mono {ret : V → Frame V H → W → Ending V W → Prop} {o : Ending V W} {code : Code}
    (hret : ∀ v f f' w, f.Below (fun _ => True) f' → ret v f' w o → ret v f w o)
    {pc : Nat} {f f' : Frame V H} {w : W} (hf : f.Below (fun _ => True) f')
    (h : m.Runs ret code pc f' w o) : m.Runs ret code pc f w o :=
  h.agree (fun n => (m.arity n).getD 0) (fun _ _ => True)
    (fun _ _ _ => annotates_true _ _ _) (fun n k hk => by rw [hk, Option.getD_some])
    (fun _ _ _ _ => hret) hf

theorem done_agree {live : Nat → Prop} {o : Ending V W} (v : V) (f f' : Frame V H) (w : W)
    (hf : f.Below live f') (h : done v f' w o) : done v f w o := by
  intro hp
  refine h fun r => ?_
  rw [hf.1]
  exact hp r

/-! ### Functions that exist -/

/-- A meaning where functions take other numbers of arguments. -/
def withArity (m : Meaning V H W) (arity : FuncId → Option Nat) : Meaning V H W := { m with arity }

/-- Where more functions exist, runs have no more endings. -/
theorem Runs.withArity {a b : FuncId → Option Nat} (hab : ∀ n k, a n = some k → b n = some k)
    {o : Ending V W} {code : Code} {pc : Nat} {f : Frame V H} {w : W}
    (h : (m.withArity b).Runs done code pc f w o) : (m.withArity a).Runs done code pc f w o := by
  induction hn : code.size - pc using Nat.strongRecOn generalizing pc f w with
  | ind n ih =>
    rw [Runs]
    intro i hi
    have hpc : pc < code.size := (Array.getElem?_eq_some_iff.mp hi).1
    have hexec : (m.withArity b).exec done o pc i f w
        fun t f w => pc < t → (m.withArity a).Runs done code t f w o := by
      refine exec_agree (annotates_true (fun n => (b n).getD 0) i pc)
        (fun n k hk => by rw [show b n = some k from hk, Option.getD_some])
        (fun _ v g g' w' => done_agree v g g' w') (fun t g g' w' hg hr hlt => ?_) (.refl _ f)
        ((runs_iff hi).mp h)
      exact (ih (code.size - t) (by omega) (hr hlt) rfl).mono (fun v f f' w => done_agree v f f' w)
        (hg hlt)
    cases i with
    | call n shift => exact fun args hargs => hexec args (hab n _ hargs)
    | spawn n shift => exact fun args hargs => hexec args (hab n _ hargs)
    | _ => exact hexec

end Meaning

end ForkLisp.Behaviour
