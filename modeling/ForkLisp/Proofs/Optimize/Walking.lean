/-
A pass keeps endings.

The rules of a pass are followed from the last one back to the first. The final code is at hand:
what a rule writes stands in it, and running on behind that does what the site does at the place
where reading went on. So running from where the rule started to write does what the site does at
the place that was read (`Rewrites.keeps`, `Walks.keeps`).
-/
import ForkLisp.Proofs.Optimize.Fusing
import ForkLisp.Proofs.Optimize.Placing

namespace ForkLisp.Optimize

open ForkLisp.Code ForkLisp.Machine ForkLisp.Behaviour

variable {V H W : Type} {m : Meaning V H W} {ret ret' : V → Frame V H → W → Ending V W → Prop}
  {s : Site} {out : Code} {runs : Nat → Nat → Frame V H → W → Ending V W → Prop} {o : Ending V W}

/-- What an instruction does depends on its place only through the places where control goes. -/
theorem exec_transfer {pc pc' : Nat} {i : Inst} {a : Int} {f : Frame V H} {w : W}
    {go go' : Nat → Frame V H → W → Prop} (hr : i.isReturn = false)
    (hnext : ∀ f w, go (pc + 1) f w → go' (pc' + 1) f w)
    (hjump : ∀ b t', i.offset? = some b → jumpTarget pc' b = some t' →
      ∃ t, jumpTarget pc a = some t ∧ ∀ f w, go t f w → go' t' f w)
    (h : m.exec ret o pc (i.withOffset a) f w go) : m.exec ret' o pc' i f w go' := by
  -- both ways of a branch go where the new offset leads
  have hbranch : ∀ b, i.offset? = some b → ∀ c l v,
      m.branch c a l v pc f w o (fun t => go t f w) →
        m.branch c b l v pc' f w o fun t => go' t f w := by
    intro b hb c l v hbr u hu
    obtain ⟨x, hx, hk⟩ := hbr u hu
    refine ⟨x, hx, orFault_mono (fun y _ hy => ⟨fun ht t' ht' => ?_, fun hf => ?_⟩) hk⟩
    · obtain ⟨t, htt, hgo⟩ := hjump b t' hb ht'
      exact hgo f w (hy.1 ht t htt)
    · exact hnext f w (hy.2 hf)
  cases i with
  | intConst d x => exact fun hf => hnext _ _ (h hf)
  | boolConst d x => exact fun hf => hnext _ _ (h hf)
  | floatConst d x => exact fun hf => hnext _ _ (h hf)
  | move d r => exact fun v hv hf => hnext _ _ (h v hv hf)
  | arith op d r =>
    intro v hv u hu hf
    obtain ⟨x, hx, hk⟩ := h v hv u hu hf
    exact ⟨x, hx, orFault_mono (fun _ _ => hnext _ _) hk⟩
  | arithConst op d x =>
    intro u hu hf
    obtain ⟨y, hy, hk⟩ := h u hu hf
    exact ⟨y, hy, orFault_mono (fun _ _ => hnext _ _) hk⟩
  | negate d =>
    intro v hv hf
    obtain ⟨x, hx, hk⟩ := h v hv hf
    exact ⟨x, hx, orFault_mono (fun _ _ => hnext _ _) hk⟩
  | branch c b l r => exact fun v hv => hbranch b rfl c l v (h v hv)
  | branchConst c b l x => exact hbranch b rfl c l _ h
  | jump b =>
    intro t' ht'
    obtain ⟨t, ht, hgo⟩ := hjump b t' rfl ht'
    exact hgo f w (h t ht)
  | load d g =>
    intro hf
    obtain ⟨x, hx, hk⟩ := h hf
    exact ⟨x, hx, Ending.into_mono (fun _ _ _ => hnext _ _) hk⟩
  | store r g =>
    intro v hv
    obtain ⟨x, hx, hk⟩ := h v hv
    exact ⟨x, hx, Ending.into_mono (fun _ _ _ => hnext _ _) hk⟩
  | call n shift =>
    intro args hn hs hargs hc
    obtain ⟨x, hx, hk⟩ := h args hn hs hargs hc
    exact ⟨x, hx, Ending.into_mono (fun _ _ _ => hnext _ _) hk⟩
  | spawn n shift =>
    intro args hn hs hargs hc
    obtain ⟨x, hx, hk⟩ := h args hn hs hargs hc
    exact ⟨x, hx, Ending.into_mono (fun _ _ _ => hnext _ _) hk⟩
  | join r =>
    intro x hx hu
    obtain ⟨y, hy, hk⟩ := h x hx hu
    exact ⟨y, hy, Ending.into_mono (fun _ _ _ => hnext _ _) hk⟩
  | ret r => exact absurd hr (by simp [Inst.isReturn])
  | retConst x => exact absurd hr (by simp [Inst.isReturn])
  | print r =>
    intro v hv
    obtain ⟨x, hx, hk⟩ := h v hv
    exact ⟨x, hx, Ending.into_mono (fun _ _ _ => hnext _ _) hk⟩
  | printBool r =>
    intro v hv
    obtain ⟨x, hx, hk⟩ := h v hv
    exact ⟨x, hx, Ending.into_mono (fun _ _ _ => hnext _ _) hk⟩
  | stop => exact trivial

/-- The same for an instruction that is no jump. -/
theorem exec_step {pc pc' : Nat} {i : Inst} {f : Frame V H} {w : W}
    {go go' : Nat → Frame V H → W → Prop} (hr : i.isReturn = false) (ho : i.offset? = none)
    (hnext : ∀ f w, go (pc + 1) f w → go' (pc' + 1) f w) (h : m.exec ret o pc i f w go) :
    m.exec ret' o pc' i f w go' := by
  have hi : i.withOffset 0 = i := by
    cases i <;> first | rfl | exact absurd ho (by simp [Inst.offset?])
  rw [← hi] at h
  refine exec_transfer hr hnext (fun b t' hb => ?_) h
  rw [ho] at hb
  exact absurd hb (by simp)

theorem runs_of_jump {n q : Nat} (hn : out[n]? = some (.jump (q - n))) (hq : n < q) {f : Frame V H}
    {w : W} (h : m.Runs ret out n f w o) : m.Runs ret out q f w o :=
  (Meaning.runs_iff hn).mp h q (jumpTarget_eq_some.mpr (by omega)) hq

/-! ### Sites and their runs -/

/-- What is known of a site: what it does is what `runs` says of its copy, and a return of a copy
does what its caller does behind the call. -/
structure Site.Serves (s : Site) (m : Meaning V H W)
    (ret : V → Frame V H → W → Ending V W → Prop)
    (runs : Nat → Nat → Frame V H → W → Ending V W → Prop) : Prop where
  reads : s.Reads m ret
  own : ∀ t f w o, runs s.copy t f w o ↔ From m ret s o t f w
  root : s.caller = none → ret = Meaning.done
  back : ∀ c, s.caller = some c → ∀ v f w o,
    (f.Clear (s.base - 2) → runs c.copy c.pc (f.afterCall s.base v) w o) → ret v f w o
  mono : ∀ c, s.caller = some c → ∀ f f' w o, f.Below (fun _ => True) f' →
    runs c.copy c.pc f' w o → runs c.copy c.pc f w o

/-- Running the final code from `n` on does what the site does at a place, and at its end what the
caller of the site does. -/
structure Arrives (m : Meaning V H W) (ret : V → Frame V H → W → Ending V W → Prop) (s : Site)
    (out : Code) (runs : Nat → Nat → Frame V H → W → Ending V W → Prop) (n pc : Nat) : Prop where
  here : ∀ f w o, m.Runs Meaning.done out n f w o → From m ret s o pc f w
  last : s.code[pc]? = some .stop → ∀ c, s.caller = some c → ∀ f w o,
    m.Runs Meaning.done out n f w o → runs c.copy c.pc f w o

theorem afterCall_below_set {f : Frame V H} {b : Nat} {v : V} :
    (f.afterCall b v).Below (fun _ => True) (f.set (b - 2) v) := by
  refine ⟨rfl, fun r _ u hu => ?_⟩
  unfold Frame.afterCall at hu
  by_cases hr : r = b - 2
  · rw [hr, Frame.val_set_self]
    simpa [hr] using hu
  · rw [Frame.val_set_of_ne _ _ hr]
    by_cases hlt : r < b - 2
    · simpa [hr, hlt] using hu
    · simp [hr, hlt] at hu

/-- Leaving a value where the caller expects it and going on there is a return. -/
theorem held_of_handOver (hs : s.Serves m ret runs) {c : Place} (hc : s.caller = some c) {i : Inst}
    (hr : i.isReturn = true) {n pc : Nat} {f : Frame V H} {w : W} {go : Nat → Frame V H → W → Prop}
    (hgo : ∀ f, go (n + 1) f w → runs c.copy c.pc f w o)
    (h : m.exec Meaning.done o n (handOver s.base i) f w go) : Held m ret s o pc i f w := by
  have hret : ∀ v, (f.Free (s.base - 2) → go (n + 1) (f.set (s.base - 2) v) w) → ret v f w o := by
    intro v hv
    refine hs.back c hc v f w o fun hclear => ?_
    refine hs.mono c hc _ _ w o afterCall_below_set ?_
    exact hgo _ (hv (hclear.free (Nat.le_refl _)))
  cases i with
  | ret r => exact fun v hv => hret v (h v hv)
  | retConst x => exact hret _ h
  | _ => exact absurd hr (by simp [Inst.isReturn])

/-! ### The rules -/

section

variable {d d' : Draft} {pc next : Nat} {i : Inst} {others : Place → Prop}

theorem Returns.keeps (hs : s.Serves m ret runs) (hd : d.Valid) (hr : i.isReturn = true)
    (h : Returns s i pc d d' next) (hset : Settles m out runs d')
    (harr : Arrives m ret s out runs d'.size next) :
    Settles m out runs d ∧
      ∀ f w o, m.Runs Meaning.done out d.size f w o → ∀ pc', Held m ret s o pc' i f w := by
  have hover := isStraight_handOver (b := s.base) hr
  have hov := hd.emit (offset?_of_straight hover) (ne_stop_of_straight hover)
  cases h with
  | done hc hn =>
    obtain ⟨hset, hout⟩ := hset.of_emit hd
    refine ⟨hset, fun f w o hrun pc' => ?_⟩
    have := (Meaning.runs_iff hout).mp hrun
    unfold Held
    rw [hs.root hc]
    cases i with
    | ret r => exact this
    | retConst x => exact this
    | _ => exact absurd hr (by simp [Inst.isReturn])
  | last hc hn hstop =>
    obtain ⟨hset, hout⟩ := hset.of_emit hd
    refine ⟨hset, fun f w o hrun pc' => ?_⟩
    refine held_of_handOver hs hc hr (fun g hg => ?_) ((Meaning.runs_iff hout).mp hrun)
    rw [Draft.size_emit] at harr
    exact harr.last hstop _ hc g w o (hg (Nat.lt_succ_self _))
  | back hc hn =>
    obtain ⟨hset, u, q, hu, hq, hjump, hland⟩ := hset.of_emitJump hov
    obtain rfl := Option.some.inj hu
    obtain ⟨hset, hout⟩ := hset.of_emit hd
    refine ⟨hset, fun f w o hrun pc' => ?_⟩
    refine held_of_handOver hs hc hr (fun g hg => ?_) ((Meaning.runs_iff hout).mp hrun)
    rw [Draft.size_emit] at hjump hq
    exact hland g w o (runs_of_jump hjump hq (hg (Nat.lt_succ_self _)))

theorem placeBranch_keeps (hm : m.Algebraic) (hs : s.Serves m ret runs) (hd : d.Valid)
    (hb : i.isBranch = true) {offset : Int} (ho : i.offset? = some offset)
    (hset : Settles m out runs (placeBranch s i (jumpTarget pc offset) pc d))
    (hnext : ∀ f w o,
      m.Runs Meaning.done out (placeBranch s i (jumpTarget pc offset) pc d).size f w o →
        From m ret s o (pc + 1) f w) :
    Settles m out runs d ∧
      ∀ f w o, m.Runs Meaning.done out d.size f w o → Held m ret s o pc i f w := by
  unfold placeBranch at hset hnext
  split at hset
  · rename_i ht
    rw [if_pos ht] at hnext
    refine ⟨hset, fun f w o hrun => ?_⟩
    have hfrom := hnext f w o hrun
    -- both outcomes of the test lead to the place behind
    have hbranch : ∀ c l v, m.branch c offset l v pc f w o
        fun t => pc < t → From m ret s o t f w := by
      intro c l v u _
      obtain ⟨b, hb⟩ := hm.test_total c u v
      refine ⟨.ok b, hb, fun _ t htt _ => ?_, fun _ _ => hfrom⟩
      rw [ht, Option.some_inj] at htt
      exact htt ▸ hfrom
    cases i with
    | branch c a l r =>
      obtain rfl := Option.some.inj ho
      exact fun v _ => hbranch c l v
    | branchConst c a l x =>
      obtain rfl := Option.some.inj ho
      exact hbranch c l _
    | _ => exact absurd hb (by simp [Inst.isBranch])
  · rename_i ht
    rw [if_neg ht] at hnext
    obtain ⟨hset, u, q, hu, hq, hout, hland⟩ := hset.of_emitJump hd
    refine ⟨hset, fun f w o hrun => ?_⟩
    have hr : i.isReturn = false := by
      cases i <;> first | rfl | exact absurd hb (by simp [Inst.isBranch])
    refine exec_transfer hr (fun g w' hg _ => ?_) (fun b t' hb' ht' => ?_)
      ((Meaning.runs_iff hout).mp hrun)
    · refine hnext g w' o ?_
      rw [Draft.size_emitJump]
      exact hg (Nat.lt_succ_self _)
    · rw [ho, Option.some_inj] at hb'
      subst hb'
      rw [hu, Option.some_inj] at ht'
      subst ht'
      refine ⟨q, jumpTarget_eq_some.mpr (by omega), fun g w' hg _ => ?_⟩
      exact (hs.own _ _ _ _).mp (hland g w' o (hg hq))

theorem from_of_runs_iff {t : Nat} (hi : s.code[t]? = some i) {f : Frame V H} {w : W} :
    From m ret s o t f w ↔ Held m ret s o t (i.rebase s.base) f w :=
  Meaning.runs_iff (by rw [raise_getElem?, hi, Option.map_some])

theorem Follows.keeps (hm : m.Algebraic) (hs : s.Serves m ret runs) (hw : s.Within others) {t : Nat}
    (hd : d.Reading s others (pc + 1)) (ht : pc < t) (h : Follows s pc t d d' next)
    (hset : Settles m out runs d') (harr : Arrives m ret s out runs d'.size next) :
    Settles m out runs d ∧
      ∀ f w o, m.Runs Meaning.done out d.size f w o → From m ret s o t f w := by
  induction h with
  | ret hi hr h =>
    obtain ⟨hset, hheld⟩ := h.keeps hs hd.valid (by rw [isReturn_rebase, hr]) hset harr
    exact ⟨hset, fun f w o hrun => (from_of_runs_iff hi).mpr (hheld f w o hrun _)⟩
  | @branch t i offset d d' next hi hb ho hc h ih =>
    obtain ⟨u, hu, htu, hlt⟩ := hw.orderly.target hi ho
    have ho' : (i.rebase s.base).offset? = some offset := by rw [offset?_rebase, ho]
    have hb' : (i.rebase s.base).isBranch = true := by
      cases i <;> first | rfl | exact absurd hb (by simp [Inst.isBranch])
    obtain ⟨hset, hnext⟩ := ih
      (placeBranch_reading hd (by rw [ho']; rfl) hu (by omega) hlt) (by omega) hset harr
    obtain ⟨hset, hheld⟩ := placeBranch_keeps hm hs hd.valid hb' ho' hset hnext
    exact ⟨hset, fun f w o hrun => (from_of_runs_iff hi).mpr (hheld f w o hrun)⟩
  | skip hn => exact ⟨hset, harr.here⟩
  | jump hi hn =>
    obtain ⟨hset, u, q, hu, hq, hout, hland⟩ := hset.of_emitJump hd.valid
    obtain rfl := Option.some.inj hu
    exact ⟨hset, fun f w o hrun =>
      (hs.own _ _ _ _).mp (hland f w o (runs_of_jump hout hq hrun))⟩

theorem Affects.keeps (hm : m.Algebraic) (hs : s.Serves m ret runs) (hw : s.Within others)
    (hf : s.Fits pc i) (hd : d.Reading s others (pc + 1)) (h : Affects s i pc d d' next)
    (hset : Settles m out runs d') (harr : Arrives m ret s out runs d'.size next) :
    Settles m out runs d ∧
      ∀ f w o, m.Runs Meaning.done out d.size f w o → Held m ret s o pc i f w := by
  cases h with
  | @jump offset t _ _ hi ht h =>
    have ho : i.offset? = some offset := by
      rw [hi]
      rfl
    obtain ⟨u, hu, hlt, -⟩ := hf.target hw ho
    rw [ht, Option.some_inj] at hu
    obtain ⟨hset, hfrom⟩ := h.keeps hm hs hw hd (hu ▸ hlt) hset harr
    refine ⟨hset, fun f w o hrun => ?_⟩
    subst hi
    intro t' ht' _
    rw [ht, Option.some_inj] at ht'
    exact ht' ▸ hfrom f w o hrun
  | branch hb ho => exact placeBranch_keeps hm hs hd.valid hb ho hset harr.here
  | ret hr h =>
    obtain ⟨hset, hheld⟩ := h.keeps hs hd.valid hr hset harr
    exact ⟨hset, fun f w o hrun => hheld f w o hrun pc⟩
  | other ho hr =>
    obtain ⟨hset, hout⟩ := hset.of_emit hd.valid
    refine ⟨hset, fun f w o hrun => ?_⟩
    refine exec_step hr ho (fun g w' hg _ => ?_) ((Meaning.runs_iff hout).mp hrun)
    refine harr.here g w' o ?_
    rw [Draft.size_emit]
    exact hg (Nat.lt_succ_self _)

theorem Rewrites.keeps (hm : m.Algebraic) (hs : s.Serves m ret runs) (hw : s.Within others)
    (hf : s.Fits pc i) (hd : d.Reading s others (pc + 1)) (h : Rewrites s i pc d d' next)
    (hset : Settles m out runs d') (harr : Arrives m ret s out runs d'.size next) :
    Settles m out runs d ∧
      ∀ f w o, m.Runs Meaning.done out d.size f w o → Held m ret s o pc i f w := by
  -- each way to rewrite an instruction: its replacement is read first, and what was read before
  -- follows
  induction h with
  | @dropped i pc d h =>
    refine ⟨hset, fun f w o hrun => ?_⟩
    exact (held_of_simplify (j := i) hm hs.reads hf.through h).1 rfl f w (harr.here f w o hrun)
  | @effect i j pc next d d' h ha =>
    obtain ⟨hset, hheld⟩ := ha.keeps hm hs hw (hf.simplify h) hd hset harr
    exact ⟨hset, fun f w o hrun =>
      (held_of_simplify hm hs.reads hf.through h).2 rfl f w (hheld f w o hrun)⟩
  | @kept i j pc d h hj =>
    obtain ⟨hset, hout⟩ := hset.of_emit hd.valid
    refine ⟨hset, fun f w o hrun => ?_⟩
    refine (held_of_simplify hm hs.reads hf.through h).2 rfl f w ?_
    refine exec_step (isReturn_of_straight hj) (offset?_of_straight hj) (fun g w' hg _ => ?_)
      ((Meaning.runs_iff hout).mp hrun)
    refine harr.here g w' o ?_
    rw [Draft.size_emit]
    exact hg (Nat.lt_succ_self _)
  | @into i j k n pc next d d' h hj ht hn hfuse hr ih =>
    have hk := Site.fits_of_fuse hn hfuse (by simp) (fuse_keeps hfuse)
    obtain ⟨hset, hheld⟩ := ih hk (hd.not_target ht) hset harr
    refine ⟨hset, fun f w o hrun => ?_⟩
    refine (held_of_simplify hm hs.reads hf.through h).2 rfl f w ?_
    have := fuse_justified (o := o) hm hs.reads hn ((hf.simplify h).defs hj) hfuse f w
      (hheld f w o hrun)
    exact exec_step (isReturn_of_straight hj) (offset?_of_straight hj)
      (fun g w' hg _ => from_of_held hm hn hg) this
  | @split i j k l n pc next d d' h hj ht hn hfuse hr ih =>
    obtain ⟨hfirst, hrest⟩ := fuse_keeps hfuse
    have hk := Site.fits_of_fuse hn hfuse (by simp) hrest
    have hemit := (hd.not_target ht).emit (offset?_of_straight hfirst) (ne_stop_of_straight hfirst)
    obtain ⟨hset, hheld⟩ := ih hk hemit hset harr
    obtain ⟨hset, hout⟩ := hset.of_emit hd.valid
    refine ⟨hset, fun f w o hrun => ?_⟩
    refine (held_of_simplify hm hs.reads hf.through h).2 rfl f w ?_
    have := fuse_justified (o := o) hm hs.reads hn ((hf.simplify h).defs hj) hfuse f w
      (exec_step (isReturn_of_straight hfirst) (offset?_of_straight hfirst) (fun g w' hg => ?_)
        ((Meaning.runs_iff hout).mp hrun))
    · exact exec_step (isReturn_of_straight hj) (offset?_of_straight hj)
        (fun g w' hg _ => from_of_held hm hn hg) this
    · refine hheld g w' o ?_
      rw [Draft.size_emit]
      exact hg (Nat.lt_succ_self _)
  | @vanish i j n pc d h hj ht hn hfuse =>
    refine ⟨hset, fun f w o hrun => ?_⟩
    refine (held_of_simplify hm hs.reads hf.through h).2 rfl f w ?_
    have := fuse_justified (o := o) hm hs.reads hn ((hf.simplify h).defs hj) hfuse f w
      (harr.here f w o hrun)
    exact exec_step (isReturn_of_straight hj) (offset?_of_straight hj)
      (fun g w' hg _ => from_of_held hm hn hg) this

end

/-! ### Reading code to its end -/

/-- An inliner whose copies do what the calls do. -/
def Inliner.Sound (inline : Inliner) (s : Site) (others : Place → Prop) (m : Meaning V H W)
    (ret : V → Frame V H → W → Ending V W → Prop) (out : Code)
    (runs : Nat → Nat → Frame V H → W → Ending V W → Prop) : Prop :=
  ∀ callee shift pc d d', s.fetch? pc = some (.call callee shift) →
    inline callee shift pc d = some (some d') → d.Reading s others (pc + 1) →
    Settles m out runs d' →
    (∀ f w o, m.Runs Meaning.done out d'.size f w o → From m ret s o (pc + 1) f w) →
    Settles m out runs d ∧
      ∀ f w o, m.Runs Meaning.done out d.size f w o → Held m ret s o pc (.call callee shift) f w

theorem keepCalls_sound {others : Place → Prop} : keepCalls.Sound s others m ret out runs := by
  intro callee shift pc d d' _ h
  exact absurd h (by simp [keepCalls])

theorem Walks.keeps {inline : Inliner} {others : Place → Prop} {d d' : Draft} {pc : Nat}
    (hm : m.Algebraic) (hs : s.Serves m ret runs) (hw : s.Within others)
    (hk : inline.Keeps s others) (hin : inline.Sound s others m ret out runs)
    (hd : d.Reading s others pc) (h : Walks inline s pc d d') (hset : Settles m out runs d')
    (hexit : ∀ c, s.caller = some c → ∀ f w o, m.Runs Meaning.done out d'.size f w o →
      runs c.copy c.pc f w o) :
    Settles m out runs d ∧ Arrives m ret s out runs d.size pc := by
  -- what was read at a place runs from where the place arrives
  have harrive : ∀ {d : Draft} {pc : Nat} {i : Inst}, d.Valid → s.fetch? pc = some i → i ≠ .stop →
      Settles m out runs (d.arrive s.copy pc) →
      (∀ f w o, m.Runs Meaning.done out (d.arrive s.copy pc).size f w o → Held m ret s o pc i f w) →
      Settles m out runs d ∧ Arrives m ret s out runs d.size pc := by
    intro d pc i hd hi hne hset hheld
    rw [Draft.size_arrive] at hheld
    have hfrom : ∀ f w o, m.Runs Meaning.done out d.size f w o → From m ret s o pc f w :=
      fun f w o hrun => from_of_held hm hi (hheld f w o hrun)
    refine ⟨hset.of_arrive hd fun f w o hrun => (hs.own _ _ _ _).mpr (hfrom f w o hrun), hfrom, ?_⟩
    intro hstop
    have : s.fetch? pc = some .stop := by
      unfold Site.fetch?
      rw [hstop]
      rfl
    rw [hi, Option.some_inj] at this
    exact absurd this hne
  -- the induction is on how the code was walked through, from its end to its front
  induction h with
  | @stop pc d hi =>
    have hfrom : ∀ f w o, From m ret s o pc f w := by
      intro f w o
      exact from_of_held hm hi trivial
    refine ⟨hset.of_arrive hd.valid fun f w o _ => (hs.own _ _ _ _).mpr (hfrom f w o), ?_, ?_⟩
    · exact fun f w o _ => hfrom f w o
    · intro _ c hc f w o hrun
      refine hexit c hc f w o ?_
      rw [Draft.size_arrive]
      exact hrun
  | @keep pc callee shift d d' hi h ih =>
    obtain ⟨hset, harr⟩ := ih (hd.arrive.emit rfl (by simp)) hset hexit
    obtain ⟨hset, hout⟩ := hset.of_emit hd.arrive.valid
    refine harrive hd.valid hi (by simp) hset fun f w o hrun => ?_
    refine exec_step rfl rfl (fun g w' hg _ => ?_) ((Meaning.runs_iff hout).mp hrun)
    refine harr.here g w' o ?_
    rw [Draft.size_emit]
    exact hg (Nat.lt_succ_self _)
  | @copy pc callee shift d d₁ d' hi hc h ih =>
    obtain ⟨hset, harr⟩ := ih (hk _ _ _ _ _ hi hc hd.arrive) hset hexit
    obtain ⟨hset, hheld⟩ := hin _ _ _ _ _ hi hc hd.arrive hset harr.here
    exact harrive hd.valid hi (by simp) hset hheld
  | @straight pc next i d d₁ d' hi hst hr h ih =>
    have hf := Site.fits_of_fetch hi (ne_stop_of_straight hst)
    obtain ⟨hset, harr⟩ := ih (hr.reading hw hf hd.arrive).2 hset hexit
    obtain ⟨hset, hheld⟩ := hr.keeps hm hs hw hf hd.arrive hset harr
    exact harrive hd.valid hi (ne_stop_of_straight hst) hset hheld
  | @effect pc next i d d₁ d' hi hst ha h ih =>
    have hf := Site.fits_of_fetch hi hst
    obtain ⟨hset, harr⟩ := ih (ha.reading hw hf hd.arrive).2 hset hexit
    obtain ⟨hset, hheld⟩ := ha.keeps hm hs hw hf hd.arrive hset harr
    exact harrive hd.valid hi hst hset hheld

end ForkLisp.Optimize
