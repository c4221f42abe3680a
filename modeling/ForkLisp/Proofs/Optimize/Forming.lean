/-
What a pass writes is well formed.

When a pass gets to the end of well-formed code, it has just written a return (`Walks.ended`), for
only a return stands right before the end, and none of the instructions that may be held in its
place goes on there. All open jumps that are left then have been settled before that return was
written, since no jump in well-formed code goes to the end. So the new code is well formed
(`Subject.pass_wellFormed`).
-/
import ForkLisp.Proofs.Code.WellFormed
import ForkLisp.Proofs.Compile.Callees

namespace ForkLisp.Optimize

open ForkLisp.Code ForkLisp.Behaviour

/-! ### Linkage -/

theorem hasRoom_of_callee? {i : Inst} (h : i.callee? = none) : i.HasRoom := by
  cases i <;> trivial

theorem hasRoom_rebase {i : Inst} (h : i.HasRoom) (b : Nat) : (i.rebase b).HasRoom := by
  cases i with
  | call | spawn => exact Nat.le_trans h (Nat.le_add_right _ _)
  | _ => trivial

theorem hasRoom_normalize {i : Inst} (h : i.HasRoom) : (normalize i).HasRoom := by
  unfold normalize
  split
  · trivial
  · exact h

theorem rewritable_hasRoom : Rewritable Inst.HasRoom := by
  refine rewritable_of_callee? (fun _ => hasRoom_of_callee?) (fun i offset h => ?_)
    fun i j hj h => ?_
  · cases i <;> exact h
  · cases i with
    | call | spawn =>
      obtain rfl := Option.some.inj hj
      exact h
    | _ => exact hasRoom_of_callee? (callee?_tidy hj)

/-! ### Jumps before the end -/

/-- A jump into code goes to a place before its end. -/
def BeforeEnd (code : ForkLisp.Code) (copy : Nat) (target : Option Nat) : Prop :=
  copy = 0 → ∀ t, target = some t → t + 1 < code.size

section

variable {subject : Subject} {code : ForkLisp.Code} {callee : FuncId} {shift pc : Nat} {d : Draft}

theorem fetch_hasRoom {s : Site} (hs : WellFormed s.code) {i : Inst} (hi : s.fetch? pc = some i) :
    i.HasRoom := by
  obtain ⟨j, hj, rfl⟩ := Option.map_eq_some_iff.mp hi
  exact hasRoom_normalize (hasRoom_rebase (hs.room pc j hj) s.base)

theorem isBranch_ahead {i : Inst} (hs : WellFormed code) (hi : code[pc]? = some i)
    (hb : i.isBranch = true) : pc + 2 < code.size := by
  refine hs.ahead hi ?_ ?_ <;> cases i <;> first | rfl | cases hb
  all_goals simp

theorem Subject.site_grants (hs : WellFormed subject.code) :
    subject.site.Grants Inst.HasRoom (BeforeEnd subject.code) where
  rewritable := rewritable_hasRoom
  fetch _ _ := fetch_hasRoom hs
  handOver _ _ hc := absurd hc (by simp [Subject.site])
  target _ _ _ hi ho _ _ ht := (hs.target hi ho ht).2
  behind _ _ hi hb _ _ ht := by
    obtain rfl := Option.some.inj ht
    exact isBranch_ahead hs hi hb
  caller _ hc := absurd hc (by simp [Subject.site])

/-- A call does not stand right before the end, so that the jump behind it does not go to the
end. -/
theorem Subject.copySite_grants (hs : WellFormed subject.code)
    (hi : subject.site.fetch? pc = some (.call callee shift)) (hc : WellFormed code) :
    (subject.copySite code shift pc d).Grants Inst.HasRoom (BeforeEnd subject.code) where
  rewritable := rewritable_hasRoom
  fetch _ _ := fetch_hasRoom hc
  handOver _ _ _ hr _ := hasRoom_of_callee? (callee?_of_straight (isStraight_handOver hr))
  target _ _ _ _ _ hcopy := absurd hcopy (Nat.succ_ne_zero _)
  behind _ _ _ _ hcopy := absurd hcopy (Nat.succ_ne_zero _)
  caller c hcaller _ t ht := by
    obtain rfl := Option.some.inj hcaller
    obtain rfl := Option.some.inj ht
    obtain ⟨j, hj, hcall, -, -, hret⟩ := Site.fetch?_eq_some hi
    refine hs.ahead hj hret ?_
    rintro rfl
    cases hcall

end

/-! ### What stands right before the end -/

section

variable {s : Site} {others : Place → Prop} {dead : Reg → Option Bool} {d d' : Draft}
  {i j n : Inst} {pc next : Nat} {y : Fusion}

theorem tidy_of_isReturn (h : i.isReturn = true) : tidy i = some i := by
  cases i <;> first | rfl | cases h

/-- No return is left out. -/
theorem simplify_of_isReturn (h : i.isReturn = true) : simplify s i pc = some (some i) := by
  unfold simplify
  rw [tidy_of_isReturn h]
  cases i <;> first | rfl | cases h

/-- A return is fused into another return, or stays. -/
theorem fuse_isReturn (hn : n.isReturn = true) (h : fuse dead i n = some y) :
    y = .apart ∨ ∃ j, y = .into j ∧ j.isReturn = true := by
  refine (fuse_rules h).imp_right fun h => ?_
  cases h with
  | intRet | moveRet => exact ⟨_, rfl, rfl⟩
  | intTest h | boolTest h => cases h <;> cases hn
  | _ => cases hn

/-! ### How a draft ends -/

/-- A draft ends in a return, and all of its jumps that are settled go to instructions of it. -/
structure Draft.Ended (d : Draft) : Prop where
  last : ∃ (n : Nat) (i : Inst), n + 1 = d.size ∧ d.builder.code[n]? = some i ∧ i.isReturn = true
  settled : ∀ (n : Nat) (i : Inst) (offset : Int), d.builder.code[n]? = some i →
    i.offset? = some offset → (∃ p ∈ d.pending, p.label = n) ∨ (0 < offset ∧ n + offset < d.size)

/-- A draft ends when a return has been written. -/
theorem Draft.Valid.ended (h : d.Valid) (hr : i.isReturn = true) : (d.emit i).Ended := by
  refine ⟨⟨d.size, i, (size_emit d i).symm, ?_, hr⟩, fun n j offset hj ho => ?_⟩
  · rw [emit_getElem?, if_pos rfl]
  · rw [emit_getElem?] at hj
    split at hj
    · obtain rfl := Option.some.inj hj
      rw [isReturn_offset? hr] at ho
      cases ho
    · refine (h.forward n j offset hj ho).imp_right fun ⟨hpos, hle⟩ => ⟨hpos, ?_⟩
      rw [size_emit]
      omega

theorem Returns.ended (hc : s.caller = none) (hd : d.Valid) (hr : i.isReturn = true)
    (h : Returns s i pc d d' next) : d'.Ended := by
  cases h with
  | done => exact hd.ended hr
  | last hc' => cases hc.symm.trans hc'
  | back hc' => cases hc.symm.trans hc'

/-- A jump that is followed leads to the end only if a return has been written in its place. -/
theorem Follows.ended (hs : WellFormed s.code) (hc : s.caller = none) {t : Nat} (hpc : pc < t)
    (ht : t + 1 < s.code.size) (hd : d.Valid) (h : Follows s pc t d d' next)
    (hnext : next + 1 = s.code.size) : d'.Ended := by
  induction h with
  | ret _ hr h => exact h.ended hc hd (by rw [isReturn_rebase, hr])
  | branch hi hb ho _ _ ih =>
    have hahead := isBranch_ahead hs hi hb
    refine ih (by omega) hahead ?_ hnext
    unfold placeBranch
    split
    · exact hd
    · refine hd.emitJump ?_ _ _
      rw [offset?_rebase, ho]
      rfl
  | skip => omega
  | jump _ hn =>
    have := Draft.nextReachable?_le hpc hn
    omega

theorem Affects.ended (hs : WellFormed s.code) (hc : s.caller = none) (hf : s.Fits pc i)
    (hret : pc + 2 = s.code.size → i.isReturn = true) (hd : d.Valid) (h : Affects s i pc d d' next)
    (hnext : next + 1 = s.code.size) : d'.Ended := by
  cases h with
  | @jump offset _ _ _ hi ht h =>
    obtain ⟨k, hk, ho⟩ := hf.offset offset (by rw [hi]; rfl)
    obtain ⟨hlt, hsize⟩ := hs.target hk ho ht
    exact h.ended hs hc hlt hsize hd hnext
  | branch hb =>
    have hsome := isBranch_offset? hb
    rw [isReturn_offset? (hret hnext)] at hsome
    cases hsome
  | ret hr h => exact h.ended hc hd hr
  | other _ hr => cases hr.symm.trans (hret hnext)

/-- An instruction that is read right before the end is a return. -/
theorem isReturn_of_fetch (hs : WellFormed s.code) (hn : s.fetch? pc = some n)
    (hpc : pc + 2 = s.code.size) : n.isReturn = true := by
  obtain ⟨k, hk, -, -, -, hret⟩ := Site.fetch?_eq_some hn
  rw [← hret]
  exact hs.isReturn_of_last hk hpc

theorem Rewrites.ended (hs : WellFormed s.code) (hc : s.caller = none) (hf : s.Fits pc i)
    (hret : pc + 2 = s.code.size → i.isReturn = true) (hd : d.Valid) (h : Rewrites s i pc d d' next)
    (hnext : next + 1 = s.code.size) : d'.Ended := by
  -- a return that is held stays
  have hkeep : ∀ {i j : Inst} {pc : Nat}, i.isReturn = true → simplify s i pc = some (some j) →
      j.isReturn = true := by
    intro i j pc hi hj
    rw [simplify_of_isReturn hi] at hj
    exact Option.some.inj (Option.some.inj hj) ▸ hi
  induction h with
  | dropped h =>
    rw [simplify_of_isReturn (hret hnext)] at h
    cases h
  | effect h ha => exact ha.ended hs hc (hf.simplify h) (fun hpc => hkeep (hret hpc) h) hd hnext
  | kept h hj => cases (isReturn_of_straight hj).symm.trans (hkeep (hret hnext) h)
  | into h hj ht hn hfuse hr ih =>
    refine ih (Site.fits_of_fuse hn hfuse (by simp) (fuse_keeps hfuse)) (fun hpc => ?_) hd hnext
    rcases fuse_isReturn (isReturn_of_fetch hs hn hpc) hfuse with he | ⟨k, he, hk⟩
    · cases he
    · obtain rfl := Fusion.into.inj he
      exact hk
  | split h hj ht hn hfuse hr ih =>
    obtain ⟨hfirst, hrest⟩ := fuse_keeps hfuse
    refine ih (Site.fits_of_fuse hn hfuse (by simp) hrest) (fun hpc => ?_)
      (hd.emit (offset?_of_straight hfirst) (ne_stop_of_straight hfirst)) hnext
    rcases fuse_isReturn (isReturn_of_fetch hs hn hpc) hfuse with he | ⟨k, he, -⟩ <;> cases he
  | vanish h hj ht hn hfuse =>
    rcases fuse_isReturn (isReturn_of_fetch hs hn hnext) hfuse with he | ⟨k, he, -⟩ <;> cases he

/-- When the end of code is read that is no copy, a return has just been written. -/
theorem Walks.ended {inline : Inliner} {P : Inst → Prop} {Q : Nat → Option Nat → Prop}
    (hs : WellFormed s.code) (hc : s.caller = none) (hwithin : s.Within others)
    (hin : inline.Keeps s others) (hgrants : s.Grants P Q) (hin' : inline.Grants s P Q)
    (hd : d.Reading s others pc) (hall : d.All P Q) (hend : pc + 1 = s.code.size → d.Ended)
    (h : Walks inline s pc d d') :
    ∃ d₀ : Draft, d₀.Ended ∧ d₀.All P Q ∧ d' = d₀.arrive s.copy (s.code.size - 1) := by
  -- a call does not stand right before the end
  have hcall : ∀ {pc callee shift}, s.fetch? pc = some (.call callee shift) →
      pc + 1 + 1 ≠ s.code.size :=
    fun hi hpc => by cases isReturn_of_fetch hs hi hpc
  induction h with
  | @stop pc d hi =>
    have hpc := (hs.stop_iff pc).mp (Site.fetch?_stop hi)
    obtain rfl : pc = s.code.size - 1 := by omega
    exact ⟨d, hend hpc, hall, rfl⟩
  | keep hi _ ih =>
    exact ih (hd.arrive.emit rfl (by simp)) ((hall.arrive hgrants _ _).emit (hgrants.fetch _ _ hi))
      fun hpc => absurd hpc (hcall hi)
  | copy hi hcopy _ ih =>
    exact ih (hin _ _ _ _ _ hi hcopy hd.arrive) (hin' _ _ _ _ _ hi hcopy (hall.arrive hgrants _ _))
      fun hpc => absurd hpc (hcall hi)
  | straight hi hst hr _ ih =>
    have hf := Site.fits_of_fetch hi (ne_stop_of_straight hst)
    exact ih (hr.reading hwithin hf hd.arrive).2
      ((hall.arrive hgrants _ _).rewrites hgrants (hgrants.holds hi) hr)
      (hr.ended hs hc hf (isReturn_of_fetch hs hi) hd.arrive.valid)
  | effect hi hst ha _ ih =>
    have hf := Site.fits_of_fetch hi hst
    exact ih (ha.reading hwithin hf hd.arrive).2
      ((hall.arrive hgrants _ _).affects hgrants (hgrants.holds hi) ha)
      (ha.ended hs hc hf (isReturn_of_fetch hs hi) hd.arrive.valid)

end

/-! ### The code that a pass writes -/

/-- Where no jump goes, nothing is settled. -/
theorem Draft.arrive_eq_self {d : Draft} {copy pc : Nat}
    (h : ∀ p ∈ d.pending, p.goesTo copy pc = false) : d.arrive copy pc = d := by
  unfold arrive
  rw [List.filter_eq_nil_iff.mpr fun p hp => by simp [h p hp],
    List.filter_eq_self.mpr fun p hp => by simp [h p hp]]
  rfl

/-- A draft without open jumps that ends in a return becomes well-formed code. -/
theorem Draft.Ended.wellFormed {d : Draft} (h : d.Ended) (hp : d.pending = []) (hv : d.Valid)
    (hroom : ∀ (n : Nat) i, d.builder.code[n]? = some i → i.HasRoom) :
    WellFormed (d.emit .stop).builder.code := by
  have hsize : (d.emit .stop).builder.code.size = d.size + 1 := size_emit d .stop
  have horderly := hv.orderly hp
  have hold : ∀ {n : Nat} {i : Inst}, i ≠ .stop → (d.emit .stop).builder.code[n]? = some i →
      d.builder.code[n]? = some i := by
    intro n i hi hn
    rw [emit_getElem?] at hn
    split at hn
    · exact absurd (Option.some.inj hn).symm hi
    · exact hn
  refine ⟨horderly.stop_iff, ?_, fun n i offset hi ho => ?_, fun n i hi => ?_⟩
  · obtain ⟨n, i, hn, hi, hret⟩ := h.last
    refine ⟨n, i, by omega, ?_, hret⟩
    rw [emit_getElem?, if_neg (by omega), hi]
  · have hne : i ≠ .stop := by
      rintro rfl
      cases ho
    rcases h.settled n i offset (hold hne hi) ho with ⟨p, hmem, -⟩ | hfwd
    · rw [hp] at hmem
      cases hmem
    · omega
  · by_cases hne : i = .stop
    · exact hne ▸ trivial
    · exact hroom n i (hold hne hi)

namespace Subject

variable {subject : Subject} {d : Draft}

/-- When a pass over well-formed code is done, all labels have been resolved and the new code
is well formed. -/
theorem pass_wellFormed {inline : Inliner} (hs : WellFormed subject.code)
    (hkeeps : inline.Keeps subject.site fun _ => False)
    (hgrants : inline.Grants subject.site Inst.HasRoom (BeforeEnd subject.code))
    (h : walk inline subject.site (subject.code.size + 1) 0 .empty = some d) :
    d.pending = [] ∧ WellFormed (d.emit .stop).builder.code := by
  have hw := walk_rules h
  have hwithin := site_within hs.orderly
  have hread := hw.reading hwithin hkeeps (Draft.empty_reading _ _)
  have hnil := hread.pending_nil
  have hstart : 0 + 1 ≠ subject.code.size := by
    obtain ⟨pc, -, hpc, -⟩ := hs.returns
    omega
  obtain ⟨d₀, hended, hall, rfl⟩ := hw.ended (s := subject.site) hs rfl hwithin hkeeps
    (site_grants hs) hgrants (Draft.empty_reading _ _) (Draft.empty_all _ _)
    fun h => absurd h hstart
  -- no open jump goes to the end, so that nothing is settled there
  have hsame : d₀.arrive 0 (subject.code.size - 1) = d₀ := by
    refine Draft.arrive_eq_self fun p hp => Bool.not_eq_true _ ▸ fun hg => ?_
    obtain ⟨hcopy, htarget⟩ := Draft.goesTo_iff.mp hg
    have := hall.jumps p hp hcopy _ htarget
    omega
  rw [show d₀.arrive subject.site.copy (subject.site.code.size - 1) = d₀ from hsame] at hread hnil ⊢
  exact ⟨hnil, hended.wellFormed hnil hread.valid hall.insts⟩

end Subject

end ForkLisp.Optimize
