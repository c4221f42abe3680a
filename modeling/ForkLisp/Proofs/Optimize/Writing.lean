/-
What a pass writes.

All that a pass writes are instructions of the code that it reads, or what becomes of them by
rewriting, and all jumps go where jumps of that code go, or right behind a branch or a call of it.
So what holds of these holds of the draft (`Draft.All.walks`). `Rewritable` lists what is asked of a
property of instructions, and `Site.Grants` what is asked of the code that is read.
-/
import ForkLisp.Proofs.Optimize.Placing

namespace ForkLisp.Optimize

open ForkLisp.Code

/-- A property of instructions that rewriting them keeps. -/
structure Rewritable (P : Inst → Prop) : Prop where
  stop : P .stop
  jump : P (.jump 0)
  withOffset : ∀ i offset, P i → P (i.withOffset offset)
  tidy : ∀ i j, tidy i = some j → P i → P j
  fuse : ∀ dead i next y, fuse dead i next = some y → P i → P next → y.All P

/-- All instructions of a draft have a property, and all of its open jumps go to places of a copy
with another one. -/
structure Draft.All (P : Inst → Prop) (Q : Nat → Option Nat → Prop) (d : Draft) : Prop where
  insts : ∀ (n : Nat) i, d.builder.code[n]? = some i → P i
  jumps : ∀ p ∈ d.pending, Q p.copy p.target

/-- What is read from a site has a property that rewriting keeps. So has what is left for a caller,
and jumps in the site go to places with another property, as does control behind its branches and
behind the call. -/
structure Site.Grants (s : Site) (P : Inst → Prop) (Q : Nat → Option Nat → Prop) : Prop where
  rewritable : Rewritable P
  fetch : ∀ pc i, s.fetch? pc = some i → P i
  handOver : ∀ c i, s.caller = some c → i.isReturn = true → P i → P (handOver s.base i)
  target : ∀ (pc : Nat) i offset, s.code[pc]? = some i → i.offset? = some offset →
    Q s.copy (jumpTarget pc offset)
  behind : ∀ (pc : Nat) i, s.code[pc]? = some i → i.isBranch = true → Q s.copy (some (pc + 1))
  caller : ∀ c, s.caller = some c → Q c.copy (some c.pc)

section

variable {P : Inst → Prop} {Q : Nat → Option Nat → Prop} {s : Site} {d d' : Draft} {i j : Inst}
  {pc next : Nat}

/-! ### What is held -/

/-- An instruction that is held in the place of the one at `pc` has the property that all of them
have, and it goes where it may. -/
structure Site.Holds (s : Site) (P : Inst → Prop) (Q : Nat → Option Nat → Prop) (pc : Nat)
    (i : Inst) :
    Prop where
  inst : P i
  target : ∀ offset, i.offset? = some offset → Q s.copy (jumpTarget pc offset)

theorem Site.Grants.holds (hs : s.Grants P Q) (hi : s.fetch? pc = some i) : s.Holds P Q pc i := by
  refine ⟨hs.fetch pc i hi, fun offset ho => ?_⟩
  obtain ⟨k, hk, -, -, hoffset, -⟩ := Site.fetch?_eq_some hi
  exact hs.target pc k offset hk (hoffset.trans ho)

/-- Returns and branches are read as they are. -/
theorem Site.Grants.rebase (hs : s.Grants P Q) (hi : s.code[pc]? = some i)
    (h : i.isReturn = true ∨ i.isBranch = true) : P (i.rebase s.base) := by
  refine hs.fetch pc _ ?_
  unfold Site.fetch?
  rw [hi]
  cases i <;> first | rfl | exact absurd h (by simp [Inst.isReturn, Inst.isBranch])

theorem Site.Holds.simplify (hs : s.Grants P Q) (h : s.Holds P Q pc i)
    (hj : simplify s i pc = some (some j)) : s.Holds P Q pc j := by
  have htidy := tidy_of_simplify hj
  refine ⟨hs.rewritable.tidy i j htidy h.inst, fun offset ho => h.target offset ?_⟩
  rw [← (tidy_keeps htidy).2.1, ho]

theorem Site.Holds.fuse (hs : s.Grants P Q) {n : Inst} (hn : s.fetch? pc = some n)
    (hkeeps : Keeps n j) (hj : P j) : s.Holds P Q pc j :=
  ⟨hj, fun offset ho => (hs.holds hn).target offset (hkeeps.offset ▸ ho)⟩

/-! ### Drafts -/

namespace Draft.All

theorem emit (h : d.All P Q) (hi : P i) : (d.emit i).All P Q := by
  refine ⟨fun n j hj => ?_, h.jumps⟩
  rw [Draft.emit_getElem?] at hj
  split at hj
  · obtain rfl := Option.some.inj hj
    exact hi
  · exact h.insts n j hj

theorem emitJump (h : d.All P Q) (hs : s.Grants P Q) (hi : P i) {copy : Nat} {target : Option Nat}
    (ht : Q copy target) : (d.emitJump i copy target).All P Q := by
  refine ⟨(h.emit (hs.rewritable.withOffset i 0 hi)).insts, fun p hp => ?_⟩
  rw [Draft.pending_emitJump, List.mem_append, List.mem_singleton] at hp
  rcases hp with hp | rfl
  · exact h.jumps p hp
  · exact ht

theorem arrive (h : d.All P Q) (hs : s.Grants P Q) (copy pc : Nat) :
    (d.arrive copy pc).All P Q := by
  refine ⟨fun n j hj => ?_, fun p hp => h.jumps p (Draft.mem_arrive.mp hp).1⟩
  rw [Draft.arrive_getElem?] at hj
  split at hj
  · obtain ⟨k, hk, rfl⟩ := Option.map_eq_some_iff.mp hj
    exact hs.rewritable.withOffset k _ (h.insts n k hk)
  · exact h.insts n j hj

theorem placeBranch (h : d.All P Q) (hs : s.Grants P Q) (hi : P i) {target : Option Nat}
    (ht : Q s.copy target) : (placeBranch s i target pc d).All P Q := by
  unfold Optimize.placeBranch
  split
  · exact h
  · exact h.emitJump hs hi ht

theorem returns (h : d.All P Q) (hs : s.Grants P Q) (hi : P i) (hr : i.isReturn = true)
    (hw : Returns s i pc d d' next) : d'.All P Q := by
  cases hw with
  | done => exact h.emit hi
  | last hc => exact h.emit (hs.handOver _ i hc hr hi)
  | back hc =>
    exact (h.emit (hs.handOver _ i hc hr hi)).emitJump hs hs.rewritable.jump (hs.caller _ hc)

theorem follows (h : d.All P Q) (hs : s.Grants P Q) {t : Nat} (ht : Q s.copy (some t))
    (hw : Follows s pc t d d' next) : d'.All P Q := by
  induction hw with
  | ret hi hr hw => exact h.returns hs (hs.rebase hi (.inl hr)) (by rw [isReturn_rebase, hr]) hw
  | branch hi hb ho _ _ ih =>
    exact ih (h.placeBranch hs (hs.rebase hi (.inr hb)) (hs.target _ _ _ hi ho))
      (hs.behind _ _ hi hb)
  | skip => exact h
  | jump => exact h.emitJump hs hs.rewritable.jump ht

theorem affects (h : d.All P Q) (hs : s.Grants P Q) (hi : s.Holds P Q pc i)
    (hw : Affects s i pc d d' next) : d'.All P Q := by
  cases hw with
  | jump hj ht hw => exact h.follows hs (ht ▸ hi.target _ (hj ▸ rfl)) hw
  | branch _ ho => exact h.placeBranch hs hi.inst (hi.target _ ho)
  | ret hr hw => exact h.returns hs hi.inst hr hw
  | other => exact h.emit hi.inst

theorem rewrites (h : d.All P Q) (hs : s.Grants P Q) (hi : s.Holds P Q pc i)
    (hw : Rewrites s i pc d d' next) : d'.All P Q := by
  induction hw with
  | dropped | vanish => exact h
  | effect hj ha => exact h.affects hs (hi.simplify hs hj) ha
  | kept hj => exact h.emit (hi.simplify hs hj).inst
  | into hj _ _ hn hf _ ih =>
    have hk := hs.rewritable.fuse _ _ _ _ hf (hi.simplify hs hj).inst (hs.fetch _ _ hn)
    exact ih h (.fuse hs hn (fuse_keeps hf) hk)
  | split hj _ _ hn hf _ ih =>
    obtain ⟨hk, hl⟩ := hs.rewritable.fuse _ _ _ _ hf (hi.simplify hs hj).inst (hs.fetch _ _ hn)
    exact ih (h.emit hk) (.fuse hs hn (fuse_keeps hf).2 hl)

end Draft.All

/-- An inliner whose copies have the properties that the code has. -/
def Inliner.Grants (inline : Inliner) (s : Site) (P : Inst → Prop) (Q : Nat → Option Nat → Prop) :
    Prop :=
  ∀ callee shift pc d d', s.fetch? pc = some (.call callee shift) →
    inline callee shift pc d = some (some d') → d.All P Q → d'.All P Q

theorem keepCalls_grants (s : Site) (P : Inst → Prop) (Q : Nat → Option Nat → Prop) :
    keepCalls.Grants s P Q :=
  fun _ _ _ _ _ _ h => absurd h (by simp [keepCalls])

/-- What is written while code is read has the properties that the code has, if what is copied in
does. -/
theorem Draft.All.walks {inline : Inliner} (hs : s.Grants P Q) (hin : inline.Grants s P Q)
    (h : d.All P Q) (hw : Walks inline s pc d d') : d'.All P Q := by
  induction hw with
  | stop => exact h.arrive hs _ _
  | keep hi _ ih => exact ih ((h.arrive hs _ _).emit (hs.fetch _ _ hi))
  | copy hi hc _ ih => exact ih (hin _ _ _ _ _ hi hc (h.arrive hs _ _))
  | straight hi _ hr _ ih => exact ih ((h.arrive hs _ _).rewrites hs (hs.holds hi) hr)
  | effect hi _ ha _ ih => exact ih ((h.arrive hs _ _).affects hs (hs.holds hi) ha)

theorem Draft.empty_all (P : Inst → Prop) (Q : Nat → Option Nat → Prop) : Draft.empty.All P Q :=
  ⟨fun n i hi => absurd hi (by simp [Draft.empty, Builder.empty]), fun _ hp =>
    absurd hp List.not_mem_nil⟩

end

/-! ### Passes -/

namespace Subject

variable {P : Inst → Prop} {Q : Nat → Option Nat → Prop} {subject : Subject} {code : ForkLisp.Code}

/-- All instructions that a pass writes have a property that those of the code have. -/
theorem pass_all {inline : Inliner} (hs : subject.site.Grants P Q)
    (hin : inline.Grants subject.site P Q) (h : subject.pass inline = some code) :
    ∀ (n : Nat) i, code[n]? = some i → P i := by
  obtain ⟨d, hd, hdone⟩ := Option.bind_eq_some_iff.mp h
  obtain rfl := Option.some.inj hdone
  have hall := (Draft.empty_all P Q).walks hs hin (walk_rules hd)
  exact (hall.emit hs.rewritable.stop).insts

/-- Copies of callees have the properties that the code of each of them has. -/
theorem inline_grants
    (h : ∀ callee code shift pc d, subject.site.fetch? pc = some (.call callee shift) →
      subject.calleeCode? callee = some code → code.isEmpty = false →
      (subject.copySite code shift pc d).Grants P Q) : subject.inline.Grants subject.site P Q := by
  intro callee shift pc d d' hi hin hd
  obtain ⟨code, hcode, hne, hw⟩ := inline_eq_some hin
  have hstart : { d with copies := d.copies + 1 }.All P Q := ⟨hd.insts, hd.jumps⟩
  exact hstart.walks (h callee code shift pc d hi hcode hne) (keepCalls_grants _ P Q) hw

end Subject

end ForkLisp.Optimize
