/-
What a pass writes is orderly.

While a pass reads a site, every jump that it writes goes to a place that is still to be read
(`Rewrites.reading`, `Walks.reading`). So all jumps have found their targets at the end, and the new
code is orderly if the code that was read is (`pass_orderly`). `Site.Fits` says what is kept of the
instruction at a place when another one is held instead.
-/
import ForkLisp.Proofs.Code.Orderly
import ForkLisp.Proofs.Optimize.Drafting
import ForkLisp.Proofs.Optimize.FusionRules
import ForkLisp.Proofs.Optimize.Rewriting
import ForkLisp.Proofs.Optimize.PassRules

namespace ForkLisp.Optimize

open ForkLisp.Code ForkLisp.Behaviour

/-- An instruction can be held in the place of the one at `pc`. -/
structure Site.Fits (s : Site) (pc : Nat) (i : Inst) : Prop where
  through : isStraight i = true → ∃ k, s.code[pc]? = some k ∧ fallsThrough k = true
  offset : ∀ offset, i.offset? = some offset → ∃ k, s.code[pc]? = some k ∧ k.offset? = some offset
  defs : isStraight i = true → ∀ d ∈ i.defs, s.base ≤ d
  not_stop : i ≠ .stop

/-- A site of orderly code, whose caller goes on at one of the places that are allowed elsewhere. -/
structure Site.Within (s : Site) (others : Place → Prop) : Prop where
  orderly : Orderly s.code
  caller : ∀ c, s.caller = some c → c.copy ≠ s.copy ∧ others c

/-! ### What is held -/

theorem fallsThrough_of_straight {i : Inst} (h : isStraight i = true) : fallsThrough i = true := by
  cases i <;> first | rfl | exact absurd h (by simp [isStraight])

theorem offset?_of_straight {i : Inst} (h : isStraight i = true) : i.offset? = none := by
  cases i <;> first | rfl | exact absurd h (by simp [isStraight])

theorem isReturn_of_straight {i : Inst} (h : isStraight i = true) : i.isReturn = false := by
  cases i <;> first | rfl | exact absurd h (by simp [isStraight])

theorem ne_stop_of_straight {i : Inst} (h : isStraight i = true) : i ≠ .stop := by
  rintro rfl
  exact absurd h (by simp [isStraight])

theorem isStraight_normalize (i : Inst) : isStraight (normalize i) = isStraight i := by
  unfold normalize
  split <;> rfl

theorem defs_normalize (i : Inst) : (normalize i).defs = i.defs := by
  unfold normalize
  split <;> rfl

theorem defs_rebase_le {b : Nat} {i : Inst} (hs : isStraight (i.rebase b) = true) :
    ∀ d ∈ (i.rebase b).defs, b ≤ d := by
  intro d hd
  cases i <;> first
    | exact absurd hs Bool.false_ne_true
    | (rw [List.mem_singleton.mp hd]; exact Nat.le_add_left _ _)

theorem Site.fits_of_fetch {s : Site} {pc : Nat} {i : Inst} (h : s.fetch? pc = some i)
    (hs : i ≠ .stop) : s.Fits pc i := by
  obtain ⟨j, hj, rfl, hf, ho, -⟩ := Site.fetch?_eq_some h
  refine ⟨fun hi => ⟨j, hj, ?_⟩, fun offset hoff => ⟨j, hj, ?_⟩, fun hi => ?_, hs⟩
  · rw [hf]
    exact fallsThrough_of_straight hi
  · rw [ho, hoff]
  · rw [isStraight_normalize] at hi
    rw [defs_normalize]
    exact defs_rebase_le hi

theorem tidy_keeps {i j : Inst} (h : tidy i = some j) :
    isStraight i = isStraight j ∧ j.offset? = i.offset? ∧ j.defs = i.defs := by
  rcases tidy_eq_some h with rfl | ⟨d, rfl, rfl⟩ <;> exact ⟨rfl, rfl, rfl⟩

theorem tidy_of_simplify {s : Site} {i j : Inst} {pc : Nat} (h : simplify s i pc = some (some j)) :
    tidy i = some j := by
  unfold simplify at h
  split at h
  · exact absurd h (by simp)
  · rename_i k hk
    split at h
    · obtain ⟨dead, -, hd⟩ := Option.map_eq_some_iff.mp h
      cases dead with
      | true => exact absurd hd (by simp)
      | false => rw [hk, ← hd, if_neg (by simp)]
    · rw [hk, Option.some.inj h]

theorem Site.Fits.simplify {s : Site} {pc : Nat} {i j : Inst} (h : s.Fits pc i)
    (hj : simplify s i pc = some (some j)) : s.Fits pc j := by
  obtain ⟨hs, ho, hd⟩ := tidy_keeps (tidy_of_simplify hj)
  refine ⟨fun hi => h.through (hs ▸ hi), fun offset hoff => h.offset offset (ho ▸ hoff), ?_, ?_⟩
  · intro hi
    rw [hd]
    exact h.defs (hs ▸ hi)
  · rintro rfl
    have := tidy_of_simplify hj
    cases i with
    | stop => exact h.not_stop rfl
    | move d r => exact absurd hs (by simp [isStraight])
    | arithConst op d x => exact absurd hs (by simp [isStraight])
    | _ => exact absurd this (by simp [tidy])

/-- What a fusion leaves of the second instruction. -/
structure Keeps (next j : Inst) : Prop where
  straight : isStraight j = true → isStraight next = true ∧ j.defs = next.defs
  offset : j.offset? = next.offset?
  not_stop : j ≠ .stop

/-- What stands in the place of two instructions keeps what matters of the second one. -/
def Fusion.Keeps (next : Inst) : Fusion → Prop
  | .into j => Optimize.Keeps next j
  | .split first rest => isStraight first = true ∧ Optimize.Keeps next rest
  | .vanish | .apart => True

theorem keeps_normalize (op : ArithOp) (d s : Nat) (x : Int64) :
    Optimize.Keeps (.arith op d s) (normalize (.arithConst op d x)) := by
  refine ⟨fun _ => ⟨rfl, ?_⟩, ?_, fun h => ?_⟩
  · rw [defs_normalize]
    rfl
  · rw [offset?_normalize]
    rfl
  · have := isStraight_normalize (.arithConst op d x)
    rw [h] at this
    exact absurd this (by simp [isStraight])

theorem Tests.keeps {dead : Nat → Option Bool} {a : Nat} {x : Int64} {next : Inst} {y : Fusion}
    (h : Tests dead a x next y) : y.Keeps next := by
  cases h with
  | right | left | taken => exact ⟨fun hs => absurd hs (by simp [isStraight]), rfl, by simp⟩
  | passed => trivial

theorem fuse_keeps {dead : Nat → Option Bool} {i next : Inst} {y : Fusion}
    (h : fuse dead i next = some y) : y.Keeps next := by
  rcases fuse_rules h with rfl | h
  · trivial
  cases h with
  | intTest h | boolTest h => exact h.keeps
  | intArith => exact keeps_normalize ..
  | swap => exact ⟨rfl, fun _ => ⟨rfl, rfl⟩, rfl, by simp⟩
  | intMove | boolMove | fold | moveMove | moveArith | merge =>
    exact ⟨fun _ => ⟨rfl, rfl⟩, rfl, by simp⟩
  | intRet | moveBranch | moveBranchConst | moveRet =>
    exact ⟨fun hs => absurd hs (by simp [isStraight]), rfl, by simp⟩

theorem Site.Fits.keeps {s : Site} {pc : Nat} {next j : Inst} (h : s.Fits pc next)
    (hj : Keeps next j) : s.Fits pc j := by
  refine ⟨fun hs => h.through (hj.straight hs).1, fun offset ho => h.offset offset (hj.offset ▸ ho),
    fun hs => ?_, hj.not_stop⟩
  rw [(hj.straight hs).2]
  exact h.defs (hj.straight hs).1

/-- The end is fused with nothing. -/
theorem fuse_stop {dead : Nat → Option Bool} {i : Inst} {y : Fusion}
    (h : fuse dead i .stop = some y) : y = .apart := by
  cases i <;> exact (Option.some.inj h).symm

theorem Site.fits_of_fuse {s : Site} {pc : Nat} {dead : Nat → Option Bool} {i next j : Inst}
    {y : Fusion} (hn : s.fetch? pc = some next) (hf : fuse dead i next = some y) (hy : y ≠ .apart)
    (hj : Keeps next j) : s.Fits pc j := by
  refine (Site.fits_of_fetch hn ?_).keeps hj
  rintro rfl
  exact hy (fuse_stop hf)

/-! ### Reading a site -/

section

variable {s : Site} {others : Place → Prop} {d d' : Draft} {pc next : Nat} {i : Inst}

theorem isReturn_offset? (h : i.isReturn = true) : i.offset? = none := by
  cases i <;> first | rfl | exact absurd h (by simp [Inst.isReturn])

theorem isBranch_offset? (h : i.isBranch = true) : i.offset?.isSome = true := by
  cases i <;> first | rfl | exact absurd h (by simp [Inst.isBranch])

theorem isStraight_handOver {b : Nat} (h : i.isReturn = true) :
    isStraight (handOver b i) = true := by
  cases i <;> first | rfl | exact absurd h (by simp [Inst.isReturn])

theorem Returns.reading (hs : s.Within others) (hr : i.isReturn = true)
    (hd : d.Reading s others (pc + 1)) (h : Returns s i pc d d' next) :
    pc < next ∧ d'.Reading s others next := by
  have hover := isStraight_handOver (b := s.base) hr
  have hd₁ : (d.emit (handOver s.base i)).Reading s others (pc + 1) :=
    hd.emit (offset?_of_straight hover) (ne_stop_of_straight hover)
  cases h with
  | done hc hn =>
    refine (hd.emit (isReturn_offset? hr) ?_).nextReachable hn
    rintro rfl
    exact absurd hr (by simp [Inst.isReturn])
  | last hc hn _ => exact hd₁.nextReachable hn
  | back hc hn =>
    obtain ⟨hlt, hread⟩ := hd₁.nextReachable hn
    obtain ⟨hne, hother⟩ := hs.caller _ hc
    exact ⟨hlt, hread.emitJump rfl (fun h => absurd h hne) fun _ => hother⟩

theorem placeBranch_reading {start t : Nat} {target : Option Nat} (hd : d.Reading s others start)
    (ho : i.offset?.isSome = true) (ht : target = some t) (hle : start ≤ t)
    (hlt : t < s.code.size) :
    (placeBranch s i target pc d).Reading s others start := by
  unfold placeBranch
  split
  · exact hd
  · rw [ht]
    exact hd.emitJump ho (fun _ => ⟨hle, hlt⟩) fun h => absurd rfl h

/-- A search for a place ends there at the latest. -/
theorem Draft.nextReachable?_le {t : Nat} (ht : pc < t)
    (hn : d.nextReachable? s (pc + 1) (some t) = some next) : next ≤ t := by
  obtain ⟨-, -, -, hskip⟩ := Draft.firstFrom?_eq_some.mp hn
  refine Nat.le_of_not_lt fun hlt => ?_
  have := hskip t ht hlt
  simp at this

theorem Follows.reading (hs : s.Within others) {t : Nat} (hd : d.Reading s others (pc + 1))
    (ht : pc < t) (h : Follows s pc t d d' next) : pc < next ∧ d'.Reading s others next := by
  induction h with
  | ret hi hr h => exact h.reading hs (by rw [isReturn_rebase, hr]) hd
  | @branch t i offset d d' next hi hb ho hc h ih =>
    obtain ⟨u, hu, htu, hlt⟩ := hs.orderly.target hi ho
    refine ih (placeBranch_reading hd ?_ hu (by omega) hlt) (by omega)
    rw [offset?_rebase, ho]
    rfl
  | skip hn => exact hd.nextReachable hn
  | @jump t i d next hi hn =>
    obtain ⟨hle, hread⟩ := hd.nextReachable hn
    have hnt := Draft.nextReachable?_le ht hn
    have hlt : t < s.code.size := (Array.getElem?_eq_some_iff.mp hi).1
    exact ⟨hle, hread.emitJump rfl (fun _ => ⟨hnt, hlt⟩) fun h => absurd rfl h⟩

theorem Site.Fits.target (hf : s.Fits pc i) (hs : s.Within others) {offset : Int}
    (ho : i.offset? = some offset) :
    ∃ t, jumpTarget pc offset = some t ∧ pc < t ∧ t < s.code.size := by
  obtain ⟨k, hk, hko⟩ := hf.offset offset ho
  exact hs.orderly.target hk hko

theorem Affects.reading (hs : s.Within others) (hf : s.Fits pc i) (hd : d.Reading s others (pc + 1))
    (h : Affects s i pc d d' next) : pc < next ∧ d'.Reading s others next := by
  cases h with
  | @jump offset t _ _ hi ht h =>
    have ho : i.offset? = some offset := by
      rw [hi]
      rfl
    obtain ⟨u, hu, hlt, -⟩ := hf.target hs ho
    rw [ht, Option.some_inj] at hu
    exact h.reading hs hd (hu ▸ hlt)
  | branch hb ho =>
    obtain ⟨t, ht, hlt, hsize⟩ := hf.target hs ho
    refine ⟨Nat.lt_succ_self pc, placeBranch_reading hd ?_ ht hlt hsize⟩
    exact isBranch_offset? hb
  | ret hr h => exact h.reading hs hr hd
  | other ho hr => exact ⟨Nat.lt_succ_self pc, hd.emit ho hf.not_stop⟩

theorem Rewrites.reading (hs : s.Within others) (hf : s.Fits pc i)
    (hd : d.Reading s others (pc + 1)) (h : Rewrites s i pc d d' next) :
    pc < next ∧ d'.Reading s others next := by
  induction h with
  | dropped h => exact ⟨Nat.lt_succ_self _, hd⟩
  | effect h ha => exact ha.reading hs (hf.simplify h) hd
  | kept h hj =>
    exact ⟨Nat.lt_succ_self _, hd.emit (offset?_of_straight hj) (ne_stop_of_straight hj)⟩
  | into h hj ht hn hfuse hr ih =>
    have hk := Site.fits_of_fuse hn hfuse (by simp) (fuse_keeps hfuse)
    obtain ⟨hlt, hread⟩ := ih hk (hd.not_target ht)
    exact ⟨by omega, hread⟩
  | split h hj ht hn hfuse hr ih =>
    obtain ⟨hfirst, hrest⟩ := fuse_keeps hfuse
    have hk := Site.fits_of_fuse hn hfuse (by simp) hrest
    obtain ⟨hlt, hread⟩ := ih hk
      ((hd.not_target ht).emit (offset?_of_straight hfirst) (ne_stop_of_straight hfirst))
    exact ⟨by omega, hread⟩
  | vanish h hj ht hn hfuse => exact ⟨by omega, hd.not_target ht⟩

theorem Site.fetch?_stop (h : s.fetch? pc = some .stop) : s.code[pc]? = some .stop := by
  obtain ⟨j, hj, hn, -⟩ := Site.fetch?_eq_some h
  have hstraight : isStraight (j.rebase s.base) = false := by
    rw [← isStraight_normalize, hn]
    rfl
  cases j with
  | stop => exact hj
  | arithConst op d x => exact absurd hstraight (by simp [Inst.rebase, isStraight])
  | _ => exact absurd hn (by simp [Inst.rebase, normalize])

/-- An inliner whose copies have no open jumps when they are done, except to the place behind the
call. -/
def Inliner.Keeps (inline : Inliner) (s : Site) (others : Place → Prop) : Prop :=
  ∀ callee shift pc d d', s.fetch? pc = some (.call callee shift) →
    inline callee shift pc d = some (some d') → d.Reading s others (pc + 1) →
    d'.Reading s others (pc + 1)

theorem Walks.reading {inline : Inliner} (hs : s.Within others) (hin : inline.Keeps s others)
    (hd : d.Reading s others pc) (h : Walks inline s pc d d') :
    d'.Reading s others s.code.size := by
  induction h with
  | @stop pc d hi =>
    have := (hs.orderly.stop_iff pc).mp (Site.fetch?_stop hi)
    rw [← this]
    exact hd.arrive
  | keep hi h ih => exact ih (hd.arrive.emit rfl (by simp))
  | copy hi hc h ih => exact ih (hin _ _ _ _ _ hi hc hd.arrive)
  | straight hi hst hr h ih =>
    have hf := Site.fits_of_fetch hi (ne_stop_of_straight hst)
    exact ih (hr.reading hs hf hd.arrive).2
  | effect hi hst ha h ih => exact ih (ha.reading hs (Site.fits_of_fetch hi hst) hd.arrive).2

theorem keepCalls_keeps : keepCalls.Keeps s others := by
  intro callee shift pc d d' _ h
  exact absurd h (by simp [keepCalls])

end

/-! ### The code that a pass writes -/

/-- The copy of a callee that takes the place of the call at `pc`. -/
abbrev Subject.copySite (subject : Subject) (code : Code) (shift pc : Nat) (d : Draft) : Site :=
  ⟨code, subject.liveness code, d.copies + 1, shift, some ⟨0, pc + 1⟩⟩

/-- What the inliner copies in. -/
theorem Subject.inline_eq_some {subject : Subject} {callee shift pc : Nat} {d d' : Draft}
    (h : subject.inline callee shift pc d = some (some d')) :
    ∃ code, subject.calleeCode? callee = some code ∧ code.isEmpty = false ∧
      Walks keepCalls (subject.copySite code shift pc d) 0
        { d with copies := d.copies + 1 } d' := by
  unfold Subject.inline at h
  split at h
  · exact absurd h (by simp)
  · obtain ⟨code, hcode, h⟩ := Option.bind_eq_some_iff.mp h
    split at h
    · exact absurd h (by simp)
    · rename_i he
      obtain ⟨d₁, hd₁, h⟩ := Option.bind_eq_some_iff.mp h
      obtain rfl := Option.some.inj (Option.some.inj h)
      exact ⟨code, hcode, by simpa using he, walk_rules hd₁⟩

/-- The places of a site where an inlined callee may go on. -/
def Site.behind (s : Site) (pc : Nat) (c : Place) : Prop :=
  c.copy = 0 ∧ pc + 1 ≤ c.pc ∧ c.pc < s.code.size

theorem Subject.copySite_within {subject : Subject} {code : Code} {shift pc : Nat} {d : Draft}
    (hc : Orderly code) {callee : FuncId} (hs : Orderly subject.code)
    (hi : subject.site.fetch? pc = some (.call callee shift)) :
    (subject.copySite code shift pc d).Within (subject.site.behind pc) := by
  refine ⟨hc, fun c hcaller => ?_⟩
  obtain rfl := Option.some.inj hcaller
  obtain ⟨j, hj, hn, -⟩ := Site.fetch?_eq_some hi
  refine ⟨(Nat.succ_ne_zero _).symm, rfl, Nat.le_refl _, hs.next_lt hj ?_⟩
  rintro rfl
  exact absurd hn (by simp [Inst.rebase, normalize])

/-- Reading a copy starts with no open jump in it. -/
theorem Draft.Reading.enter {subject : Subject} {code : Code} {shift pc : Nat} {d : Draft}
    (h : d.Reading subject.site (fun _ => False) (pc + 1)) :
    { d with copies := d.copies + 1 }.Reading (subject.copySite code shift pc d)
      (subject.site.behind pc) 0 := by
  refine ⟨⟨h.valid.label_lt, h.valid.nodup, h.valid.isJump, h.valid.forward, h.valid.no_stop⟩, ?_⟩
  intro p hp
  obtain ⟨t, ht, hown, hother⟩ := h.leads p hp
  have h0 : p.copy = 0 := Decidable.of_not_not hother
  refine ⟨t, ht, fun hc => ?_, fun _ => ⟨h0, hown h0⟩⟩
  rw [h0] at hc
  exact absurd hc.symm (Nat.succ_ne_zero _)

/-- No jump in a copy is open when it has been read. -/
theorem Draft.Reading.leave {subject : Subject} {code : Code} {shift pc : Nat} {d d' : Draft}
    (h : d'.Reading (subject.copySite code shift pc d) (subject.site.behind pc) code.size) :
    d'.Reading subject.site (fun _ => False) (pc + 1) ∧ ∀ p ∈ d'.pending, p.copy = 0 := by
  have h0 : ∀ p ∈ d'.pending, p.copy = 0 ∧
      ∃ t, p.target = some t ∧ pc + 1 ≤ t ∧ t < subject.code.size := by
    intro p hp
    obtain ⟨t, ht, hown, hother⟩ := h.leads p hp
    by_cases hc : p.copy = d.copies + 1
    · have := hown hc
      exact absurd this.1 (Nat.not_le.mpr this.2)
    · obtain ⟨hz, hb⟩ := hother hc
      exact ⟨hz, t, ht, hb⟩
  refine ⟨⟨h.valid, fun p hp => ?_⟩, fun p hp => (h0 p hp).1⟩
  obtain ⟨hz, t, ht, hb⟩ := h0 p hp
  exact ⟨t, ht, fun _ => hb, fun hne => hne hz⟩

/-- The callees that a subject can copy in have orderly code. -/
def Subject.CalleesOrderly (subject : Subject) : Prop :=
  ∀ f code, subject.calleeCode? f = some code → code.isEmpty = false → Orderly code

theorem Subject.site_within {subject : Subject} (h : Orderly subject.code) :
    subject.site.Within fun _ => False :=
  ⟨h, fun _ hc => absurd hc (by simp [Subject.site])⟩

theorem Subject.inline_keeps {subject : Subject} (h : Orderly subject.code)
    (hc : subject.CalleesOrderly) : subject.inline.Keeps subject.site fun _ => False := by
  intro callee shift pc d d' hi hin hd
  obtain ⟨code, hcode, hne, hw⟩ := Subject.inline_eq_some hin
  have hwithin := Subject.copySite_within (d := d) (hc callee code hcode hne) h hi
  exact (hw.reading hwithin keepCalls_keeps hd.enter).leave.1

/-- A draft after a site was read to its end has no open jumps. -/
theorem Draft.Reading.pending_nil {s : Site} {d : Draft}
    (h : d.Reading s (fun _ => False) s.code.size) : d.pending = [] := by
  refine List.eq_nil_iff_forall_not_mem.mpr fun p hp => ?_
  obtain ⟨t, -, hown, hother⟩ := h.leads p hp
  by_cases hc : p.copy = s.copy
  · have := hown hc
    exact absurd this.1 (Nat.not_le.mpr this.2)
  · exact hother hc

theorem Draft.empty_reading (s : Site) (others : Place → Prop) : Draft.empty.Reading s others 0 :=
  ⟨Draft.valid_empty, fun _ hp => absurd hp List.not_mem_nil⟩

theorem Draft.Valid.orderly {d : Draft} (h : d.Valid) (hp : d.pending = []) :
    Orderly (d.emit .stop).builder.code := by
  have hsize : (d.emit .stop).builder.code.size = d.size + 1 := Draft.size_emit d .stop
  refine ⟨by rw [hsize]; exact Nat.succ_pos _, fun pc => ?_, fun pc i offset hi ho => ?_⟩
  · rw [Draft.emit_getElem?, hsize]
    by_cases hpc : pc = d.size
    · rw [if_pos hpc, hpc]
      simp
    · rw [if_neg hpc]
      exact ⟨fun hs => absurd hs (h.no_stop pc), fun he => absurd (Nat.succ.inj he) hpc⟩
  · rw [Draft.emit_getElem?] at hi
    by_cases hpc : pc = d.size
    · rw [if_pos hpc, Option.some_inj] at hi
      rw [← hi] at ho
      exact absurd ho (by simp [Inst.offset?])
    · rw [if_neg hpc] at hi
      rcases h.forward pc i offset hi ho with ⟨p, hpm, -⟩ | hf
      · rw [hp] at hpm
        exact absurd hpm List.not_mem_nil
      · rw [hsize]
        omega

/-- A pass writes orderly code. -/
theorem Subject.pass_orderly {subject : Subject} {inline : Inliner} {code : Code}
    (h : Orderly subject.code) (hin : inline.Keeps subject.site fun _ => False)
    (hp : subject.pass inline = some code) : Orderly code := by
  obtain ⟨d, hd, hcode⟩ := Option.bind_eq_some_iff.mp hp
  obtain rfl := Option.some.inj hcode
  have hread := (walk_rules hd).reading (Subject.site_within h) hin (Draft.empty_reading _ _)
  exact hread.valid.orderly hread.pending_nil

end ForkLisp.Optimize
