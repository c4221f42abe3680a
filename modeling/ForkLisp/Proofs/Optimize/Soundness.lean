/-
The optimizer keeps endings.

* `Subject.Suits` fits a meaning to a subject: functions take the arguments that the subject says.
  `Subject.Means` also asks that a call can end in whatever the code of its callee can end in.
* `Suits.pass_refines` is about one pass: the new code has no endings that the old
  code did not have.
* `Means.optimize_refines` is about all rounds.
-/
import ForkLisp.Optimize.Rounds
import ForkLisp.Proofs.Optimize.Copies
import ForkLisp.Proofs.Optimize.Walking

namespace ForkLisp.Optimize

open ForkLisp.Code ForkLisp.Machine ForkLisp.Behaviour

variable {V H W : Type} {m : Meaning V H W}

/-- Code is orderly, and calling a function may end in whatever running the code may end in. -/
structure Implements (m : Meaning V H W) (f : FuncId) (code : Code) : Prop where
  orderly : Orderly code
  call : ∀ args w r, m.arity f = some args.length →
    m.Runs Meaning.done code 0 (Frame.enter args) w r → m.call f args w r

/-- The code `new` is orderly and has only endings of the code `old`. -/
structure Refines (m : Meaning V H W) (new old : Code) : Prop where
  orderly : Orderly new
  ends : ∀ f w o, m.Runs Meaning.done new 0 f w o → m.Runs Meaning.done old 0 f w o

theorem Refines.refl {code : Code} (h : Orderly code) : Refines m code code :=
  ⟨h, fun _ _ _ => id⟩

theorem Refines.trans {a b c : Code} (h : Refines m a b) (h' : Refines m b c) : Refines m a c :=
  ⟨h.orderly, fun f w o hr => h'.ends f w o (h.ends f w o hr)⟩

theorem Refines.implements {new old : Code} {f : FuncId} (h : Refines m new old)
    (hold : Implements m f old) : Implements m f new :=
  ⟨h.orderly, fun args w r hn hr => hold.call args w r hn (h.ends _ w r hr)⟩

namespace Subject

variable {subject : Subject}

/-- A meaning fits the code of a subject. -/
structure Suits (subject : Subject) (m : Meaning V H W) : Prop where
  algebraic : m.Algebraic
  arity : m.arity = subject.arity?
  orderly : Orderly subject.code

/-- A meaning fits a subject. -/
structure Means (subject : Subject) (m : Meaning V H W) : Prop extends subject.Suits m where
  callees : ∀ f code, subject.calleeCode? f = some code → code.isEmpty = false →
    Implements m f code

theorem Means.calleesOrderly (h : subject.Means m) : subject.CalleesOrderly :=
  fun f code hf hne => (h.callees f code hf hne).orderly

theorem Suits.refine (h : subject.Suits m) {code : Code} (hr : Refines m code subject.code) :
    { subject with code }.Suits m :=
  ⟨h.algebraic, h.arity, hr.orderly⟩

theorem Means.refine (h : subject.Means m) {code : Code} (hr : Refines m code subject.code) :
    { subject with code }.Means m := by
  refine ⟨h.toSuits.refine hr, fun f c hf hne => ?_⟩
  by_cases hthis : subject.this = some f
  · have hc : some code = some c := by
      rw [← hf]
      exact (if_pos hthis).symm
    obtain rfl := Option.some.inj hc
    have hold : subject.code.isEmpty = false := by
      have := h.orderly.pos
      simp only [Array.isEmpty, decide_eq_false_iff_not]
      omega
    exact hr.implements (h.callees f subject.code (if_pos hthis) hold)
  · refine h.callees f c ?_ hne
    rw [← hf]
    unfold calleeCode?
    rw [if_neg hthis, if_neg hthis]

/-- What the runs of the code at hand and of a copy come to. -/
def runsOf (m : Meaning V H W) (subject : Subject) (s : Site)
    (ret : V → Frame V H → W → Ending V W → Prop) (copy t : Nat) (f : Frame V H) (w : W)
    (o : Ending V W) : Prop :=
  if copy = 0 then From m Meaning.done subject.site o t f w else From m ret s o t f w

/-- What a return of a copy does whose caller stands at `pc`. -/
def copyReturn (m : Meaning V H W) (subject : Subject) (shift pc : Nat) (v : V) (f : Frame V H)
    (w : W) (o : Ending V W) : Prop :=
  f.Clear (shift - 2) → From m Meaning.done subject.site o (pc + 1) (f.afterCall shift v) w

theorem Suits.site_reads (h : subject.Suits m) : subject.site.Reads m Meaning.done := by
  refine ⟨?_, fun v f f' w o hf hd => Meaning.done_agree v f f' w hf hd⟩
  show Liveness.of? subject.arity? subject.code = _
  rw [← h.arity]
  rfl

theorem Suits.from_mono (h : subject.Suits m) {pc : Nat} {f f' : Frame V H} {w : W} {o : Ending V W}
    (hf : f.Below (fun _ => True) f') (hr : From m Meaning.done subject.site o pc f' w) :
    From m Meaning.done subject.site o pc f w :=
  from_of_below h.site_reads (hf.mono fun _ _ => trivial) hr

theorem Suits.site_serves (h : subject.Suits m)
    {runs : Nat → Nat → Frame V H → W → Ending V W → Prop}
    (hruns : ∀ t f w o, runs 0 t f w o ↔ From m Meaning.done subject.site o t f w) :
    subject.site.Serves m Meaning.done runs where
  reads := h.site_reads
  own := hruns
  root _ := rfl
  back _ hc := absurd hc (by simp [site])
  mono _ hc := absurd hc (by simp [site])

theorem Means.copy_serves (h : subject.Means m) (code : Code) (shift pc : Nat) (d : Draft) :
    (subject.copySite code shift pc d).Serves m (copyReturn m subject shift pc)
      (subject.runsOf m (subject.copySite code shift pc d) (copyReturn m subject shift pc)) where
  reads := by
    refine ⟨?_, fun v f f' w o hf hd hclear => ?_⟩
    · show Liveness.of? subject.arity? code = _
      rw [← h.arity]
    · refine h.from_mono ?_ (hd (hf.clear hclear))
      refine ⟨hf.1, fun r _ u hu => ?_⟩
      unfold Frame.afterCall at hu ⊢
      simp only at hu ⊢
      split
      · rename_i hr
        rwa [if_pos hr] at hu
      · rename_i hr
        rw [if_neg hr] at hu
        split at hu
        · rename_i hlt
          rw [if_pos hlt]
          exact hf.2 r (Nat.lt_of_lt_of_le hlt (Nat.sub_le _ _)) u hu
        · exact absurd hu (by simp)
  own t f w o := by
    unfold runsOf
    rw [if_neg (Nat.succ_ne_zero _)]
  root hc := absurd hc (by simp)
  back c hc v f w o hb := by
    obtain rfl := Option.some.inj hc
    intro hclear
    have := hb hclear
    unfold runsOf at this
    rwa [if_pos rfl] at this
  mono c hc f f' w o hf hr := by
    obtain rfl := Option.some.inj hc
    unfold runsOf at hr ⊢
    rw [if_pos rfl] at hr ⊢
    exact h.from_mono hf hr

/-- A return of a copy with no open handles is a return of the callee. -/
theorem followed_copyReturn (h : subject.Means m) {shift pc : Nat} {g₀ : Frame V H} {o : Ending V W}
    (hc : g₀.Clear (shift - 2)) {v : V} {f g : Frame V H} {w : W} (hfg : Raised shift g₀ f g)
    (hr : copyReturn m subject shift pc v g w o) :
    Followed o (fun v w => From m Meaning.done subject.site o (pc + 1) (g₀.afterCall shift v) w)
      (Meaning.done v f w) := by
  refine Followed.of_imp fun hp => ⟨.value v w, rfl, ?_⟩
  -- the copy left no handle, so that only those of the caller remain
  have hpend : g.pend = g₀.pend := by
    funext r
    by_cases hr : r < shift
    · exact hfg.pend_below r hr
    · obtain ⟨k, rfl⟩ : ∃ k, r = k + shift := ⟨r - shift, by omega⟩
      rw [hfg.pend, hp, hc.1 _ (by omega)]
  have hclear : g.Clear (shift - 2) := by
    unfold Frame.Clear Frame.Unshadowed at *
    rw [hpend]
    exact hc
  refine h.from_mono ?_ (hr hclear)
  refine ⟨hpend, fun r _ u hu => ?_⟩
  unfold Frame.afterCall at hu ⊢
  simp only at hu ⊢
  by_cases hr : r = shift - 2
  · rwa [if_pos hr] at hu ⊢
  · rw [if_neg hr] at hu ⊢
    split at hu
    · rename_i hlt
      rw [if_pos hlt]
      exact hfg.val_below r hlt u hu
    · exact absurd hu (by simp)

theorem Means.inline_sound (h : subject.Means m) (out : Code) :
    subject.inline.Sound subject.site (fun _ => False) m Meaning.done out
      fun _ t f w o => From m Meaning.done subject.site o t f w := by
  intro callee shift pc d d' hi hin hd hset hnext
  obtain ⟨code, hcode, hne, hw⟩ := inline_eq_some hin
  obtain ⟨horderly, hcall⟩ := h.callees callee code hcode hne
  have hwithin := copySite_within (d := d) horderly h.orderly hi
  have hread := hw.reading hwithin keepCalls_keeps hd.enter
  obtain ⟨-, hpend⟩ := hread.leave
  -- the copy has no open jumps left, and had none when it was entered
  have hset' : Settles m out (subject.runsOf m (subject.copySite code shift pc d)
      (copyReturn m subject shift pc)) d' := by
    refine hset.of_runs fun p hp t f w o hr => ?_
    unfold runsOf
    rwa [if_pos (hpend p hp)]
  have hexit : ∀ c, (subject.copySite code shift pc d).caller = some c → ∀ f w o,
      m.Runs Meaning.done out d'.size f w o → subject.runsOf m (subject.copySite code shift pc d)
        (copyReturn m subject shift pc) c.copy c.pc f w o := by
    intro c hc f w o hrun
    obtain rfl := Option.some.inj hc
    unfold runsOf
    rw [if_pos rfl]
    exact hnext f w o hrun
  obtain ⟨hset', harr⟩ := hw.keeps h.algebraic (h.copy_serves code shift pc d) hwithin
    keepCalls_keeps keepCalls_sound hd.enter hset' hexit
  have hback : Settles m out (fun _ t f w o => From m Meaning.done subject.site o t f w)
      { d with copies := d.copies + 1 } := by
    refine hset'.of_runs fun p hp t f w o hr => ?_
    obtain ⟨_, -, -, hother⟩ := hd.leads p hp
    have h0 : p.copy = 0 := Decidable.of_not_not hother
    unfold runsOf at hr
    rwa [if_pos h0] at hr
  refine ⟨⟨hback.fixed, hback.landed⟩, fun f w o hrun args hn hs hargs hclear => ?_⟩
  obtain ⟨r, hr, hinto⟩ := copied_runs hclear
    (fun v f g w hfg hr => followed_copyReturn h hclear hfg hr) (Raised.enter hargs hclear)
    (harr.here f w o hrun)
  exact ⟨r, hcall args w r hn hr, Ending.into_mono (fun _ _ _ hx _ => hx) hinto⟩

/-- The code that a pass writes has only endings of the code that it read. -/
theorem Suits.pass_refines (h : subject.Suits m) {inline : Inliner} {code : Code}
    (hk : inline.Keeps subject.site fun _ => False)
    (hin : ∀ out, inline.Sound subject.site (fun _ => False) m Meaning.done out
      fun _ t f w o => From m Meaning.done subject.site o t f w)
    (hp : subject.pass inline = some code) : Refines m code subject.code := by
  refine ⟨pass_orderly h.orderly hk hp, fun f w o hrun => ?_⟩
  obtain ⟨d, hd, hcode⟩ := Option.bind_eq_some_iff.mp hp
  obtain rfl := Option.some.inj hcode
  have hwithin := site_within h.orderly
  have hpend := ((walk_rules hd).reading hwithin hk (Draft.empty_reading _ _)).pending_nil
  have hset : Settles m (d.emit .stop).builder.code
      (fun _ t f w o => From m Meaning.done subject.site o t f w) d := by
    refine ⟨fun n hn _ => ?_, fun p hp => ?_⟩
    · rw [Draft.emit_getElem?, if_neg (Nat.ne_of_lt hn)]
    · rw [hpend] at hp
      exact absurd hp List.not_mem_nil
  obtain ⟨-, harr⟩ := (walk_rules hd).keeps h.algebraic (h.site_serves fun _ _ _ _ => Iff.rfl)
    hwithin hk (hin _) (Draft.empty_reading _ _) hset fun _ hc => absurd hc (by simp [site])
  have := harr.here f w o hrun
  unfold From at this
  rwa [show raise subject.site.base subject.site.code = subject.code from raise_zero _] at this

theorem Suits.cleanup_refines (h : subject.Suits m) {code : Code}
    (hp : subject.cleanup = some code) : Refines m code subject.code :=
  h.pass_refines keepCalls_keeps (fun _ => keepCalls_sound) hp

theorem Means.expand_refines (h : subject.Means m) {code : Code}
    (hp : subject.expand = some code) : Refines m code subject.code :=
  h.pass_refines (inline_keeps h.orderly h.calleesOrderly) h.inline_sound hp

theorem Suits.cleanupRounds_refines (h : subject.Suits m) {n : Nat} {code : Code}
    (hp : subject.cleanupRounds n = some code) : Refines m code subject.code := by
  induction n generalizing subject with
  | zero =>
    obtain rfl := Option.some.inj hp
    exact Refines.refl h.orderly
  | succ n ih =>
    obtain ⟨c, hc, hp⟩ := Option.bind_eq_some_iff.mp hp
    have hr := h.cleanup_refines hc
    exact (ih (h.refine hr) hp).trans hr

theorem Means.expandRounds_refines (h : subject.Means m) {n : Nat} {code : Code}
    (hp : subject.expandRounds n = some code) : Refines m code subject.code := by
  induction n generalizing subject with
  | zero =>
    obtain rfl := Option.some.inj hp
    exact Refines.refl h.orderly
  | succ n ih =>
    unfold expandRounds at hp
    split at hp
    · obtain rfl := Option.some.inj hp
      exact Refines.refl h.orderly
    · obtain ⟨c, hc, hp⟩ := Option.bind_eq_some_iff.mp hp
      have hr := h.expand_refines hc
      exact (ih (h.refine hr) hp).trans hr

/-- Optimized code has only endings of the code that was optimized. -/
theorem Means.optimize_refines (h : subject.Means m) {code : Code}
    (hp : subject.optimize = some code) : Refines m code subject.code := by
  obtain ⟨a, ha, hp⟩ := Option.bind_eq_some_iff.mp hp
  obtain ⟨b, hb, hp⟩ := Option.bind_eq_some_iff.mp hp
  have hra := h.cleanupRounds_refines ha
  have hrb := (h.refine hra).expandRounds_refines hb
  have hrc := ((h.refine hra).refine hrb).cleanupRounds_refines hp
  exact hrc.trans (hrb.trans hra)

end Subject

end ForkLisp.Optimize
