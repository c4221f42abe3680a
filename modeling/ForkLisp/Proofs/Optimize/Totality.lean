/-
Passes come to an end.

Each step of a pass over orderly code leads to a place further on that still lies in the code
(`Ahead`): control does not run past the end, and all jumps that are followed stay in the code. So
the size of the code is fuel enough (`peephole_ahead`, `walk_total`). Nothing else can be missing
but callees: a pass has a result if all functions that the code refers to exist
(`Subject.pass_total`), and so has a pass that copies callees in if the same holds of their code
(`Subject.inline_total`).
-/
import ForkLisp.Proofs.Compile.Callees

namespace ForkLisp.Optimize

open ForkLisp.Code ForkLisp.Behaviour

/-! ### What can be told -/

/-- What is live can be told if every function that the code refers to has an arity. -/
theorem Liveness.of?_total {arity? : FuncId → Option Nat} {code : ForkLisp.Code}
    (h : RefersWithin (fun id => (arity? id).isSome = true) code) :
    (Liveness.of? arity? code).isSome = true := by
  unfold Liveness.of?
  rw [if_pos]
  · rfl
  · refine Array.all_eq_true'.mpr fun i hi => ?_
    obtain ⟨n, hn⟩ := Array.mem_iff_getElem?.mp hi
    cases hid : i.callee? with
    | none => rfl
    | some id => exact refersWithin_iff.mp h n i id hn hid

section

variable {s : Site} {d : Draft} {pc : Nat} {i next : Inst}

theorem Site.deadAfter_total (hl : s.live.isSome = true) (pc : Nat) (r : Reg) :
    ∃ dead, s.deadAfter pc r = some dead := by
  unfold Site.deadAfter
  split
  · exact ⟨_, rfl⟩
  · obtain ⟨live, hlive⟩ := Option.isSome_iff_exists.mp hl
    rw [hlive]
    exact ⟨_, rfl⟩

theorem simplify_total (hl : s.live.isSome = true) (i : Inst) (pc : Nat) :
    ∃ r, simplify s i pc = some r := by
  unfold simplify
  split
  · exact ⟨_, rfl⟩
  · split
    · obtain ⟨dead, hdead⟩ := Site.deadAfter_total hl pc _
      rw [hdead]
      exact ⟨_, rfl⟩
    · exact ⟨_, rfl⟩

theorem whenDead_total {dead : Reg → Option Bool} (hd : ∀ r, ∃ b, dead r = some b) (a : Reg)
    (f : Fusion) : ∃ y, whenDead dead a f = some y := by
  obtain ⟨b, hb⟩ := hd a
  exact ⟨_, congrArg (Option.map _) hb⟩

/-- What becomes of two neighbours can be told where it can be told what is dead. -/
theorem fuse_total {dead : Reg → Option Bool} (hd : ∀ r, ∃ b, dead r = some b) (i next : Inst) :
    ∃ y, fuse dead i next = some y := by
  have htest : ∀ a x, ∃ y, fuseTest dead a x next = some y := by
    intro a x
    unfold fuseTest
    split <;> (try split) <;> first | exact whenDead_total hd _ _ | exact ⟨_, rfl⟩
  unfold fuse
  split
  · split
    · exact htest _ _
    · unfold fuseConst
      split <;> (repeat' split) <;> first | exact whenDead_total hd _ _ | exact ⟨_, rfl⟩
  · split
    · split
      · exact whenDead_total hd _ _
      · exact ⟨_, rfl⟩
    · exact htest _ _
  · unfold fuseMove
    split <;> (try split) <;> first | exact whenDead_total hd _ _ | exact ⟨_, rfl⟩
  · repeat' split
    all_goals exact ⟨_, rfl⟩
  · exact ⟨_, rfl⟩

end

/-! ### Steps -/

/-- A step of a pass has a result, and it leads to a place further on in the code. -/
def Ahead (s : Site) (pc : Nat) (a : Advance) : Prop :=
  ∃ d next, a = some (d, next) ∧ pc < next ∧ next < s.code.size

/-- Where one of the numbers has a property, a first one is found. -/
theorem firstFrom?_total {p : Nat → Bool} (count start n : Nat) (hle : start ≤ n)
    (hlt : n < start + count) (hn : p n = true) :
    ∃ m, Draft.firstFrom? p count start = some m ∧ start ≤ m ∧ m ≤ n := by
  induction count generalizing start with
  | zero => omega
  | succ count ih =>
    unfold Draft.firstFrom?
    by_cases hs : p start = true
    · rw [if_pos hs]
      exact ⟨start, rfl, Nat.le_refl _, hle⟩
    · have hne : start ≠ n := fun he => hs (he ▸ hn)
      rw [if_neg hs]
      obtain ⟨m, hm, hle', hmn⟩ := ih (start + 1) (by omega) (by omega)
      exact ⟨m, hm, by omega, hmn⟩

section

variable {s : Site} {pc : Nat} {i next : Inst}

/-- A place where control can come from elsewhere is found, since the end is one. -/
theorem nextReachable?_total (hs : Orderly s.code) (d : Draft) (stop : Option Nat) {start : Nat}
    (h : start < s.code.size) :
    ∃ next, d.nextReachable? s start stop = some next ∧ start ≤ next ∧ next < s.code.size := by
  have hpos := hs.pos
  have hend : s.code[s.code.size - 1]? = some .stop := (hs.stop_iff _).mpr (by omega)
  obtain ⟨next, hnext, hle, hlast⟩ := firstFrom?_total (s.code.size - start) start (s.code.size - 1)
    (p := fun pc => s.code[pc]? == some .stop || some pc == stop || d.isTarget s.copy pc)
    (by omega) (by omega) (by simp [hend])
  exact ⟨next, hnext, hle, by omega⟩

/-- A step that goes on at the place that a search finds. -/
theorem ahead_of_search (hs : Orderly s.code) (d : Draft) (stop : Option Nat)
    (hpc : pc + 1 < s.code.size) {go : Nat → Advance} (hgo : ∀ n, ∃ d', go n = some (d', n)) :
    Ahead s pc ((d.nextReachable? s (pc + 1) stop).bind go) := by
  obtain ⟨next, hnext, hle, hlt⟩ := nextReachable?_total hs d stop hpc
  obtain ⟨d', hd'⟩ := hgo next
  rw [hnext, Option.bind_some, hd']
  exact ⟨d', next, rfl, hle, hlt⟩

theorem placeReturn_ahead (hs : Orderly s.code) (i : Inst) (d : Draft)
    (hpc : pc + 1 < s.code.size) :
    Ahead s pc (placeReturn s i pc d) := by
  unfold placeReturn
  split
  · exact ahead_of_search hs _ none hpc fun n => ⟨_, rfl⟩
  · refine ahead_of_search hs _ none hpc fun n => ?_
    split <;> exact ⟨_, rfl⟩

theorem skipTo_ahead (hs : Orderly s.code) (t : Nat) (d : Draft) (hpc : pc + 1 < s.code.size) :
    Ahead s pc (placeJump.skipTo s pc t d) := by
  refine ahead_of_search hs d (some t) hpc fun n => ?_
  split <;> exact ⟨_, rfl⟩

/-- Each branch that is made first stands before the next one, so that a jump is
written in the end. -/
theorem placeJump_ahead (hs : Orderly s.code) (hpc : pc + 1 < s.code.size) {fuel t : Nat}
    (d : Draft) (ht : t < s.code.size) (hf : s.code.size - t ≤ fuel) :
    Ahead s pc (placeJump s pc fuel (some t) d) := by
  induction fuel generalizing t d with
  | zero => omega
  | succ fuel ih =>
    have hi : s.code[t]? = some s.code[t] := Array.getElem?_eq_getElem ht
    unfold placeJump
    dsimp only [bind, Option.bind]
    rw [hi]
    dsimp only
    split
    · exact placeReturn_ahead hs _ d hpc
    · split
      · rename_i offset ho
        split
        · have hstop : s.code[t] ≠ .stop := by
            intro hstop
            rw [hstop] at ho
            cases ho
          exact ih _ (hs.next_lt hi hstop) (by omega)
        · exact skipTo_ahead hs t d hpc
      · exact skipTo_ahead hs t d hpc

theorem placeEffect_ahead (hs : Orderly s.code) (hf : s.Fits pc i) (hpc : pc + 1 < s.code.size)
    (d : Draft) : Ahead s pc (placeEffect s i pc d) := by
  cases i with
  | jump offset =>
    obtain ⟨k, hk, ho⟩ := hf.offset offset rfl
    obtain ⟨t, ht, -, hlt⟩ := hs.target hk ho
    show Ahead s pc (placeJump s pc (s.code.size + 1) (jumpTarget pc offset) d)
    rw [ht]
    exact placeJump_ahead hs hpc d hlt (by omega)
  | ret | retConst => exact placeReturn_ahead hs _ d hpc
  | _ => exact ⟨_, pc + 1, rfl, Nat.lt_succ_self pc, hpc⟩

/-- What is fused with an instruction is not the end, so that another instruction
stands behind it. -/
theorem next_lt_of_fuse (hs : Orderly s.code) {dead : Reg → Option Bool} {y : Fusion}
    (hn : s.fetch? pc = some next) (hf : fuse dead i next = some y) (hy : y ≠ .apart) :
    pc + 1 < s.code.size := by
  obtain ⟨k, hk, hnext, -⟩ := Site.fetch?_eq_some hn
  refine hs.next_lt hk ?_
  rintro rfl
  obtain rfl : Inst.stop = next := hnext
  exact hy (fuse_stop hf)

/-- An instruction that is held is written, alone or fused with some of those behind it. -/
theorem peephole_ahead (hs : Orderly s.code) (hl : s.live.isSome = true) {fuel : Nat} (d : Draft)
    (hf : s.Fits pc i) (hpc : pc + 1 < s.code.size) (hfuel : s.code.size - pc ≤ fuel) :
    Ahead s pc (peephole s fuel i pc d) := by
  induction fuel generalizing i pc d with
  | zero => omega
  | succ fuel ih =>
    obtain ⟨r, hr⟩ := simplify_total hl i pc
    unfold peephole
    rw [hr]
    dsimp only [bind, Option.bind, pure]
    cases r with
    | none => exact ⟨_, _, rfl, Nat.lt_succ_self pc, hpc⟩
    | some j =>
      dsimp only
      split
      · exact placeEffect_ahead hs (hf.simplify hr) hpc d
      · split
        · exact ⟨_, _, rfl, Nat.lt_succ_self pc, hpc⟩
        · have hnext : s.fetch? (pc + 1) = some (normalize (s.code[pc + 1].rebase s.base)) := by
            unfold Site.fetch?
            rw [Array.getElem?_eq_getElem hpc]
            rfl
          obtain ⟨y, hy⟩ := fuse_total (Site.deadAfter_total hl (pc + 1)) j
            (normalize (s.code[pc + 1].rebase s.base))
          rw [hnext]
          dsimp only
          rw [hy]
          -- a place ahead of the second instruction is ahead of the first
          have hmore : ∀ a, Ahead s (pc + 1) a → Ahead s pc a := by
            rintro a ⟨d', n, ha, hlt, hn⟩
            exact ⟨d', n, ha, by omega, hn⟩
          cases y with
          | into k =>
            have hk := Site.fits_of_fuse hnext hy (by simp) (fuse_keeps hy)
            exact hmore _ (ih d hk (next_lt_of_fuse hs hnext hy (by simp)) (by omega))
          | split k l =>
            have hl' := Site.fits_of_fuse hnext hy (by simp) (fuse_keeps hy).2
            exact hmore _ (ih _ hl' (next_lt_of_fuse hs hnext hy (by simp)) (by omega))
          | vanish =>
            exact ⟨_, _, rfl, by omega, next_lt_of_fuse hs hnext hy (by simp)⟩
          | apart => exact ⟨_, _, rfl, Nat.lt_succ_self pc, hpc⟩

theorem place_ahead (hs : Orderly s.code) (hl : s.live.isSome = true) (d : Draft) (hf : s.Fits pc i)
    (hpc : pc + 1 < s.code.size) : Ahead s pc (place s i pc d) := by
  unfold place
  split
  · exact peephole_ahead hs hl d hf hpc (by omega)
  · exact placeEffect_ahead hs hf hpc d

/-! ### Whole passes -/

/-- An inliner says what becomes of each call in a site. -/
def Inliner.Total (inline : Inliner) (s : Site) : Prop :=
  ∀ callee shift pc d, s.fetch? pc = some (.call callee shift) →
    ∃ r, inline callee shift pc d = some r

theorem keepCalls_total (s : Site) : keepCalls.Total s :=
  fun _ _ _ _ _ => ⟨_, rfl⟩

/-- Code is read to its end. -/
theorem walk_total {inline : Inliner} (hs : Orderly s.code) (hl : s.live.isSome = true)
    (hin : inline.Total s) (fuel : Nat) (d : Draft) (hpc : pc < s.code.size)
    (hfuel : s.code.size - pc ≤ fuel) : ∃ d', walk inline s fuel pc d = some d' := by
  induction fuel generalizing pc d with
  | zero => omega
  | succ fuel ih =>
    have hk : s.code[pc]? = some s.code[pc] := Array.getElem?_eq_getElem hpc
    have hi : s.fetch? pc = some (normalize (s.code[pc].rebase s.base)) := by
      unfold Site.fetch?
      rw [hk]
      rfl
    generalize normalize (s.code[pc].rebase s.base) = i at hi
    -- another instruction stands behind one that is not the end
    have hnext : i ≠ .stop → pc + 1 < s.code.size := by
      intro hstop
      refine hs.next_lt hk fun he => hstop ?_
      obtain ⟨j, hj, hji, -⟩ := Site.fetch?_eq_some hi
      rw [hk, Option.some_inj] at hj
      rw [← hji, ← hj, he]
      rfl
    unfold walk
    dsimp only [bind, Option.bind]
    rw [hi]
    dsimp only
    split
    · exact ⟨_, rfl⟩
    · obtain ⟨r, hr⟩ := hin _ _ pc (d.arrive s.copy pc) hi
      rw [hr]
      have := hnext (by simp)
      cases r with
      | some d₁ => exact ih _ this (by omega)
      | none => exact ih _ this (by omega)
    · rename_i hstop _
      obtain ⟨d₁, n, hplace, hlt, hn⟩ :=
        place_ahead hs hl (d.arrive s.copy pc) (Site.fits_of_fetch hi hstop) (hnext hstop)
      rw [hplace]
      exact ih _ hn (by omega)

end

namespace Subject

variable {subject : Subject} {code : ForkLisp.Code}

/-- A function exists. -/
def Defines (subject : Subject) (id : FuncId) : Prop :=
  (subject.context.function? id).isSome = true

/-- What is live can be told in code that refers to functions that exist. -/
theorem liveness_total (h : RefersWithin subject.Defines code) :
    (subject.liveness code).isSome = true :=
  Liveness.of?_total fun id hid => Option.isSome_map.trans (h id hid)

/-- A pass has a result if all functions that the code refers to exist. -/
theorem pass_total {inline : Inliner} (hs : Orderly subject.code)
    (hknown : RefersWithin subject.Defines subject.code) (hin : inline.Total subject.site) :
    ∃ code, subject.pass inline = some code := by
  obtain ⟨d, hd⟩ := walk_total (s := subject.site) hs
    (liveness_total hknown) hin (subject.code.size + 1) .empty hs.pos (Nat.le_succ _)
  exact ⟨(d.emit .stop).builder.code, Option.bind_eq_some_iff.mpr ⟨d, hd, rfl⟩⟩

/-- A call is copied in or stays, if all functions that the callee refers to exist, too. -/
theorem inline_total (hc : subject.CalleesOrderly)
    (hknown : RefersWithin subject.Defines subject.code)
    (hcopies : subject.CopiesWithin subject.Defines) : subject.inline.Total subject.site := by
  intro callee shift pc d hi
  have hcallee : subject.Defines callee :=
    (Site.grants_refers (s := subject.site) hknown).fetch _ _ hi callee rfl
  obtain ⟨code, hcode⟩ : ∃ code, subject.calleeCode? callee = some code := by
    unfold calleeCode?
    split
    · exact ⟨_, rfl⟩
    · obtain ⟨f, hf⟩ := Option.isSome_iff_exists.mp hcallee
      exact ⟨f.code, congrArg (Option.map (·.code)) hf⟩
  have hrefers := refers_calleeCode hknown hcopies hcallee hcode
  unfold inline
  split
  · exact ⟨_, rfl⟩
  · rw [hcode]
    dsimp only [bind, Option.bind, pure]
    split
    · exact ⟨_, rfl⟩
    · rename_i hne
      have horderly := hc callee code hcode (by simpa using hne)
      obtain ⟨d', hd'⟩ := walk_total (s := subject.copySite code shift pc d) horderly
        (liveness_total hrefers) (keepCalls_total _) (code.size + 1)
          { d with copies := d.copies + 1 }
        horderly.pos (Nat.le_succ _)
      exact ⟨some d', congrArg (Option.bind · fun d => some (some d)) hd'⟩

end Subject

end ForkLisp.Optimize
