/-
Running the code of terms.

The code of a term stands somewhere in some code. Running it from a frame whose parameters are in
place and that holds no handles from register `r` on comes to what the term can come to, and then
goes on behind it with the value in `r` (`Term.runs`). What lies below `r` is left alone, and
nothing is said of what lies above. A body that starts with its arguments ends as it can
(`bodyCode_runs`).
-/
import ForkLisp.Proofs.Behaviour.Agreement
import ForkLisp.Proofs.Terms.Term

namespace ForkLisp.Terms

open ForkLisp.Code ForkLisp.Machine ForkLisp.Behaviour

/-! ### Code in its place -/

/-- Some instructions stand in code from a place on. -/
def At (code : ForkLisp.Code) (pos : Nat) (is : List Inst) : Prop :=
  ∀ k, k < is.length → code[pos + k]? = is[k]?

section

variable {code : ForkLisp.Code} {pos : Nat} {i : Inst} {is js : List Inst}

theorem At.append (h : At code pos (is ++ js)) : At code pos is ∧ At code (pos + is.length) js := by
  refine ⟨fun k hk => ?_, fun k hk => ?_⟩
  · rw [h k (by rw [List.length_append]; omega), List.getElem?_append_left hk]
  · rw [Nat.add_assoc, h _ (by rw [List.length_append]; omega),
      List.getElem?_append_right (Nat.le_add_right _ _), Nat.add_sub_cancel_left]

theorem At.cons (h : At code pos (i :: is)) : code[pos]? = some i ∧ At code (pos + 1) is := by
  refine ⟨h 0 (Nat.succ_pos _), fun k hk => ?_⟩
  rw [show pos + 1 + k = pos + (k + 1) by omega, h (k + 1) (Nat.succ_lt_succ hk)]
  rfl

end

/-! ### Frames on the way -/

variable {V H W : Type}

/-- A frame holds the parameters below `r`, and no handles from `r` on. -/
structure Ready (args : List V) (r : Nat) (f : Frame V H) : Prop where
  params : ∀ i v, args[i]? = some v → f.val i = some v
  le : args.length ≤ r
  clear : f.Clear r

/-- A frame has at least the values of another one below `r`, and the same handles there. -/
structure Extends (f : Frame V H) (r : Nat) (g : Frame V H) : Prop where
  val : ∀ s, s < r → ∀ v, f.val s = some v → g.val s = some v
  pend : ∀ s, s < r → g.pend s = f.pend s

/-- What operands have come to lies in a frame from `r` on, and there are no other handles there. -/
def Laid (g : Frame V H) : List Term → Nat → List (V ⊕ H) → Prop
  | [], r, [] => ∀ s, r ≤ s → g.pend s = none
  | t :: ts, r, .inl v :: is =>
    t.isTask = false ∧ g.val r = some v ∧ g.pend r = none ∧ Laid g ts (r + 1) is
  | t :: ts, r, .inr h :: is =>
    t.isTask = true ∧ g.pend r = some h ∧ g.pend (r + 1) = none ∧ Laid g ts (r + 2) is
  | _, _, _ => False

/-- The values of operands lie in a frame from `r` on, and there are no handles there. -/
def Settled (g : Frame V H) : List Term → Nat → List V → Prop
  | [], r, [] => ∀ s, r ≤ s → g.pend s = none
  | t :: ts, r, v :: vs =>
    g.val r = some v ∧ g.pend r = none ∧ g.pend (r + 1) = none ∧ Settled g ts (r + t.width) vs
  | _, _, _ => False

section

variable {r : Nat} {args : List V} {f g : Frame V H}

theorem Ready.mono (h : Ready args r f) {r' : Nat} (hr : r ≤ r') : Ready args r' f :=
  ⟨h.params, Nat.le_trans h.le hr, h.clear.mono hr⟩

theorem Extends.refl (f : Frame V H) (r : Nat) : Extends f r f :=
  ⟨fun _ _ _ h => h, fun _ _ => rfl⟩

theorem Extends.trans {k : Frame V H} {r' : Nat} (h : Extends f r g) (h' : Extends g r' k)
    (hr : r ≤ r') : Extends f r k :=
  ⟨fun s hs v hv => h'.val s (by omega) v (h.val s hs v hv),
    fun s hs => (h'.pend s (by omega)).trans (h.pend s hs)⟩

theorem Extends.extend (f : Frame V H) (r : Nat) (vs : List V) : Extends f r (f.extend r vs) :=
  ⟨fun s hs v hv => by rw [f.val_extend_of_lt vs hs, hv], fun _ _ => rfl⟩

theorem Extends.afterSpawn (f : Frame V H) (r : Nat) (x : H) :
    Extends f r (f.afterSpawn (r + 3) x) := by
  refine ⟨fun s hs v hv => ?_, fun s hs => ?_⟩
  · show (if s < r + 3 - 3 then f.val s else none) = some v
    rw [if_pos (by omega), hv]
  · show (if s = r + 3 - 3 then some x else f.pend s) = f.pend s
    rw [if_neg (by omega)]

theorem Extends.set (f : Frame V H) (r : Nat) (v : V) : Extends f r (f.set r v) :=
  ⟨fun s hs u hu => by rw [Frame.val_set_of_ne _ _ (by omega), hu], fun _ _ => rfl⟩

theorem Extends.afterJoin (f : Frame V H) (r : Nat) (v : V) : Extends f r (f.afterJoin r v) := by
  refine ⟨fun s hs u hu => ?_, fun s hs => ?_⟩
  · show (if s = r then some v else f.val s) = some u
    rw [if_neg (by omega), hu]
  · show (if s = r then none else f.pend s) = f.pend s
    rw [if_neg (by omega)]

theorem Extends.unshadowed (h : Extends f r g) (hf : f.Unshadowed r) : g.Unshadowed r := by
  intro s hs
  rw [h.pend s (by omega)]
  exact hf s hs

theorem Extends.ready (h : Extends f r g) (hf : Ready args r f) {r' : Nat} (hr : r ≤ r')
    (hg : g.Clear r') : Ready args r' g := by
  have hle := hf.le
  refine ⟨fun i v hv => ?_, by omega, hg⟩
  have := (List.getElem?_eq_some_iff.mp hv).1
  exact h.val i (by omega) v (hf.params i v hv)

theorem Ready.extend (h : Ready args r f) (vs : List V) : Ready args r (f.extend r vs) :=
  (Extends.extend f r vs).ready h (Nat.le_refl r) h.clear

theorem clear_afterSpawn (h : f.Clear r) (x : H) : (f.afterSpawn (r + 3) x).Clear (r + 2) := by
  refine ⟨fun s hs => ?_, fun s hs => ?_⟩
  · show (if s = r + 3 - 3 then some x else f.pend s) = none
    rw [if_neg (by omega)]
    exact h.1 s (by omega)
  · show (if s = r + 3 - 3 then some x else f.pend s) = none
    rw [if_neg (by omega)]
    exact h.1 s (by omega)

/-- A frame that has the value of a term in its place tells more than needs to be known. -/
theorem Extends.below (h : Extends f r g) (hf : f.Clear r) (hg : ∀ s, r ≤ s → g.pend s = none)
    {v : V} (hv : g.val r = some v) : (f.extend r [v]).Below (fun _ => True) g := by
  refine ⟨?_, fun s _ u hu => ?_⟩
  · funext s
    by_cases hs : s < r
    · exact h.pend s hs
    · exact (hg s (by omega)).trans (hf.1 s (by omega)).symm
  · have hval : (if s < r then f.val s else [v][s - r]?) = some u := hu
    by_cases hs : s < r
    · rw [if_pos hs] at hval
      exact h.val s hs u hval
    · rw [if_neg hs] at hval
      have := (List.getElem?_eq_some_iff.mp hval).1
      obtain rfl : s = r := by
        simp only [List.length_singleton] at this
        omega
      rw [Nat.sub_self] at hval
      rw [hv, ← hval]
      rfl

theorem Settled.pend {ts : List Term} {vs : List V} (h : Settled g ts r vs) :
    ∀ s, r ≤ s → g.pend s = none := by
  induction ts generalizing r vs with
  | nil =>
    cases vs with
    | nil => exact h
    | cons v vs => exact h.elim
  | cons t ts ih =>
    cases vs with
    | nil => exact h.elim
    | cons v vs =>
      obtain ⟨-, h0, h1, hrest⟩ := h
      intro s hs
      by_cases hw : r + t.width ≤ s
      · exact ih hrest s hw
      · have hwidth : t.width ≤ 2 := by
          unfold Term.width
          split <;> omega
        obtain rfl | rfl : s = r ∨ s = r + 1 := by omega
        · exact h0
        · exact h1

/-- A frame that agrees with another one from `r` on holds the same there. -/
theorem Settled.congr {ts : List Term} {vs : List V} {k : Frame V H} (h : Settled g ts r vs)
    (hv : ∀ s, r ≤ s → k.val s = g.val s) (hp : ∀ s, r ≤ s → k.pend s = g.pend s) :
    Settled k ts r vs := by
  induction ts generalizing r vs with
  | nil =>
    cases vs with
    | nil => exact fun s hs => (hp s hs).trans (h s hs)
    | cons v vs => exact h.elim
  | cons t ts ih =>
    cases vs with
    | nil => exact h.elim
    | cons v vs =>
      obtain ⟨h0, h1, h2, hrest⟩ := h
      refine ⟨(hv r (Nat.le_refl r)).trans h0, (hp r (Nat.le_refl r)).trans h1,
        (hp _ (Nat.le_succ r)).trans h2, ?_⟩
      exact ih hrest (fun s hs => hv s (by omega)) fun s hs => hp s (by omega)

theorem Laid.congr {ts : List Term} {is : List (V ⊕ H)} {k : Frame V H} (h : Laid g ts r is)
    (hv : ∀ s, r ≤ s → k.val s = g.val s) (hp : ∀ s, r ≤ s → k.pend s = g.pend s) :
    Laid k ts r is := by
  induction ts generalizing r is with
  | nil =>
    cases is with
    | nil => exact fun s hs => (hp s hs).trans (h s hs)
    | cons i is => exact h.elim
  | cons t ts ih =>
    cases is with
    | nil => exact h.elim
    | cons i is =>
      cases i with
      | inl v =>
        obtain ⟨ht, h0, h1, hrest⟩ := h
        refine ⟨ht, (hv r (Nat.le_refl r)).trans h0, (hp r (Nat.le_refl r)).trans h1, ?_⟩
        exact ih hrest (fun s hs => hv s (by omega)) fun s hs => hp s (by omega)
      | inr x =>
        obtain ⟨ht, h0, h1, hrest⟩ := h
        refine ⟨ht, (hp r (Nat.le_refl r)).trans h0, (hp _ (Nat.le_succ r)).trans h1, ?_⟩
        exact ih hrest (fun s hs => hv s (by omega)) fun s hs => hp s (by omega)

end

theorem Extends.weaken {r : Nat} {f g : Frame V H} {r' : Nat} (h : Extends f r' g) (hr : r ≤ r') :
    Extends f r g :=
  ⟨fun s hs => h.val s (by omega), fun s hs => h.pend s (by omega)⟩

/-! ### Operands -/

section

variable {m : Meaning V H W} {code : ForkLisp.Code} {o : Ending V W}

/-- Waiting for the tasks among operands leaves their values in place of the handles. -/
theorem joinCode_runs {ts : List Term} {is : List (V ⊕ H)} {r pos : Nat} {g : Frame V H} {w : W}
    (h : Laid g ts r is) (hu : g.Unshadowed r) (hat : At code pos (joinCode ts r))
    (hrun : m.Runs Meaning.done code pos g w o) :
    Followed o (fun vs w => ∃ g', Extends g r g' ∧ Settled g' ts r vs ∧
      m.Runs Meaning.done code (pos + (joinCode ts r).length) g' w o) (joinAll m is w) := by
  induction ts generalizing r is pos g w with
  | nil =>
    cases is with
    | nil => exact .of_value rfl ⟨g, Extends.refl g r, h, hrun⟩
    | cons i is => exact h.elim
  | cons t ts ih =>
    cases is with
    | nil => exact h.elim
    | cons i is =>
      cases i with
      | inl v =>
        obtain ⟨ht, hv, hp, hrest⟩ := h
        have hw : t.width = 1 := by simp [Term.width, ht]
        have hcode : joinCode (t :: ts) r = joinCode ts (r + 1) := by simp [joinCode, ht, hw]
        rw [hcode] at hat ⊢
        have hu' : g.Unshadowed (r + 1) := by
          intro s hs
          obtain rfl : s = r := by omega
          exact hp
        refine Followed.andThen ((ih hrest hu' hat hrun).before fun vs w hg => ?_)
        obtain ⟨g', hext, hset, hrun⟩ := hg
        refine .of_value rfl ⟨g', hext.weaken (Nat.le_succ r), ⟨?_, ?_, ?_, ?_⟩, hrun⟩
        · exact hext.val r (Nat.lt_succ_self r) v hv
        · rw [hext.pend r (Nat.lt_succ_self r), hp]
        · exact hset.pend _ (Nat.le_refl _)
        · rw [hw]
          exact hset
      | inr x =>
        obtain ⟨ht, hx, hp, hrest⟩ := h
        have hw : t.width = 2 := by simp [Term.width, ht]
        have hcode : joinCode (t :: ts) r = .join r :: joinCode ts (r + 2) := by
          simp [joinCode, ht, hw]
        rw [hcode] at hat ⊢
        obtain ⟨hi, hat⟩ := hat.cons
        obtain ⟨e, he, hk⟩ := (Meaning.runs_iff hi).mp hrun x hx hu
        refine Followed.andThen ⟨e, he, Ending.into_mono (fun v w' _ hgo => ?_) hk⟩
        have hrun := hgo (Nat.lt_succ_self pos)
        -- joining changes the register of the handle only
        have hval : ∀ s, r + 2 ≤ s → (g.afterJoin r v).val s = g.val s := fun s hs =>
          if_neg (by omega)
        have hpend : ∀ s, r + 1 ≤ s → (g.afterJoin r v).pend s = g.pend s := fun s hs =>
          if_neg (by omega)
        have hu' : (g.afterJoin r v).Unshadowed (r + 2) := by
          intro s hs
          obtain rfl : s = r + 1 := by omega
          rw [hpend _ (Nat.le_refl _), hp]
        refine Followed.andThen ((ih (hrest.congr hval fun s hs => hpend s (by omega)) hu' hat
          hrun).before fun vs w hg => ?_)
        obtain ⟨g', hext, hset, hrun⟩ := hg
        refine .of_value rfl ⟨g', ?_, ⟨?_, ?_, ?_, ?_⟩, ?_⟩
        · exact (Extends.afterJoin g r v).trans (hext.weaken (Nat.le_add_right r 2)) (Nat.le_refl r)
        · exact hext.val r (by omega) v (if_pos rfl)
        · rw [hext.pend r (by omega)]
          exact if_pos rfl
        · rw [hext.pend (r + 1) (by omega), hpend _ (Nat.le_refl _), hp]
        · rw [hw]
          exact hset
        · rw [List.length_cons, Nat.add_comm _ 1, ← Nat.add_assoc]
          exact hrun

/-- Combining operands changes the register of the first one only. -/
theorem foldCode_runs {op : ArithOp} {ts : List Term} {vs : List V} {d r pos : Nat} {u : V}
    {g : Frame V H} {w : W} (hd : d < r) (hu : g.val d = some u) (hfree : g.Free d)
    (h : Settled g ts r vs) (hat : At code pos (foldCode op d ts r))
    (hrun : m.Runs Meaning.done code pos g w o) :
    Followed o (fun x w =>
      m.Runs Meaning.done code (pos + (foldCode op d ts r).length) (g.set d x) w o)
      (foldAll m op u vs w) := by
  induction ts generalizing r vs pos u g w with
  | nil =>
    cases vs with
    | nil =>
      refine .of_value rfl ?_
      rw [Frame.set_self hu]
      exact hrun
    | cons v vs => exact h.elim
  | cons t ts ih =>
    cases vs with
    | nil => exact h.elim
    | cons v vs =>
      obtain ⟨hv, -, -, hrest⟩ := h
      obtain ⟨hi, hat⟩ := hat.cons
      obtain ⟨a, ha, hk⟩ := (Meaning.runs_iff hi).mp hrun v hv u hu hfree
      refine (Followed.of_orFault hk fun x hgo => ?_).mono fun r hr => ⟨a, ha, hr⟩
      have hset : Settled (g.set d x) ts (r + t.width) vs :=
        hrest.congr (fun s hs => Frame.val_set_of_ne _ _ (by omega)) fun _ _ => rfl
      refine (ih (by omega) (Frame.val_set_self _ _ _) hfree hset hat
        (hgo (Nat.lt_succ_self pos))).before fun y w hy => ?_
      rw [Frame.set_set] at hy
      rw [foldCode, List.length_cons, Nat.add_comm _ 1, ← Nat.add_assoc]
      exact hy

/-- Operands that have been laid are joined and combined. -/
theorem combine_runs {op : ArithOp} {first : Term} {rest : List Term} {is : List (V ⊕ H)}
    {r pos : Nat} {f g : Frame V H} {w : W} (hf : f.Clear r) (hext : Extends f r g)
    (h : Laid g (first :: rest) r is)
    (hat : At code pos (joinCode (first :: rest) r ++ foldCode op r rest (r + first.width)))
    (hrun : m.Runs Meaning.done code pos g w o) :
    Followed o (fun x w => m.Runs Meaning.done code
        (pos + (joinCode (first :: rest) r ++ foldCode op r rest (r + first.width)).length)
        (f.extend r [x]) w o)
      (andThen (joinAll m is w) fun vs w => combineAll m op vs w) := by
  obtain ⟨hjoin, hfold⟩ := hat.append
  refine Followed.andThen ((joinCode_runs h (hext.unshadowed hf.2) hjoin hrun).before
    fun vs w hg => ?_)
  obtain ⟨g', hext', hset, hrun⟩ := hg
  cases vs with
  | nil => exact hset.elim
  | cons v vs =>
    have hlow := hext.trans hext' (Nat.le_refl r)
    have hclear := hset.pend
    obtain ⟨hv, hp, -, hrest⟩ := hset
    have hfree : g'.Free r := ⟨hp, hlow.unshadowed hf.2⟩
    have hwidth : r < r + first.width := by
      unfold Term.width
      split <;> omega
    refine (foldCode_runs hwidth hv hfree hrest hfold hrun).before fun x w hx => ?_
    rw [List.length_append, ← Nat.add_assoc]
    refine Meaning.Runs.mono (fun v f f' w hb => Meaning.done_agree v f f' w hb) ?_ hx
    exact (hlow.trans (Extends.set g' r x) (Nat.le_refl r)).below hf hclear
      (Frame.val_set_self _ _ _)

end

/-! ### Terms -/

section

variable (m : Meaning V H W) (known : Global → Prop) (n : Nat) (args : List V)
  (code : ForkLisp.Code) (o : Ending V W)

/-- Running the code of a term comes to what the term can come to, and goes on behind it. -/
def Term.Sound (t : Term) : Prop :=
  ∀ r pos f w, t.Scoped m.arity known n → At code pos (t.emit r) → Ready args r f →
    m.Runs Meaning.done code pos f w o →
    Followed o (fun v w =>
      m.Runs Meaning.done code (pos + (t.emit r).length) (f.extend r [v]) w o) (t.Evals m args w)

/-- The same for arguments, which end up side by side. -/
def ArgumentsSound (ts : List Term) : Prop :=
  ∀ r pos f w, AllScoped m.arity known n ts → At code pos (emitArguments ts r) → Ready args r f →
    m.Runs Meaning.done code pos f w o →
    Followed o (fun vs w => ts.length = vs.length ∧
      m.Runs Meaning.done code (pos + (emitArguments ts r).length) (f.extend r vs) w o)
      (EvalsAll m args ts w)

/-- The same for an operand, which may leave a handle. -/
def Term.OperandSound (t : Term) : Prop :=
  ∀ r pos f w, t.OperandScoped m.arity known n → At code pos (t.emit r) → Ready args r f →
    m.Runs Meaning.done code pos f w o →
    Followed o (fun i w => ∃ g, Extends f r g ∧ Ready args (r + t.width) g ∧
      (match i with
        | .inl v => t.isTask = false ∧ g.val r = some v ∧ g.pend r = none
        | .inr h => t.isTask = true ∧ g.pend r = some h ∧ g.pend (r + 1) = none) ∧
      m.Runs Meaning.done code (pos + (t.emit r).length) g w o) (t.EvalsOperand m args w)

/-- The same for operands. -/
def OperandsSound (ts : List Term) : Prop :=
  ∀ r pos f w, OperandsScoped m.arity known n ts → At code pos (emitOperands ts r) →
    Ready args r f → m.Runs Meaning.done code pos f w o →
    Followed o (fun is w => ∃ g, Extends f r g ∧ Laid g ts r is ∧
      m.Runs Meaning.done code (pos + (emitOperands ts r).length) g w o)
      (EvalsOperands m args ts w)

end

section

variable {m : Meaning V H W} {known : Global → Prop} {n : Nat} {args : List V}
  {code : ForkLisp.Code} {o : Ending V W}

theorem runs_mono {pos : Nat} {f f' : Frame V H} {w : W} (hf : f.Below (fun _ => True) f')
    (h : m.Runs Meaning.done code pos f' w o) : m.Runs Meaning.done code pos f w o :=
  Meaning.Runs.mono (fun v f f' w hb => Meaning.done_agree v f f' w hb) hf h

theorem runs_of_set {pos r : Nat} {f : Frame V H} {v : V} {w : W} (hf : f.Clear r)
    (h : m.Runs Meaning.done code pos (f.set r v) w o) :
    m.Runs Meaning.done code pos (f.extend r [v]) w o :=
  runs_mono ((Extends.set f r v).below hf hf.1 (Frame.val_set_self _ _ _)) h

theorem val_extend_self (f : Frame V H) (r : Nat) (v : V) (vs : List V) :
    (f.extend r (v :: vs)).val r = some v := f.val_extend_add r (v :: vs) 0

/-- A value that is written to a register is what a constant comes to. -/
theorem followed_of_set {pos r : Nat} {f : Frame V H} {v : V} {w : W} (hf : Ready args r f)
    (h : f.Free r → pos < pos + 1 → m.Runs Meaning.done code (pos + 1) (f.set r v) w o) :
    Followed o (fun v w => m.Runs Meaning.done code (pos + 1) (f.extend r [v]) w o)
      (· = .value v w) :=
  .of_value rfl (runs_of_set hf.clear (h (hf.clear.free (Nat.le_refl r)) (Nat.lt_succ_self pos)))

theorem sound_param (i : Nat) : (Term.param i).Sound m known n args code o := by
  intro r pos f w _ hat hf hrun
  refine Followed.of_option fun v hv => followed_of_set hf fun hfree => ?_
  exact (Meaning.runs_iff hat.cons.1).mp hrun v (hf.params i v hv) hfree

theorem sound_global (g : Global) : (Term.global g).Sound m known n args code o := by
  intro r pos f w _ hat hf hrun
  obtain ⟨e, he, hk⟩ := (Meaning.runs_iff hat.cons.1).mp hrun (hf.clear.free (Nat.le_refl r))
  refine ⟨e, he, Ending.into_mono (fun v w _ hgo => ?_) hk⟩
  exact runs_of_set hf.clear (hgo (Nat.lt_succ_self pos))

theorem sound_call (c : FuncId) {ts : List Term} (h : ArgumentsSound m known n args code o ts) :
    (Term.call c ts).Sound m known n args code o := by
  intro r pos f w hs hat hf hrun
  obtain ⟨hn, hs⟩ := hs
  obtain ⟨hargs, hcall⟩ := hat.append
  refine Followed.andThen ((h _ pos f w hs hargs (hf.mono (Nat.le_add_right r 2)) hrun).before
    fun vs w hvs => ?_)
  obtain ⟨hlen, hrun⟩ := hvs
  obtain ⟨e, he, hk⟩ := (Meaning.runs_iff hcall.cons.1).mp hrun vs (by rw [hn, hlen])
    (Nat.le_add_left 2 r) (Frame.holds_extend _ _ _) hf.clear
  refine ⟨e, he, Ending.into_mono (fun v w _ hgo => ?_) hk⟩
  have := hgo (Nat.lt_succ_self _)
  rw [Frame.afterCall_extend] at this
  rw [Term.emit, List.length_append, ← Nat.add_assoc]
  exact this

theorem sound_negate {t : Term} (h : t.Sound m known n args code o) :
    (Term.negate t).Sound m known n args code o := by
  intro r pos f w hs hat hf hrun
  obtain ⟨ht, hneg⟩ := hat.append
  refine Followed.andThen ((h r pos f w hs ht hf hrun).before fun v w hrun => ?_)
  obtain ⟨a, ha, hk⟩ := (Meaning.runs_iff hneg.cons.1).mp hrun v (val_extend_self f r v [])
    (hf.clear.free (Nat.le_refl r))
  refine (Followed.of_orFault hk fun x hgo => ?_).mono fun r hr => ⟨a, ha, hr⟩
  refine .of_value rfl ?_
  have := runs_of_set (f := f.extend r [v]) hf.clear (hgo (Nat.lt_succ_self _))
  rw [Frame.extend_extend] at this
  rw [Term.emit, List.length_append, ← Nat.add_assoc]
  exact this

theorem sound_arith (op : ArithOp) {first : Term} {rest : List Term}
    (h : OperandsSound m known n args code o (first :: rest)) :
    (Term.arith op first rest).Sound m known n args code o := by
  intro r pos f w hs hat hf hrun
  rw [scoped_arith] at hs
  rw [Term.emit_arith] at hat ⊢
  rw [evals_arith]
  obtain ⟨hoperands, hcombine⟩ := hat.append
  refine Followed.andThen ((h r pos f w hs hoperands hf hrun).before fun is w hg => ?_)
  obtain ⟨g, hext, hlaid, hrun⟩ := hg
  refine (combine_runs hf.clear hext hlaid hcombine hrun).before fun x w hx => ?_
  rw [List.length_append, ← Nat.add_assoc]
  exact hx

/-- Both alternatives of a conditional end behind it. -/
theorem sound_cond (skip : Comparison) {lhs rhs first second : Term}
    (hl : lhs.Sound m known n args code o) (hr : rhs.Sound m known n args code o)
    (h1 : first.Sound m known n args code o) (h2 : second.Sound m known n args code o) :
    (Term.cond skip lhs rhs first second).Sound m known n args code o := by
  intro r pos f w hs hat hf hrun
  obtain ⟨hsl, hsr, hs1, hs2⟩ := hs
  obtain ⟨hatl, hat⟩ := hat.append
  obtain ⟨hatr, hat⟩ := hat.append
  obtain ⟨hbranch, hat⟩ := hat.cons
  obtain ⟨hat1, hat⟩ := hat.append
  obtain ⟨hjump, hat2⟩ := hat.cons
  -- both sides of the test run first, the second with the value of the first beneath it
  refine Followed.andThen ((hl r pos f w hsl hatl hf hrun).before fun u w hrun => ?_)
  refine Followed.andThen ((hr (r + 1) _ _ w hsr hatr
    ((hf.extend [u]).mono (Nat.le_succ r)) hrun).before fun v w hrun => ?_)
  rw [show r + 1 = r + [u].length from rfl, Frame.extend_append] at hrun
  have hready := hf.extend [u, v]
  obtain ⟨a, ha, hk⟩ := (Meaning.runs_iff hbranch).mp hrun v (f.val_extend_add r [u, v] 1) u
    (val_extend_self f r u [v])
  refine (Followed.of_orFault hk fun b hgo => ?_).mono fun r hr => ⟨a, ha, hr⟩
  rw [Term.emit, List.length_append, List.length_append, List.length_cons, List.length_append,
    List.length_cons]
  cases b with
  -- the branch skips the first alternative together with the jump behind it
  | true =>
    have hrun := hgo.1 rfl (pos + (lhs.emit r).length + (rhs.emit (r + 1)).length + 1
      + (first.emit r).length + 1) (jumpTarget_eq_some.mpr (by omega)) (by omega)
    refine (h2 r _ _ w hs2 hat2 hready hrun).before fun x w hx => ?_
    rw [Frame.extend_extend] at hx
    rw [show pos + ((lhs.emit r).length + ((rhs.emit (r + 1)).length
        + ((first.emit r).length + ((second.emit r).length + 1) + 1)))
      = pos + (lhs.emit r).length + (rhs.emit (r + 1)).length + 1 + (first.emit r).length + 1
        + (second.emit r).length by omega]
    exact hx
  -- the first alternative ends with the jump over the second
  | false =>
    have hrun := hgo.2 rfl (Nat.lt_succ_self _)
    refine (h1 r _ _ w hs1 hat1 hready hrun).before fun x w hx => ?_
    rw [Frame.extend_extend] at hx
    have := (Meaning.runs_iff hjump).mp hx (pos + ((lhs.emit r).length + ((rhs.emit (r + 1)).length
      + ((first.emit r).length + ((second.emit r).length + 1) + 1))))
      (jumpTarget_eq_some.mpr (by omega)) (by omega)
    exact this

theorem sound_assign (g : Global) {t : Term} (h : t.Sound m known n args code o) :
    (Term.assign g t).Sound m known n args code o := by
  intro r pos f w hs hat hf hrun
  obtain ⟨ht, hstore⟩ := hat.append
  refine Followed.andThen ((h r pos f w hs.2 ht hf hrun).before fun v w hrun => ?_)
  obtain ⟨e, he, hk⟩ := (Meaning.runs_iff hstore.cons.1).mp hrun v (val_extend_self f r v [])
  refine Followed.andThen ⟨e, he, Ending.into_mono (fun _ w _ hgo => ?_) hk⟩
  refine .of_value rfl ?_
  rw [Term.emit, List.length_append, ← Nat.add_assoc]
  exact hgo (Nat.lt_succ_self _)

theorem sound_print (truth : Bool) {t : Term} (h : t.Sound m known n args code o) :
    (Term.print truth t).Sound m known n args code o := by
  intro r pos f w hs hat hf hrun
  obtain ⟨ht, hprint⟩ := hat.append
  refine Followed.andThen ((h r pos f w hs ht hf hrun).before fun v w hrun => ?_)
  have hexec : ∃ e, m.print truth v w e ∧ e.into o fun _ w' =>
      pos + (t.emit r).length < pos + (t.emit r).length + 1 →
        m.Runs Meaning.done code (pos + (t.emit r).length + 1) (f.extend r [v]) w' o := by
    have := (Meaning.runs_iff hprint.cons.1).mp hrun
    cases truth with
    | true => exact this v (val_extend_self f r v [])
    | false => exact this v (val_extend_self f r v [])
  obtain ⟨e, he, hk⟩ := hexec
  refine Followed.andThen ⟨e, he, Ending.into_mono (fun _ w _ hgo => ?_) hk⟩
  refine .of_value rfl ?_
  rw [Term.emit, List.length_append, ← Nat.add_assoc]
  exact hgo (Nat.lt_succ_self _)

theorem argumentsSound_nil : ArgumentsSound m known n args code o [] := by
  intro r pos f w _ _ hf hrun
  have hbelow : (f.extend r []).Below (fun _ => True) f := by
    refine ⟨rfl, fun s _ u hu => ?_⟩
    have hval : (if s < r then f.val s else none) = some u := hu
    split at hval
    · exact hval
    · exact absurd hval (by simp)
  exact .of_value rfl ⟨rfl, runs_mono hbelow hrun⟩

theorem argumentsSound_cons {t : Term} {ts : List Term} (h : t.Sound m known n args code o)
    (hs : ArgumentsSound m known n args code o ts) :
    ArgumentsSound m known n args code o (t :: ts) := by
  intro r pos f w hsc hat hf hrun
  obtain ⟨ht, hts⟩ := hat.append
  refine Followed.andThen ((h r pos f w hsc.1 ht hf hrun).before fun v w hrun => ?_)
  refine Followed.andThen ((hs (r + 1) _ _ w hsc.2 hts ((hf.extend [v]).mono (Nat.le_succ r))
    hrun).before fun vs w hvs => ?_)
  obtain ⟨hlen, hrun⟩ := hvs
  refine .of_value rfl ⟨congrArg (· + 1) hlen, ?_⟩
  rw [show r + 1 = r + [v].length from rfl, Frame.extend_append] at hrun
  rw [emitArguments, List.length_append, ← Nat.add_assoc]
  exact hrun

/-- An operand that is no task leaves its value. -/
theorem operandSound_of_sound {t : Term} (ht : t.isTask = false)
    (h : t.Sound m known n args code o) : t.OperandSound m known n args code o := by
  intro r pos f w hs hat hf hrun
  have hw : t.width = 1 := by simp [Term.width, ht]
  have hscoped : t.Scoped m.arity known n := by
    cases t <;> first | exact hs | exact absurd ht (by simp [Term.isTask])
  rw [Term.evalsOperand_of_not_task m args ht, hw]
  refine Followed.andThen ((h r pos f w hscoped hat hf hrun).before fun v w hrun => ?_)
  refine .of_value rfl ⟨_, Extends.extend f r [v], (hf.extend [v]).mono (Nat.le_succ r), ?_, hrun⟩
  exact ⟨ht, val_extend_self f r v [], hf.clear.1 r (Nat.le_refl r)⟩

/-- A task leaves its handle. -/
theorem operandSound_task (c : FuncId) {ts : List Term}
    (h : ArgumentsSound m known n args code o ts) :
    (Term.task c ts).OperandSound m known n args code o := by
  intro r pos f w hs hat hf hrun
  obtain ⟨hn, hs⟩ := hs
  obtain ⟨hargs, hspawn⟩ := hat.append
  refine Followed.andThen ((h _ pos f w hs hargs (hf.mono (Nat.le_add_right r 3)) hrun).before
    fun vs w hvs => ?_)
  obtain ⟨hlen, hrun⟩ := hvs
  obtain ⟨e, he, hk⟩ := (Meaning.runs_iff hspawn.cons.1).mp hrun vs (by rw [hn, hlen])
    (Nat.le_add_left 3 r) (Frame.holds_extend _ _ _) hf.clear
  refine Followed.andThen ⟨e, he, Ending.into_mono (fun x w _ hgo => ?_) hk⟩
  have hext : Extends f r ((f.extend (r + 3) vs).afterSpawn (r + 3) x) :=
    ((Extends.extend f (r + 3) vs).weaken (Nat.le_add_right r 3)).trans
      (Extends.afterSpawn _ r x) (Nat.le_refl r)
  have hclear : ((f.extend (r + 3) vs).afterSpawn (r + 3) x).Clear (r + 2) :=
    clear_afterSpawn hf.clear x
  refine .of_value rfl ⟨_, hext, hext.ready hf (Nat.le_add_right r 2) hclear, ⟨rfl, ?_, ?_⟩, ?_⟩
  · exact if_pos rfl
  · exact hclear.2 (r + 1) rfl
  · rw [Term.emit, List.length_append, ← Nat.add_assoc]
    exact hgo (Nat.lt_succ_self _)

theorem operandsSound_nil : OperandsSound m known n args code o [] := by
  intro r pos f w _ _ hf hrun
  exact .of_value rfl ⟨f, Extends.refl f r, hf.clear.1, hrun⟩

theorem operandsSound_cons {t : Term} {ts : List Term} (h : t.OperandSound m known n args code o)
    (hs : OperandsSound m known n args code o ts) :
    OperandsSound m known n args code o (t :: ts) := by
  intro r pos f w hsc hat hf hrun
  rw [operandsScoped_cons] at hsc
  rw [evalsOperands_cons]
  obtain ⟨ht, hts⟩ := hat.append
  refine Followed.andThen ((h r pos f w hsc.1 ht hf hrun).before fun i w hg => ?_)
  obtain ⟨g, hext, hready, hi, hrun⟩ := hg
  refine Followed.andThen ((hs _ _ g w hsc.2 hts hready hrun).before fun is w hg' => ?_)
  obtain ⟨g', hext', hlaid, hrun⟩ := hg'
  refine .of_value rfl ⟨g', hext.trans hext' (Nat.le_add_right r _), ?_, ?_⟩
  · cases i with
    | inl v =>
      obtain ⟨htask, hv, hp⟩ := hi
      have hw : t.width = 1 := by simp [Term.width, htask]
      rw [hw] at hext' hlaid
      refine ⟨htask, hext'.val r (Nat.lt_succ_self r) v hv, ?_, hlaid⟩
      rw [hext'.pend r (Nat.lt_succ_self r), hp]
    | inr x =>
      obtain ⟨htask, hx, hp⟩ := hi
      have hw : t.width = 2 := by simp [Term.width, htask]
      rw [hw] at hext' hlaid
      refine ⟨htask, ?_, ?_, hlaid⟩
      · rw [hext'.pend r (by omega), hx]
      · rw [hext'.pend (r + 1) (by omega), hp]
  · rw [emitOperands, List.length_append, ← Nat.add_assoc]
    exact hrun

theorem both_of_sound {t : Term} (ht : t.isTask = false) (h : t.Sound m known n args code o) :
    t.Sound m known n args code o ∧ t.OperandSound m known n args code o :=
  ⟨h, operandSound_of_sound ht h⟩

mutual

/-- Running the code of a term, as a term of its own or as an operand. -/
theorem Term.runs : (t : Term) →
    t.Sound m known n args code o ∧ t.OperandSound m known n args code o
  | .int _ => both_of_sound rfl fun _ _ _ _ _ hat hf hrun =>
    followed_of_set hf ((Meaning.runs_iff hat.cons.1).mp hrun)
  | .bool _ => both_of_sound rfl fun _ _ _ _ _ hat hf hrun =>
    followed_of_set hf ((Meaning.runs_iff hat.cons.1).mp hrun)
  | .float _ => both_of_sound rfl fun _ _ _ _ _ hat hf hrun =>
    followed_of_set hf ((Meaning.runs_iff hat.cons.1).mp hrun)
  | .param i => both_of_sound rfl (sound_param i)
  | .global g => both_of_sound rfl (sound_global g)
  | .call c ts => both_of_sound rfl (sound_call c (arguments_runs ts))
  | .task c ts => ⟨fun _ _ _ _ hs => hs.elim, operandSound_task c (arguments_runs ts)⟩
  | .negate t => both_of_sound rfl (sound_negate t.runs.1)
  | .arith op first rest =>
    both_of_sound rfl (sound_arith op (operandsSound_cons first.runs.2 (operands_runs rest)))
  | .cond skip lhs rhs first second =>
    both_of_sound rfl (sound_cond skip lhs.runs.1 rhs.runs.1 first.runs.1 second.runs.1)
  | .assign g t => both_of_sound rfl (sound_assign g t.runs.1)
  | .print truth t => both_of_sound rfl (sound_print truth t.runs.1)

theorem arguments_runs : (ts : List Term) → ArgumentsSound m known n args code o ts
  | [] => argumentsSound_nil
  | t :: ts => argumentsSound_cons t.runs.1 (arguments_runs ts)

theorem operands_runs : (ts : List Term) → OperandsSound m known n args code o ts
  | [] => operandsSound_nil
  | t :: ts => operandsSound_cons t.runs.2 (operands_runs ts)

end

/-! ### Bodies -/

/-- Terms that run one after the other, and a return of the last value. -/
theorem sequence_runs {ts : List Term} {r pos : Nat} {f : Frame V H} {w : W} (hne : ts ≠ [])
    (hs : AllScoped m.arity known n ts)
    (hat : At code pos (emitSequence ts r ++ [.ret r])) (hf : Ready args r f)
    (hp : ∀ s, f.pend s = none) (hrun : m.Runs Meaning.done code pos f w o) :
    EvalsBody m args ts w o := by
  induction ts generalizing pos f w with
  | nil => exact absurd rfl hne
  | cons t ts ih =>
    rw [emitSequence, List.append_assoc] at hat
    obtain ⟨ht, hat⟩ := hat.append
    have h := t.runs.1 r pos f w hs.1 ht hf hrun
    cases ts with
    | nil =>
      refine h.before fun v w hrun => ?_
      exact (Meaning.runs_iff hat.cons.1).mp hrun v (val_extend_self f r v []) hp
    | cons t' ts =>
      exact h.before fun v w hrun => ih (by simp) hs.2 hat (hf.extend [v]) hp hrun

theorem at_bodyCode (ts : List Term) (r : Nat) :
    At (bodyCode ts r) 0 (emitSequence ts r ++ [.ret r]) := by
  intro k hk
  have hcode : (bodyCode ts r)[0 + k]? = ((emitSequence ts r ++ [.ret r]) ++ [.stop])[k]? := by
    rw [Nat.zero_add, bodyCode, List.getElem?_toArray, List.append_assoc]
    rfl
  rw [hcode, List.getElem?_append_left hk]

/-- The code of a body, started with arguments, ends as the body can. -/
theorem bodyCode_runs {ts : List Term} {w : W} (hne : ts ≠ [])
    (hs : AllScoped m.arity known n ts)
    (hrun : m.Runs Meaning.done (bodyCode ts args.length) 0 (Frame.enter args) w o) :
    EvalsBody m args ts w o := by
  have hready : Ready args args.length (Frame.enter args : Frame V H) :=
    ⟨fun _ _ hv => hv, Nat.le_refl _, fun _ _ => rfl, fun _ _ => rfl⟩
  exact sequence_runs hne hs (at_bodyCode ts _) hready (fun _ => rfl) hrun

end

end ForkLisp.Terms
