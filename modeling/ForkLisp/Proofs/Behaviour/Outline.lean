/-
Code whatever its values are.

An outline says which registers of a frame have values and which hold handles, but not what these
are. In the bare meaning nothing is known of values, so that a branch may go either way. `Safe` code
never meets anything without meaning in it: whichever way control goes, each instruction finds in
the outline what it `Asks` for, and `leaves` the outline in which control goes on (`Safe.step`).
That code is safe follows from its runs in any meaning in which operations may come to whatever they
like (`Meaning.Open.safe`).
-/
import ForkLisp.Optimize.Liveness
import ForkLisp.Proofs.Behaviour.Meaning

namespace ForkLisp.Behaviour

open ForkLisp.Code ForkLisp.Machine ForkLisp.Optimize

/-- Which registers of a frame have values, and which hold handles. -/
abbrev Outline := Frame Unit Unit

/-- The outline of a frame that was entered with so many arguments. -/
def Outline.enter (n : Nat) : Outline := Frame.enter (List.replicate n ())

/-- The meaning in which nothing is known of values, and nothing goes wrong but for registers. -/
def bare (arity : FuncId → Option Nat) : Meaning Unit Unit Unit where
  int _ := ()
  bool _ := ()
  float _ := ()
  arith _ _ _ _ := True
  negate _ _ := True
  test _ _ _ _ := True
  load _ _ r := r ≠ .stuck
  store _ _ _ r := r ≠ .stuck
  print _ _ _ r := r ≠ .stuck
  arity := arity
  call _ _ _ r := r ≠ .stuck
  spawn _ _ _ r := r ≠ .stuck
  join _ _ r := r ≠ .stuck

/-- Code that runs on from a place never meets anything without meaning, whichever way it goes. -/
def Safe (arity : FuncId → Option Nat) (code : ForkLisp.Code) (pc : Nat) (f : Outline) : Prop :=
  ¬ (bare arity).Runs Meaning.done code pc f () .stuck

/-! ### What instructions ask for and leave -/

/-- What an instruction finds in an outline: values in the registers that it reads, no handle
in the way of what it writes, and the handle that it waits for. Nothing is left that was not
joined at a return. -/
def Asks (arity : FuncId → Option Nat) (i : Inst) (f : Outline) : Prop :=
  match i with
  | .intConst d _ | .boolConst d _ | .floatConst d _ | .load d _ => f.Free d
  | .move d s => f.val s = some () ∧ f.Free d
  | .arith _ d s => f.val s = some () ∧ f.val d = some () ∧ f.Free d
  | .arithConst _ d _ | .negate d => f.val d = some () ∧ f.Free d
  | .branch _ _ l r => f.val r = some () ∧ f.val l = some ()
  | .branchConst _ _ l _ => f.val l = some ()
  | .jump _ => True
  | .store s _ | .print s | .printBool s => f.val s = some ()
  | .call n shift => ∃ k, arity n = some k ∧ (2 : Nat) ≤ shift ∧
      (∀ j, j < k → f.val (shift + j) = some ()) ∧
      f.Clear (shift - 2)
  | .spawn n shift => ∃ k, arity n = some k ∧ (3 : Nat) ≤ shift ∧
      (∀ j, j < k → f.val (shift + j) = some ()) ∧
      f.Clear (shift - 3)
  | .join r => f.pend r = some () ∧ f.Unshadowed r
  | .ret s => f.val s = some () ∧ ∀ r, f.pend r = none
  | .retConst _ => ∀ r, f.pend r = none
  | .stop => False

/-- The outline behind an instruction. -/
def leaves (i : Inst) (f : Outline) : Outline :=
  match i with
  | .intConst d _ | .boolConst d _ | .floatConst d _ | .load d _ | .move d _ | .arith _ d _
  | .arithConst _ d _ | .negate d => f.set d ()
  | .call _ shift => f.afterCall shift ()
  | .spawn _ shift => f.afterSpawn shift ()
  | .join r => f.afterJoin r ()
  | .branch .. | .branchConst .. | .jump _ | .store .. | .print _ | .printBool _
  | .ret _ | .retConst _
  | .stop => f

/-- Where control may go from an instruction. -/
inductive Goes (i : Inst) (pc : Nat) : Nat → Prop where
  | through (h : fallsThrough i = true) : Goes i pc (pc + 1)
  | jump {offset : Int} {target : Nat} (ho : i.offset? = some offset)
      (ht : jumpTarget pc offset = some target) : Goes i pc target

/-! ### Steps of safe code -/

namespace Safe

variable {arity : FuncId → Option Nat} {code : ForkLisp.Code} {pc : Nat} {f : Outline}

/-- Safe code, by the instruction at its place. -/
theorem exec (h : Safe arity code pc f) {i : Inst} (hi : code[pc]? = some i) :
    ¬ (bare arity).exec Meaning.done .stuck pc i f ()
      fun pc' f w => pc < pc' → (bare arity).Runs Meaning.done code pc' f w .stuck :=
  fun hexec => h ((Meaning.runs_iff hi).mpr hexec)

theorem inst (h : Safe arity code pc f) : ∃ i, code[pc]? = some i := by
  cases hi : code[pc]? with
  | some i => exact ⟨i, rfl⟩
  | none =>
    refine absurd ?_ h
    rw [Meaning.Runs]
    intro i hi'
    cases hi.symm.trans hi'

theorem of_not_imp {pc' : Nat}
    (h : ¬ (pc < pc' → (bare arity).Runs Meaning.done code pc' f () .stuck)) :
    pc < pc' ∧ Safe arity code pc' f := by
  rw [Classical.not_imp] at h
  exact h

/-- What follows is safe after a value that a computation may have. -/
theorem of_not_followed {α : Type} {ends : Ending α Unit → Prop} {use : α → Unit → Prop}
    (h : ¬ ∃ r, ends r ∧ r.into (.stuck : Ending Unit Unit) use) {v : α} (hv : ends (.value v ())) :
    ¬ use v () :=
  fun hu => h ⟨_, hv, hu⟩

theorem operate {op : ArithOp} {d : Nat} {v : Unit} {go : Outline → Prop}
    (h : ¬ (bare arity).operate op d v f () .stuck go) :
    f.val d = some () ∧ f.Free d ∧ ¬ go (f.set d ()) := by
  simp only [Meaning.operate, Classical.not_forall] at h
  obtain ⟨u, hu, hfree, hno⟩ := h
  exact ⟨hu, hfree, fun hgo => hno ⟨.ok (), trivial, hgo⟩⟩

/-- Either way that a branch may go is safe. -/
theorem branch {c : Comparison} {offset : Int} {l : Nat} {v : Unit}
    (h : ¬ (bare arity).branch c offset l v pc f () .stuck
      fun t => pc < t → (bare arity).Runs Meaning.done code t f () .stuck) :
    f.val l = some () ∧
      (∀ target, jumpTarget pc offset = some target → pc < target ∧ Safe arity code target f) ∧
      pc < pc + 1 ∧ Safe arity code (pc + 1) f := by
  simp only [Meaning.branch, Classical.not_forall] at h
  obtain ⟨u, hu, hno⟩ := h
  refine ⟨hu, fun target ht => of_not_imp fun hgo =>
    hno ⟨.ok true, trivial, fun _ t htarget => ?_, ?_⟩,
    of_not_imp fun hgo => hno ⟨.ok false, trivial, ?_, fun _ => hgo⟩⟩
  · obtain rfl := Option.some.inj (ht.symm.trans htarget)
    exact hgo
  · intro hfalse
    cases hfalse
  · intro htrue
    cases htrue

/-- Values in all argument registers. -/
theorem holds_replicate {args : List Unit} {shift : Nat} (h : f.Holds shift args) {j : Nat}
    (hj : j < args.length) : f.val (shift + j) = some () := by
  rw [h j hj, List.getElem?_eq_getElem hj]

/-- A return at which tasks are left that were not joined has no meaning. -/
theorem of_not_done {v : Unit} (h : ¬ Meaning.done v f () .stuck) : ∀ r, f.pend r = none := by
  unfold Meaning.done at h
  rw [Classical.not_imp] at h
  exact h.1

/-- An instruction of safe code finds what it asks for, and wherever control goes, the code is safe
with what the instruction leaves. -/
theorem at_inst (h : Safe arity code pc f) {i : Inst} (hi : code[pc]? = some i) :
    Asks arity i f ∧ (fallsThrough i = true → pc < pc + 1 ∧ Safe arity code (pc + 1) (leaves i f)) ∧
      ∀ offset target, i.offset? = some offset → jumpTarget pc offset = some target →
        pc < target ∧ Safe arity code target (leaves i f) := by
  have hexec := h.exec hi
  -- an instruction gets stuck if it misses what it asks for, or if what follows gets stuck
  cases i with
  | intConst d x | boolConst d x | floatConst d x =>
    obtain ⟨hfree, hnext⟩ := Classical.not_imp.mp hexec
    refine ⟨hfree, fun _ => of_not_imp hnext, ?_⟩
    rintro _ _ ⟨⟩
  | move d s =>
    simp only [Meaning.exec, Classical.not_forall] at hexec
    obtain ⟨v, hv, hfree, hlt, hnext⟩ := hexec
    refine ⟨⟨hv, hfree⟩, fun _ => ⟨hlt, hnext⟩, ?_⟩
    rintro _ _ ⟨⟩
  | arith op d s =>
    simp only [Meaning.exec, Classical.not_forall] at hexec
    obtain ⟨v, hv, hnext⟩ := hexec
    obtain ⟨hd, hfree, hnext⟩ := operate hnext
    refine ⟨⟨hv, hd, hfree⟩, fun _ => of_not_imp hnext, ?_⟩
    rintro _ _ ⟨⟩
  | arithConst op d x =>
    simp only [Meaning.exec] at hexec
    obtain ⟨hd, hfree, hnext⟩ := operate hexec
    refine ⟨⟨hd, hfree⟩, fun _ => of_not_imp hnext, ?_⟩
    rintro _ _ ⟨⟩
  | negate d =>
    simp only [Meaning.exec, Classical.not_forall] at hexec
    obtain ⟨v, hv, hfree, hnext⟩ := hexec
    refine ⟨⟨hv, hfree⟩, fun _ => of_not_imp fun hrun => hnext ⟨.ok (), trivial, hrun⟩, ?_⟩
    rintro _ _ ⟨⟩
  | branch c offset l r =>
    simp only [Meaning.exec, Classical.not_forall] at hexec
    obtain ⟨v, hv, hnext⟩ := hexec
    obtain ⟨hl, hjump, hthrough⟩ := branch hnext
    refine ⟨⟨hv, hl⟩, fun _ => hthrough, ?_⟩
    rintro _ target ⟨⟩ ht
    exact hjump target ht
  | branchConst c offset l x =>
    obtain ⟨hl, hjump, hthrough⟩ := branch hexec
    refine ⟨hl, fun _ => hthrough, ?_⟩
    rintro _ target ⟨⟩ ht
    exact hjump target ht
  | jump offset =>
    refine ⟨trivial, fun hthrough => (by cases hthrough), ?_⟩
    rintro _ target ⟨⟩ ht
    refine of_not_imp fun hrun => hexec fun t htarget => ?_
    obtain rfl := Option.some.inj (ht.symm.trans htarget)
    exact hrun
  | load d g =>
    obtain ⟨hfree, hnext⟩ := Classical.not_imp.mp hexec
    refine ⟨hfree, fun _ => of_not_imp (of_not_followed hnext (v := ())
      (Ending.value_ne_stuck _ _)), ?_⟩
    rintro _ _ ⟨⟩
  | store s g | print s | printBool s =>
    simp only [Meaning.exec, Classical.not_forall] at hexec
    obtain ⟨v, hv, hnext⟩ := hexec
    refine ⟨hv, fun _ => of_not_imp (of_not_followed hnext (v := ()) (Ending.value_ne_stuck _ _)),
      ?_⟩
    rintro _ _ ⟨⟩
  | call n shift | spawn n shift =>
    simp only [Meaning.exec, Classical.not_forall] at hexec
    obtain ⟨args, hn, hs, hargs, hclear, hnext⟩ := hexec
    refine ⟨⟨_, hn, hs, fun j hj => holds_replicate hargs hj, hclear⟩,
      fun _ => of_not_imp (of_not_followed hnext (v := ()) (Ending.value_ne_stuck _ _)), ?_⟩
    rintro _ _ ⟨⟩
  | join r =>
    simp only [Meaning.exec, Classical.not_forall] at hexec
    obtain ⟨p, hp, hu, hnext⟩ := hexec
    refine ⟨⟨hp, hu⟩,
      fun _ => of_not_imp (of_not_followed hnext (v := ()) (Ending.value_ne_stuck _ _)), ?_⟩
    rintro _ _ ⟨⟩
  | ret s =>
    simp only [Meaning.exec, Classical.not_forall] at hexec
    obtain ⟨v, hv, hdone⟩ := hexec
    refine ⟨⟨hv, of_not_done hdone⟩, fun hthrough => (by cases hthrough), ?_⟩
    rintro _ _ ⟨⟩
  | retConst x =>
    refine ⟨of_not_done hexec, fun hthrough => (by cases hthrough), ?_⟩
    rintro _ _ ⟨⟩
  | stop => exact absurd trivial hexec

/-- Safe code stands at an instruction that finds what it asks for, and it is safe wherever control
goes. -/
theorem step (h : Safe arity code pc f) : ∃ i, code[pc]? = some i ∧ Asks arity i f ∧
    ∀ pc', Goes i pc pc' → pc < pc' ∧ Safe arity code pc' (leaves i f) := by
  obtain ⟨i, hi⟩ := h.inst
  obtain ⟨hasks, hthrough, hjump⟩ := h.at_inst hi
  refine ⟨i, hi, hasks, fun pc' hgoes => ?_⟩
  cases hgoes with
  | through hft => exact hthrough hft
  | jump ho ht => exact hjump _ _ ho ht

end Safe

/-! ### Meanings in which anything may happen -/

variable {V H W : Type}

/-- The outline of a frame. -/
def Frame.outline (f : Frame V H) : Outline :=
  ⟨fun r => (f.val r).map fun _ => (), fun r => (f.pend r).map fun _ => ()⟩

namespace Frame

variable {f : Frame V H}

theorem outline_enter (args : List V) : (enter args : Frame V H).outline = .enter args.length := by
  refine congrArg (fun v => Frame.mk v fun _ => none) (funext fun r => ?_)
  show args[r]?.map (fun _ => ()) = (List.replicate args.length ())[r]?
  rw [← List.map_const', List.getElem?_map]

theorem outline_set (d : Nat) (v : V) : (f.set d v).outline = f.outline.set d () := by
  refine congrArg (fun v => Frame.mk v f.outline.pend) (funext fun r => ?_)
  show (if r = d then some v else f.val r).map _ = if r = d then some () else (f.val r).map _
  split <;> rfl

theorem outline_afterCall (shift : Nat) (v : V) :
    (f.afterCall shift v).outline = f.outline.afterCall shift () := by
  refine congrArg (fun v => Frame.mk v f.outline.pend) (funext fun r => ?_)
  show (if r = shift - 2 then some v else if r < shift - 2 then f.val r else none).map _ =
    if r = shift - 2 then some () else if r < shift - 2 then (f.val r).map _ else none
  split
  · rfl
  · split <;> rfl

theorem outline_afterSpawn (shift : Nat) (h : H) :
    (f.afterSpawn shift h).outline = f.outline.afterSpawn shift () := by
  refine congr (congrArg Frame.mk (funext fun r => ?_)) (funext fun r => ?_)
  · show (if r < shift - 3 then f.val r else none).map _ =
      if r < shift - 3 then (f.val r).map _ else none
    split <;> rfl
  · show (if r = shift - 3 then some h else f.pend r).map _ =
      if r = shift - 3 then some () else (f.pend r).map _
    split <;> rfl

theorem outline_afterJoin (d : Nat) (v : V) :
    (f.afterJoin d v).outline = f.outline.afterJoin d () := by
  refine congr (congrArg Frame.mk (funext fun r => ?_)) (funext fun r => ?_)
  · show (if r = d then some v else f.val r).map _ = if r = d then some () else (f.val r).map _
    split <;> rfl
  · show (if r = d then none else f.pend r).map _ = if r = d then none else (f.pend r).map _
    split <;> rfl

theorem val_outline {r : Nat} {v : V} (h : f.val r = some v) : f.outline.val r = some () :=
  congrArg (Option.map fun _ => ()) h

theorem pend_outline {r : Nat} {h : H} (hp : f.pend r = some h) : f.outline.pend r = some () :=
  congrArg (Option.map fun _ => ()) hp

theorem pend_outline_eq_none {r : Nat} (h : f.pend r = none) : f.outline.pend r = none :=
  congrArg (Option.map fun _ => ()) h

theorem Unshadowed.outline {r : Nat} (h : f.Unshadowed r) : f.outline.Unshadowed r :=
  fun s hs => pend_outline_eq_none (h s hs)

theorem Free.outline {r : Nat} (h : f.Free r) : f.outline.Free r :=
  ⟨pend_outline_eq_none h.1, h.2.outline⟩

theorem Clear.outline {r : Nat} (h : f.Clear r) : f.outline.Clear r :=
  ⟨fun s hs => pend_outline_eq_none (h.1 s hs), h.2.outline⟩

theorem Holds.outline {r : Nat} {args : List V} (h : f.Holds r args) :
    f.outline.Holds r (args.map fun _ => ()) := by
  intro j hj
  rw [List.length_map] at hj
  show (f.val (r + j)).map _ = _
  rw [h j hj, List.getElem?_map]

end Frame

/-- In a meaning every operation may come to a value, and every comparison to either answer. -/
structure Meaning.Open (m : Meaning V H W) : Prop where
  arith : ∀ op u v, ∃ x, m.arith op u v (.ok x)
  negate : ∀ v, ∃ x, m.negate v (.ok x)
  test : ∀ c u v b, m.test c u v (.ok b)
  load : ∀ g w, ∃ v w', m.load g w (.value v w')
  store : ∀ g v w, ∃ w', m.store g v w (.value () w')
  print : ∀ truth v w, ∃ w', m.print truth v w (.value () w')
  call : ∀ n args w, ∃ v w', m.call n args w (.value v w')
  spawn : ∀ n args w, ∃ h w', m.spawn n args w (.value h w')
  join : ∀ h w, ∃ v w', m.join h w (.value v w')

namespace Meaning.Open

variable {m : Meaning V H W} {code : ForkLisp.Code} {pc : Nat} {f : Frame V H} {w : W}

/-- What the bare meaning says of an answer holds of the value that it may be. -/
theorem of_orFault {α : Type} {ends : Except Fault Unit → Prop} {go : Unit → Prop}
    (h : ∃ a, ends a ∧ orFault a () (.stuck : Ending Unit Unit) go) {answer : Except Fault α → Prop}
    {x : α} (hx : answer (.ok x)) {use : α → Prop} (hgo : go () → use x) :
    ∃ a, answer a ∧ orFault a w (.stuck : Ending V W) use := by
  obtain ⟨a, -, ha⟩ := h
  cases a with
  | ok u => exact ⟨_, hx, hgo ha⟩
  | error e => cases ha

/-- What the bare meaning says of an ending holds of the value that it may be. -/
theorem of_into {α : Type} {ends : Ending Unit Unit → Prop} {go : Unit → Unit → Prop}
    (h : ∃ r, ends r ∧ r.into (.stuck : Ending Unit Unit) go) (hs : ¬ ends .stuck)
    {comes : Ending α W → Prop} {v : α} {w' : W} (hv : comes (.value v w')) {use : α → W → Prop}
    (hgo : go () () → use v w') : ∃ r, comes r ∧ r.into (.stuck : Ending V W) use := by
  obtain ⟨r, hr, hinto⟩ := h
  cases r with
  | value u u' => exact ⟨_, hv, hgo hinto⟩
  | fault e u => cases hinto
  | stuck => exact absurd hr hs

/-- Either way that a comparison may go in the bare meaning, it may go here. -/
theorem branch (hm : m.Open) {c : Comparison} {offset : Int} {l : Nat} {v : V}
    {go go' : Nat → Prop} (hgo : ∀ t, go t → go' t)
    (h : (bare m.arity).branch c offset l () pc f.outline () .stuck go) :
    m.branch c offset l v pc f w .stuck go' := by
  intro u hu
  obtain ⟨a, -, ha⟩ := h () (Frame.val_outline hu)
  cases a with
  | error e => cases ha
  | ok b =>
    exact ⟨.ok b, hm.test c u v b, fun hb t ht => hgo t (ha.1 hb t ht), fun hb => hgo _ (ha.2 hb)⟩

theorem operate (hm : m.Open) {op : ArithOp} {d : Nat} {v : V} {go : Outline → Prop}
    {go' : Frame V H → Prop} (hgo : ∀ g : Frame V H, go g.outline → go' g)
    (h : (bare m.arity).operate op d () f.outline () .stuck go) :
    m.operate op d v f w .stuck go' := by
  intro u hu hfree
  obtain ⟨x, hx⟩ := hm.arith op u v
  refine of_orFault (h () (Frame.val_outline hu) hfree.outline) hx fun hrun => hgo _ ?_
  rw [Frame.outline_set]
  exact hrun

/-- An instruction that may get stuck in the bare meaning may do so here. -/
theorem exec_of_bare (hm : m.Open) {i : Inst} {go : Nat → Outline → Unit → Prop}
    {go' : Nat → Frame V H → W → Prop} (hgo : ∀ {t g w'}, go t g.outline () → go' t g w')
    (h : (bare m.arity).exec Meaning.done .stuck pc i f.outline () go) :
    m.exec Meaning.done .stuck pc i f w go' := by
  cases i with
  | intConst d x | boolConst d x | floatConst d x =>
    exact fun hfree => hgo (Frame.outline_set d _ ▸ h hfree.outline)
  | move d s =>
    exact fun v hv hfree =>
      hgo (Frame.outline_set d v ▸ h () (Frame.val_outline hv) hfree.outline)
  | arith op d s =>
    exact fun v hv => hm.operate (fun _ => hgo) (h () (Frame.val_outline hv))
  | arithConst op d x =>
    have h : (bare m.arity).operate op d () f.outline () .stuck fun g => go (pc + 1) g () := h
    exact hm.operate (fun _ => hgo) h
  | negate d =>
    intro v hv hfree
    obtain ⟨x, hx⟩ := hm.negate v
    exact of_orFault (h () (Frame.val_outline hv) hfree.outline) hx
      fun hrun => hgo (Frame.outline_set d x ▸ hrun)
  | branch c offset l r =>
    exact fun v hv => hm.branch (fun _ => hgo) (h () (Frame.val_outline hv))
  | branchConst c offset l x =>
    have h : (bare m.arity).branch c offset l () pc f.outline () .stuck fun t =>
      go t f.outline () := h
    exact hm.branch (fun _ => hgo) h
  | jump offset => exact fun t ht => hgo (h t ht)
  | load d g =>
    intro hfree
    obtain ⟨v, w', hv⟩ := hm.load g w
    exact of_into (h hfree.outline) (fun hs => hs rfl) hv
      fun hrun => hgo (Frame.outline_set d v ▸ hrun)
  | store s g =>
    intro v hv
    obtain ⟨w', hw⟩ := hm.store g v w
    exact of_into (h () (Frame.val_outline hv)) (fun hs => hs rfl) hw hgo
  | print s =>
    intro v hv
    obtain ⟨w', hw⟩ := hm.print false v w
    exact of_into (h () (Frame.val_outline hv)) (fun hs => hs rfl) hw hgo
  | printBool s =>
    intro v hv
    obtain ⟨w', hw⟩ := hm.print true v w
    exact of_into (h () (Frame.val_outline hv)) (fun hs => hs rfl) hw hgo
  | call n shift =>
    intro args hn hs hargs hclear
    obtain ⟨v, w', hv⟩ := hm.call n args w
    have hrun := h (args.map fun _ => ()) (by rw [List.length_map]; exact hn) hs hargs.outline
      hclear.outline
    exact of_into hrun (fun hs => hs rfl) hv fun hrun =>
      hgo (Frame.outline_afterCall shift v ▸ hrun)
  | spawn n shift =>
    intro args hn hs hargs hclear
    obtain ⟨p, w', hp⟩ := hm.spawn n args w
    have hrun := h (args.map fun _ => ()) (by rw [List.length_map]; exact hn) hs hargs.outline
      hclear.outline
    exact of_into hrun (fun hs => hs rfl) hp fun hrun =>
      hgo (Frame.outline_afterSpawn shift p ▸ hrun)
  | join r =>
    intro p hp hu
    obtain ⟨v, w', hv⟩ := hm.join p w
    exact of_into (h () (Frame.pend_outline hp) hu.outline) (fun hs => hs rfl) hv
      fun hrun => hgo (Frame.outline_afterJoin r v ▸ hrun)
  | ret s =>
    -- with nothing left to join, a return has a meaning
    intro v hv hdone
    exact absurd (h () (Frame.val_outline hv) fun r => Frame.pend_outline_eq_none (hdone r))
      fun h => by cases h
  | retConst x =>
    intro hdone
    exact absurd (h fun r => Frame.pend_outline_eq_none (hdone r)) fun h => by cases h
  | stop => trivial

/-- Code that may get stuck in the bare meaning may do so here. -/
theorem runs_of_bare (hm : m.Open)
    (h : (bare m.arity).Runs Meaning.done code pc f.outline () .stuck) :
    m.Runs Meaning.done code pc f w .stuck := by
  induction hn : code.size - pc using Nat.strongRecOn generalizing pc f w with
  | ind n ih =>
    rw [Meaning.Runs]
    intro i hi
    have hpc : pc < code.size := (Array.getElem?_eq_some_iff.mp hi).1
    -- control only goes forward, so that less of the code is left
    refine hm.exec_of_bare (fun hrun hlt => ?_) ((Meaning.runs_iff hi).mp h)
    exact ih _ (by omega) (hrun hlt) rfl

/-- Code that cannot get stuck here is safe. -/
theorem safe (hm : m.Open) {args : List V}
    (h : ¬ m.Runs Meaning.done code 0 (Frame.enter args) w .stuck) :
    Safe m.arity code 0 (.enter args.length) := by
  intro hrun
  rw [← Frame.outline_enter (H := H) args] at hrun
  exact h (hm.runs_of_bare hrun)

end Meaning.Open

end ForkLisp.Behaviour
