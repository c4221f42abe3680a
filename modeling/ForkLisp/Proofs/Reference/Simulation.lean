/-
Terms against the reference evaluator.

A `Spec` relates computations of the reference evaluator to endings. `Simulates` says that a meaning
respects it: the operations, calls and groups of operands end as the evaluator does. Then every term
ends as the form does that it stands for (`resolves_agrees`), and so do bodies and functions.
-/
import ForkLisp.Proofs.Reference.Equations
import ForkLisp.Proofs.Terms.Resolve
import ForkLisp.Proofs.Terms.Running

namespace ForkLisp.Reference

open ForkLisp.Code ForkLisp.Compile ForkLisp.Machine ForkLisp.Reader ForkLisp.Source
  ForkLisp.Behaviour ForkLisp.Terms

variable {H W : Type}

/-! ### Forms that keep to something -/

mutual

/-- A form only calls functions among `calls`, and it assigns and prints only if
`writes` is true. -/
def Keeps (calls : FuncId → Prop) (writes : Prop) (names : Bindings FuncId) : Form → Prop
  | .list _ (.symbol _ name :: args) =>
    (match Builtin.ofName? name with
      | none => ∀ id, names.find? name = some id → calls id
      | some .assign | some .print => writes
      | some _ => True) ∧ KeepAll calls writes names args
  | _ => True

def KeepAll (calls : FuncId → Prop) (writes : Prop) (names : Bindings FuncId) : List Form → Prop
  | [] => True
  | f :: fs => Keeps calls writes names f ∧ KeepAll calls writes names fs

end

section

variable {calls : FuncId → Prop} {writes : Prop}

mutual

theorem keeps_of_forall (names : Bindings FuncId) (hc : ∀ id, calls id) (hw : writes) :
    ∀ f, Keeps calls writes names f
  | .int _ _ | .float _ _ | .symbol _ _ | .list _ [] | .list _ (.int _ _ :: _)
  | .list _ (.float _ _ :: _) | .list _ (.list _ _ :: _) => trivial
  | .list _ (.symbol _ name :: args) => by
    refine ⟨?_, keepAll_of_forall names hc hw args⟩
    split
    · exact fun id _ => hc id
    · exact hw
    · exact hw
    · trivial

theorem keepAll_of_forall (names : Bindings FuncId) (hc : ∀ id, calls id) (hw : writes) :
    ∀ fs, KeepAll calls writes names fs
  | [] => trivial
  | f :: fs => ⟨keeps_of_forall names hc hw f, keepAll_of_forall names hc hw fs⟩

end

end

/-! ### What is related -/

/-- A relation between computations and endings, and what it is meant for. -/
structure Spec (W : Type) where
  rel : {α : Type} → Eval α → W → Ending α W → Prop
  /-- The computations that may be followed by others. -/
  tame : {α : Type} → Eval α → Prop
  calls : FuncId → Prop
  writes : Prop
  spawns : Prop
  known : Global → Prop
  kind : FuncId → Kind

/-- An operand stands for a computation: a task for the call that it makes, and any other operand
for what it comes to. -/
inductive Serves (S : Spec W) (defs : FuncId → Option Closure) (m : Meaning Datum H W)
    (args : List Datum) : Term → Eval Datum → Prop where
  | task {f : FuncId} {us : List Term} {x : Eval (List Datum)} (hc : S.calls f) (hs : S.spawns)
      (ht : S.tame x) (h : ∀ w r, EvalsAll m args us w r → S.rel x w r) :
      Serves S defs m args (.task f us) (x >>= evaluateCall defs f)
  | value {t : Term} {y : Eval Datum} (hn : t.isTask = false)
      (h : ∀ w r, t.Evals m args w r → S.rel y w r) : Serves S defs m args t y

/-- Operands stand for computations, one by one. -/
inductive ServeAll (S : Spec W) (defs : FuncId → Option Closure) (m : Meaning Datum H W)
    (args : List Datum) : List Term → List (Eval Datum) → Prop where
  | nil : ServeAll S defs m args [] []
  | cons {t : Term} {y : Eval Datum} {ts : List Term} {ys : List (Eval Datum)} (ht : S.tame y)
      (h : Serves S defs m args t y) (hs : ServeAll S defs m args ts ys) :
      ServeAll S defs m args (t :: ts) (y :: ys)

/-- What the operands of an arithmetic form come to, once all tasks among them were joined. -/
def operandValues (m : Meaning Datum H W) (args : List Datum) (ts : List Term) (w : W) :
    Ending (List Datum) W → Prop :=
  andThen (EvalsOperands m args ts w) fun is w => joinAll m is w

/-- The operations of a meaning end as the reference evaluator does. -/
structure Simulates (S : Spec W) (defs : FuncId → Option Closure)
    (m : Meaning Datum H W) : Prop where
  int : m.int = Datum.int
  bool : m.bool = Datum.bool
  float : m.float = Datum.float
  pure : ∀ {α : Type} (v : α) w, S.rel (pure v) w (.value v w)
  not_stuck : ∀ {α : Type} (x : Eval α) w, ¬ S.rel x w .stuck
  bind : ∀ {α β : Type} {x : Eval α} {f : α → Eval β} {w r o}, S.tame x → S.rel x w r →
    r.into o (fun v w => S.rel (f v) w o) → S.rel (x >>= f) w o
  tame_pure : ∀ {α : Type} (v : α), S.tame (Pure.pure v)
  tame_bind : ∀ {α β : Type} {x : Eval α} {f : α → Eval β}, S.tame x → (∀ v, S.tame (f v)) →
    S.tame (x >>= f)
  tame_answer : ∀ {α : Type} (strict : Bool) (a : Except Fault α), S.tame (answer strict a)
  tame_evaluate : ∀ names env f, Keeps S.calls S.writes names f → S.tame (evaluate defs names env f)
  arith : ∀ op u v a w, m.arith op u v a → S.rel (operate op u v) w (.ofAnswer a w)
  negate : ∀ v a w, m.negate v a → S.rel (answer false v.negate) w (.ofAnswer a w)
  test : ∀ c u v a w, m.test c u v a → S.rel (answer false (u.compare c v)) w (.ofAnswer a w)
  load : ∀ g w r, S.known g → m.load g w r →
    S.rel (do let mem ← get; Pure.pure (mem.globals g.name)) w r
  store : ∀ g v w r o, S.writes → S.known g → m.store g v w r →
    r.into o (fun _ w => o = .value v w) →
    S.rel (do modify fun mem => mem.assign g.name v; Pure.pure v) w o
  print : ∀ truth v w r o, S.writes → (truth = true → v.IsBool) → m.print truth v w r →
    r.into o (fun _ w => o = .value v w) →
    S.rel (do
      let line ← answer false v.slot.printed
      modify fun mem => mem.print line
      Pure.pure v) w o
  call : ∀ f args w r, S.calls f → m.call f args w r → S.rel (evaluateCall defs f args) w r
  kinds : ∀ f args w v w', S.calls f → m.call f args w (.value v w') → S.kind f = .bool → v.IsBool
  operands : ∀ args ts ys w r, ServeAll S defs m args ts ys → operandValues m args ts w r →
    S.rel (collect ys) w r

/-- A scope speaks of what a relation is meant for. -/
structure Suits (S : Spec W) (s : Scope) : Prop where
  known : ∀ g, s.known g → S.known g
  spawns : s.spawns = true → S.spawns
  kinds : ∀ id f, s.functions id = some f → f.kind = .bool → S.kind id = .bool

/-! ### Operands -/

section

variable {m : Meaning Datum H W} {args : List Datum}

/-- There are as many items as operands, unless some operand has no meaning. -/
theorem length_of_evalsOperands {ts : List Term} {w w' : W} {is : List (Datum ⊕ H)}
    (h : EvalsOperands m args ts w (.value is w')) :
    is.length = ts.length ∨ EvalsOperands m args ts w .stuck := by
  induction ts generalizing w is w' with
  | nil =>
    unfold EvalsOperands at h
    cases h
    exact .inl rfl
  | cons t ts ih =>
    rw [evalsOperands_cons] at h ⊢
    obtain ⟨r, hr, hinto⟩ := h
    cases r with
    | fault e w₁ => exact absurd hinto (by simp [Ending.into])
    | stuck => exact .inr ⟨.stuck, hr, trivial⟩
    | value i w₁ =>
      obtain ⟨r', hr', hinto'⟩ := hinto
      cases r' with
      | fault e w₂ => exact absurd hinto' (by simp [Ending.into])
      | stuck => exact .inr ⟨_, hr, .stuck, hr', trivial⟩
      | value js w₂ =>
        rcases ih hr' with hlen | hstuck
        · cases hinto'
          exact .inl (by rw [List.length_cons, List.length_cons, hlen])
        · exact .inr ⟨_, hr, .stuck, hstuck, trivial⟩

theorem length_of_joinAll {is : List (Datum ⊕ H)} {w w' : W} {vs : List Datum}
    (h : joinAll m is w (.value vs w')) : vs.length = is.length ∨ joinAll m is w .stuck := by
  induction is generalizing w vs w' with
  | nil =>
    cases h
    exact .inl rfl
  | cons i is ih =>
    have hrest : ∀ {v w₁}, andThen (joinAll m is w₁) (fun vs w => (· = .value (v :: vs) w))
        (.value vs w') → vs.length = (i :: is).length ∨ joinAll m is w₁ .stuck := by
      rintro v w₁ ⟨r, hr, hinto⟩
      cases r with
      | fault e w₂ => exact absurd hinto (by simp [Ending.into])
      | stuck => exact .inr hr
      | value us w₂ =>
        rcases ih hr with hlen | hstuck
        · cases hinto
          exact .inl (by rw [List.length_cons, List.length_cons, hlen])
        · exact .inr hstuck
    cases i with
    | inl v => exact (hrest h).imp_right fun hstuck => ⟨.stuck, hstuck, trivial⟩
    | inr p =>
      obtain ⟨r, hr, hinto⟩ := h
      cases r with
      | fault e w₁ => exact absurd hinto (by simp [Ending.into])
      | stuck => exact .inr ⟨.stuck, hr, trivial⟩
      | value v w₁ =>
        exact (hrest hinto).imp_right fun hstuck => ⟨_, hr, .stuck, hstuck, trivial⟩

theorem followed_operandValues {ts : List Term} {w : W} {o : Ending Datum W}
    {use : List Datum → W → Ending Datum W → Prop}
    (h : andThen (EvalsOperands m args ts w) (fun is w => andThen (joinAll m is w) use) o) :
    Followed o (fun vs w => use vs w o) (operandValues m args ts w) :=
  Followed.andThen h

theorem length_of_operandValues {ts : List Term} {w w' : W} {vs : List Datum}
    (h : operandValues m args ts w (.value vs w')) :
    vs.length = ts.length ∨ operandValues m args ts w .stuck := by
  obtain ⟨r, hr, hinto⟩ := h
  cases r with
  | fault e w₁ => exact absurd hinto (by simp [Ending.into])
  | stuck => exact .inr ⟨.stuck, hr, trivial⟩
  | value is w₁ =>
    rcases length_of_evalsOperands hr with hlen | hstuck
    · exact (length_of_joinAll hinto).imp (·.trans hlen) fun hstuck => ⟨_, hr, hstuck⟩
    · exact .inr ⟨.stuck, hstuck, trivial⟩

end

namespace Simulates

variable {S : Spec W} {defs : FuncId → Option Closure} {m : Meaning Datum H W} {args : List Datum}

/-- What a computation that has a value in the end began with. -/
theorem value_of_into (hS : Simulates S defs m) {α β : Type} {x : Eval α} {w w' : W}
    {r : Ending α W} {v : β} {use : α → W → Prop} (hr : S.rel x w r)
    (hinto : r.into (.value v w') use) : ∃ u w₁, r = .value u w₁ ∧ use u w₁ := by
  cases r with
  | value u w₁ => exact ⟨u, w₁, rfl, hinto⟩
  | fault e w₁ => exact absurd hinto (by simp [Ending.into])
  | stuck => exact absurd hr (hS.not_stuck _ _)

/-- Values are combined from the left as the evaluator does it. -/
theorem foldAll (hS : Simulates S defs m) {op : ArithOp} {u : Datum} {vs : List Datum} {w : W}
    {o : Ending Datum W} (h : Terms.foldAll m op u vs w o) :
    S.rel (vs.foldlM (operate op) u) w o := by
  induction vs generalizing u with
  | nil =>
    cases h
    exact hS.pure u w
  | cons v vs ih =>
    obtain ⟨a, ha, ho⟩ := h
    rw [List.foldlM_cons]
    refine hS.bind (hS.tame_answer _ _) (hS.arith op u v a w ha) (Ending.ofAnswer_into.mpr ?_)
    exact orFault_mono (fun x _ hx => ih hx) ho

theorem tame_evaluateAll (hS : Simulates S defs m) {names : Bindings FuncId}
    {env : List (String × Datum)} {fs : List Form} (h : KeepAll S.calls S.writes names fs) :
    S.tame (evaluateAll defs names env fs) := by
  induction fs with
  | nil =>
    rw [evaluateAll_nil]
    exact hS.tame_pure []
  | cons f fs ih =>
    rw [evaluateAll_cons]
    exact hS.tame_bind (hS.tame_evaluate names env f h.1) fun v =>
      hS.tame_bind (ih h.2) fun vs => hS.tame_pure (v :: vs)

/-- A comparison of two values decides between two computations. -/
theorem cond (hS : Simulates S defs m) {skip : Comparison} {a b first second : Term}
    {x y e e' : Eval Datum} {w : W} {o : Ending Datum W} (hx : S.tame x) (hy : S.tame y)
    (ha : ∀ w o, a.Evals m args w o → S.rel x w o) (hb : ∀ w o, b.Evals m args w o → S.rel y w o)
    (hfirst : ∀ w o, first.Evals m args w o → S.rel e w o)
    (hsecond : ∀ w o, second.Evals m args w o → S.rel e' w o)
    (h : (Term.cond skip a b first second).Evals m args w o) :
    S.rel (do
      let u ← x
      let v ← y
      let s ← answer false (u.compare skip v)
      if !s then e else e') w o := by
  obtain ⟨r, hr, hinto⟩ := h
  refine hS.bind hx (ha _ _ hr) (Ending.into_mono (fun u w₁ _ hu => ?_) hinto)
  obtain ⟨r', hr', hinto'⟩ := hu
  refine hS.bind hy (hb _ _ hr') (Ending.into_mono (fun v w₂ _ hv => ?_) hinto')
  obtain ⟨c, hc, ho⟩ := hv
  refine hS.bind (hS.tame_answer _ _) (hS.test skip u v c w₂ hc) (Ending.ofAnswer_into.mpr ?_)
  refine orFault_mono (fun s _ hs => ?_) ho
  cases s with
  | true => exact hsecond _ _ hs
  | false => exact hfirst _ _ hs

/-- The value of a conditional is that of an alternative. -/
theorem value_of_cond (hS : Simulates S defs m) {skip : Comparison} {a b first second : Term}
    {x y : Eval Datum} {w w' : W} {v : Datum}
    (ha : ∀ w o, a.Evals m args w o → S.rel x w o) (hb : ∀ w o, b.Evals m args w o → S.rel y w o)
    (h : (Term.cond skip a b first second).Evals m args w (.value v w')) :
    ∃ w₁, first.Evals m args w₁ (.value v w') ∨ second.Evals m args w₁ (.value v w') := by
  obtain ⟨r, hr, hinto⟩ := h
  obtain ⟨u, w₁, rfl, r', hr', hinto'⟩ := hS.value_of_into (ha _ _ hr) hinto
  obtain ⟨u', w₂, rfl, c, -, ho⟩ := hS.value_of_into (hb _ _ hr') hinto'
  cases c with
  | error e => exact absurd ho (by simp [orFault])
  | ok s =>
    cases s with
    | true => exact ⟨w₂, .inr ho⟩
    | false => exact ⟨w₂, .inl ho⟩

end Simulates

theorem exists_of_two_le {α : Type} {vs : List α} (h : 2 ≤ vs.length) :
    ∃ u v us, vs = u :: v :: us := by
  match vs, h with
  | u :: v :: us, _ => exact ⟨u, v, us, rfl⟩

/-! ### Forms -/

/-- An ending is one of a computation, and a truth value if that is the kind. -/
def Agrees (S : Spec W) (k : Kind) (x : Eval Datum) (w : W) (o : Ending Datum W) : Prop :=
  S.rel x w o ∧ (k = .bool → ∀ v w', o = .value v w' → v.IsBool)

section

variable {S : Spec W} {k k' : Kind} {x y : Eval Datum} {w : W} {o : Ending Datum W}

/-- A computation whose kind is not that of truth values only has to be related. -/
theorem Agrees.of_rel (h : S.rel x w o) (hk : k ≠ .bool) : Agrees S k x w o :=
  ⟨h, fun hbool => absurd hbool hk⟩

namespace Simulates

variable {defs : FuncId → Option Closure} {m : Meaning Datum H W} {args : List Datum}

theorem agrees_bool (hS : Simulates S defs m) (b : Bool) (h : (Term.bool b).Evals m args w o) :
    Agrees S k (Pure.pure (Datum.bool b)) w o := by
  unfold Term.Evals at h
  rw [hS.bool] at h
  rw [h]
  exact ⟨hS.pure _ w, fun _ v w' hv => ⟨b, (Ending.value.inj hv).1.symm⟩⟩

/-- A call is of the kind of its function. -/
theorem agrees_call (hS : Simulates S defs m) {f : FuncId} {ts : List Term} {xs : Eval (List Datum)}
    (hcalls : S.calls f) (hkind : k = .bool → S.kind f = .bool) (hxs : S.tame xs)
    (hrel : ∀ w r, EvalsAll m args ts w r → S.rel xs w r) (h : (Term.call f ts).Evals m args w o) :
    Agrees S k (xs >>= evaluateCall defs f) w o := by
  unfold Term.Evals at h
  obtain ⟨r, hr, hinto⟩ := h
  refine ⟨hS.bind hxs (hrel w r hr)
    (Ending.into_mono (fun vs w₁ _ hv => hS.call f vs w₁ o hcalls hv) hinto), ?_⟩
  rintro hbool v w' rfl
  obtain ⟨vs, w₁, rfl, hv⟩ := hS.value_of_into (hrel w r hr) hinto
  exact hS.kinds f vs w₁ v w' hcalls hv (hkind hbool)

theorem rel_negate (hS : Simulates S defs m) {t : Term} (hx : S.tame x)
    (hrel : ∀ w o, t.Evals m args w o → S.rel x w o) (h : (Term.negate t).Evals m args w o) :
    S.rel (do let v ← x; answer false v.negate) w o := by
  unfold Term.Evals at h
  obtain ⟨r, hr, hinto⟩ := h
  refine hS.bind hx (hrel w r hr) (Ending.into_mono (fun v w₁ _ hv => ?_) hinto)
  obtain ⟨a, ha, ho⟩ := hv
  have heq : o = .ofAnswer a w₁ := by
    cases a <;> exact ho
  rw [heq]
  exact hS.negate v a w₁ ha

/-- At least two operands are combined. -/
theorem rel_arith (hS : Simulates S defs m) {op : ArithOp} {t : Term} {ts : List Term}
    {ys : List (Eval Datum)} (hne : ts ≠ []) (hys : S.tame (collect ys))
    (hserve : ServeAll S defs m args (t :: ts) ys) (h : (Term.arith op t ts).Evals m args w o) :
    S.rel (collect ys >>= combine op) w o := by
  rw [evals_arith] at h
  obtain ⟨r, hr, hinto⟩ := followed_operandValues h
  have hrel := hS.operands args _ ys w r hserve hr
  refine hS.bind hys hrel (Ending.into_mono (fun vs w₁ hvs hv => ?_) hinto)
  subst hvs
  have hcount : vs.length = (t :: ts).length :=
    (length_of_operandValues hr).resolve_right fun hstuck =>
      hS.not_stuck _ w (hS.operands args _ ys w _ hserve hstuck)
  have htwo : 2 ≤ vs.length := by
    rw [hcount, List.length_cons]
    exact Nat.succ_le_succ (List.length_pos_iff.mpr hne)
  obtain ⟨u, v, us, rfl⟩ := exists_of_two_le htwo
  exact hS.foldAll hv

/-- A conditional is of the kind of both alternatives. -/
theorem agrees_cond (hS : Simulates S defs m) {skip : Comparison} {a b first second : Term}
    {e e' : Eval Datum} (hx : S.tame x) (hy : S.tame y)
    (ha : ∀ w o, a.Evals m args w o → S.rel x w o) (hb : ∀ w o, b.Evals m args w o → S.rel y w o)
    (hfirst : ∀ w o, first.Evals m args w o → Agrees S k e w o)
    (hsecond : ∀ w o, second.Evals m args w o → Agrees S k' e' w o)
    (h : (Term.cond skip a b first second).Evals m args w o) :
    Agrees S (k.merge k') (do
      let u ← x
      let v ← y
      let s ← answer false (u.compare skip v)
      if !s then e else e') w o := by
  refine ⟨hS.cond hx hy ha hb (fun w o ho => (hfirst w o ho).1) (fun w o ho =>
    (hsecond w o ho).1) h, ?_⟩
  rintro hbool v w' rfl
  obtain ⟨w₁, ho | ho⟩ := hS.value_of_cond ha hb h
  · exact (hfirst _ _ ho).2 (Kind.of_merge_bool hbool).1 v w' rfl
  · exact (hsecond _ _ ho).2 (Kind.of_merge_bool hbool).2 v w' rfl

/-- What is done with a value before it is passed on does not change its kind. -/
theorem agrees_passed (hS : Simulates S defs m) {r : Ending Datum W}
    {act : Datum → W → Ending Unit W → Prop} {rest : Datum → Eval Datum} (hx : S.tame x)
    (hvalue : Agrees S k x w r)
    (hrest : ∀ v w₁ r' o, r = .value v w₁ → act v w₁ r' → r'.into o (fun _ w => o = .value v w) →
      S.rel (rest v) w₁ o)
    (hinto : r.into o fun v w => andThen (act v w) (fun _ w => (· = .value v w)) o) :
    Agrees S k (x >>= rest) w o := by
  refine ⟨hS.bind hx hvalue.1 (Ending.into_mono (fun v w₁ hv hu => ?_) hinto), ?_⟩
  · obtain ⟨r', hr', hinto'⟩ := hu
    exact hrest v w₁ r' o hv hr' hinto'
  · rintro hbool v w' rfl
    obtain ⟨u, w₁, rfl, r', hr', hinto'⟩ := hS.value_of_into hvalue.1 hinto
    cases r' with
    | fault e w₂ => exact absurd hinto' (by simp [Ending.into])
    | stuck => exact absurd (hrest u w₁ .stuck .stuck rfl hr' trivial) (hS.not_stuck _ _)
    | value y w₂ =>
      obtain ⟨rfl, -⟩ := Ending.value.inj hinto'
      exact hvalue.2 hbool _ _ rfl

end Simulates

end

section

variable {S : Spec W} {defs : FuncId → Option Closure} {m : Meaning Datum H W} {s : Scope}
  {params : List String} {args : List Datum}

mutual

/-- A term ends as its form does. -/
theorem resolves_agrees (hS : Simulates S defs m) (hs : Suits S s)
    (hlen : args.length = params.length) : ∀ {f t k}, Resolves s params f t k →
    Keeps S.calls S.writes s.names f → ∀ w o, t.Evals m args w o →
    Agrees S k (evaluate defs s.names (params.zip args) f) w o
  | _, _, _, .int, _, w, o, h => by
    unfold Term.Evals at h
    rw [hS.int] at h
    rw [evaluate_int, h]
    exact .of_rel (hS.pure _ w) (by simp)
  | _, _, _, .float, _, w, o, h => by
    unfold Term.Evals at h
    rw [hS.float] at h
    rw [evaluate_float, h]
    exact .of_rel (hS.pure _ w) (by simp)
  | _, _, _, .truth ht, _, w, o, h => by
    rw [evaluate_truth ht]
    exact hS.agrees_bool _ h
  | _, _, _, .param ht hi, _, w, o, h => by
    unfold Term.Evals at h
    have hv := List.getElem?_eq_getElem (hlen ▸ lt_of_idxOf? hi)
    rw [evaluate_param ht (lookup_zip_of_idxOf? hi hv), h _ hv]
    exact .of_rel (hS.pure _ w) (by simp)
  | _, _, _, .global ht hi hg, _, w, o, h => by
    unfold Term.Evals at h
    rw [evaluate_global ht (lookup_zip_of_not_mem args hi)]
    exact .of_rel (hS.load _ w o (hs.known _ hg) h) (by simp)
  | _, _, _, .nil, _, w, o, h => by
    rw [evaluate_nil]
    exact hS.agrees_bool false h
  | _, _, _, .call (f := fn) hb hid hf hn ha, hk, w, o, h => by
    unfold Keeps at hk
    rw [hb] at hk
    rw [evaluate_call hb hid]
    exact hS.agrees_call (hk.1 _ hid) (hs.kinds _ fn hf) (hS.tame_evaluateAll hk.2)
      (resolvesAll_rel hS hs hlen ha hk.2) h
  | _, _, _, .neutral hb, _, w, o, h => by
    unfold Term.Evals at h
    rw [hS.int] at h
    rw [evaluate_arith hb, evaluateAll_nil, pure_bind, h]
    exact .of_rel (hS.pure _ w) (by simp)
  | _, _, _, .same hb hop hf, hk, w, o, h => by
    unfold Keeps at hk
    have hrel := (resolves_agrees hS hs hlen hf hk.2.1 w o h).1
    rw [evaluate_arith hb]
    simp only [evaluateAll_cons, evaluateAll_nil, bind_assoc, pure_bind,
      combine_same hop, bind_pure]
    exact .of_rel hrel (by simp)
  | _, _, _, .negate hb hf, hk, w, o, h => by
    unfold Keeps at hk
    have hrel := fun w o ho => (resolves_agrees hS hs hlen hf hk.2.1 w o ho).1
    rw [evaluate_arith hb]
    simp only [evaluateAll_cons, evaluateAll_nil, bind_assoc, pure_bind, combine_negate]
    exact .of_rel (hS.rel_negate (hS.tame_evaluate _ _ _ hk.2.1) hrel h) (by simp)
  | _, _, _, .arith hb hne hf, hk, w, o, h => by
    unfold Keeps at hk
    have hserve := resolvesOperands_serveAll hS hs hlen hf hk.2
    have htame : S.tame (evaluateAll defs s.names (params.zip args) _) := hS.tame_evaluateAll hk.2
    have hmore := List.ne_nil_of_length_pos
      (Nat.lt_of_lt_of_eq (List.length_pos_iff.mpr hne) (Nat.succ.inj hf.length).symm)
    rw [evaluateAll_eq] at htame
    rw [evaluate_arith hb, evaluateAll_eq]
    exact .of_rel (hS.rel_arith hmore htame hserve h) (by simp)
  | _, _, _, .compare hb hl hr, hk, w, o, h => by
    unfold Keeps at hk
    rw [evaluate_compare hb]
    simp only [compare_swap]
    exact hS.agrees_cond (hS.tame_evaluate _ _ _ hk.2.1) (hS.tame_evaluate _ _ _ hk.2.2.1)
      (fun w o ho => (resolves_agrees hS hs hlen hl hk.2.1 w o ho).1)
      (fun w o ho => (resolves_agrees hS hs hlen hr hk.2.2.1 w o ho).1)
      (fun _ _ => hS.agrees_bool (k := .bool) true) (fun _ _ => hS.agrees_bool (k := .bool) false) h
  | _, _, _, .short hb hc hf, hk, w, o, h => by
    unfold Keeps at hk
    obtain ⟨x, y, htx, hty, hx, hy, heq⟩ := resolvesTest_rel hS hs hlen hc hk.2.1
    rw [evaluate_short hb, heq]
    exact hS.agrees_cond htx hty hx hy (resolves_agrees hS hs hlen hf hk.2.2.1)
      (fun _ _ => hS.agrees_bool false) h
  | _, _, _, .full hb hc hf hf', hk, w, o, h => by
    unfold Keeps at hk
    obtain ⟨x, y, htx, hty, hx, hy, heq⟩ := resolvesTest_rel hS hs hlen hc hk.2.1
    rw [evaluate_full hb, heq]
    exact hS.agrees_cond htx hty hx hy (resolves_agrees hS hs hlen hf hk.2.2.1)
      (resolves_agrees hS hs hlen hf' hk.2.2.2.1) h
  | _, _, _, .assign hb hg hf, hk, w, o, h => by
    unfold Keeps at hk
    rw [hb] at hk
    unfold Term.Evals at h
    obtain ⟨r, hr, hinto⟩ := h
    rw [evaluate_assign hb]
    exact hS.agrees_passed (hS.tame_evaluate _ _ _ hk.2.2.1)
      (resolves_agrees hS hs hlen hf hk.2.2.1 w r hr)
      (fun v w₁ r' o _ => hS.store _ v w₁ r' o hk.1 (hs.known _ hg)) hinto
  | _, _, _, .print hb hf, hk, w, o, h => by
    unfold Keeps at hk
    rw [hb] at hk
    unfold Term.Evals at h
    obtain ⟨r, hr, hinto⟩ := h
    have hvalue := resolves_agrees hS hs hlen hf hk.2.1 w r hr
    rw [evaluate_print hb]
    -- what is printed as a truth value is one, for the kind of the form says so
    exact hS.agrees_passed (hS.tame_evaluate _ _ _ hk.2.1) hvalue (fun v w₁ r' o hv =>
      hS.print _ v w₁ r' o hk.1 fun htruth => hvalue.2 (of_decide_eq_true htruth) v w₁ hv) hinto

theorem resolvesAll_rel (hS : Simulates S defs m) (hs : Suits S s)
    (hlen : args.length = params.length) : ∀ {fs ts}, ResolvesAll s params fs ts →
    KeepAll S.calls S.writes s.names fs → ∀ w o, EvalsAll m args ts w o →
    S.rel (evaluateAll defs s.names (params.zip args) fs) w o
  | _, _, .nil, _, w, o, h => by
    unfold EvalsAll at h
    rw [evaluateAll_nil, h]
    exact hS.pure [] w
  | _, _, .cons hf hfs, hk, w, o, h => by
    unfold EvalsAll at h
    obtain ⟨r, hr, hinto⟩ := h
    rw [evaluateAll_cons]
    refine hS.bind (hS.tame_evaluate _ _ _ hk.1) (resolves_agrees hS hs hlen hf hk.1 w r hr).1
      (Ending.into_mono (fun v w₁ _ hv => ?_) hinto)
    obtain ⟨r', hr', hinto'⟩ := hv
    refine hS.bind (hS.tame_evaluateAll hk.2) (resolvesAll_rel hS hs hlen hfs hk.2 w₁ r' hr')
      (Ending.into_mono (fun vs w₂ _ ho => ?_) hinto')
    rw [ho]
    exact hS.pure (v :: vs) w₂

theorem resolvesOperands_serveAll (hS : Simulates S defs m) (hs : Suits S s)
    (hlen : args.length = params.length) : ∀ {fs ts}, ResolvesOperands s params fs ts →
    KeepAll S.calls S.writes s.names fs →
    ServeAll S defs m args ts (fs.map (evaluate defs s.names (params.zip args)))
  | _, _, .nil, _ => .nil
  | _, _, .value hf hfs, hk =>
    .cons (hS.tame_evaluate _ _ _ hk.1)
      (.value hf.not_task fun w o ho => (resolves_agrees hS hs hlen hf hk.1 w o ho).1)
      (resolvesOperands_serveAll hS hs hlen hfs hk.2)
  | _, _, .task hsp hb hid hf hn ha hfs, hk => by
    refine .cons (hS.tame_evaluate _ _ _ hk.1) ?_ (resolvesOperands_serveAll hS hs hlen hfs hk.2)
    have hkeep := hk.1
    unfold Keeps at hkeep
    rw [hb] at hkeep
    rw [evaluate_call hb hid]
    exact .task (hkeep.1 _ hid) (hs.spawns hsp) (hS.tame_evaluateAll hkeep.2)
      (resolvesAll_rel hS hs hlen ha hkeep.2)

theorem resolvesTest_rel (hS : Simulates S defs m) (hs : Suits S s)
    (hlen : args.length = params.length) : ∀ {f skip a b}, ResolvesTest s params f skip a b →
    Keeps S.calls S.writes s.names f → ∃ x y : Eval Datum, S.tame x ∧ S.tame y ∧
      (∀ w o, a.Evals m args w o → S.rel x w o) ∧ (∀ w o, b.Evals m args w o → S.rel y w o) ∧
      ∀ k : Bool → Eval Datum,
        (do
          let v ← evaluate defs s.names (params.zip args) f
          let b ← answer false v.isTrue
          k b) = (do
          let u ← x
          let v ← y
          let b ← answer false (u.compare skip v)
          k !b)
  | _, _, _, _, .compared hb hl hr, hk => by
    unfold Keeps at hk
    have hkl := hk.2.1
    have hkr := hk.2.2.1
    refine ⟨_, _, hS.tame_evaluate _ _ _ hkl, hS.tame_evaluate _ _ _ hkr,
      fun w o ho => (resolves_agrees hS hs hlen hl hkl w o ho).1,
      fun w o ho => (resolves_agrees hS hs hlen hr hkr w o ho).1, fun k => ?_⟩
    rw [evaluate_compare hb]
    exact isTrue_compared _ _ _ k
  | _, _, _, _, .value hf, hk => by
    refine ⟨_, _, hS.tame_evaluate _ _ _ hk, hS.tame_pure _,
      fun w o ho => (resolves_agrees hS hs hlen hf hk w o ho).1, fun w o ho => ?_,
      fun k => isTrue_value _ k⟩
    unfold Term.Evals at ho
    rw [hS.int] at ho
    rw [ho]
    exact hS.pure _ w

end

/-! ### Bodies and functions -/

/-- A body ends as its forms do. -/
theorem resolvesBody_agrees (hS : Simulates S defs m) (hs : Suits S s)
    (hlen : args.length = params.length) {fs : List Form} {ts : List Term} {k : Kind}
    (h : ResolvesBody s params fs ts k) (hk : KeepAll S.calls S.writes s.names fs) {w : W}
    {o : Ending Datum W} (ho : EvalsBody m args ts w o) :
    Agrees S k (evaluateBody defs s.names (params.zip args) fs) w o := by
  induction h generalizing w with
  | @last f t k hf =>
    obtain ⟨r, hr, hinto⟩ := ho
    have hagrees := resolves_agrees hS hs hlen hf hk.1 w r hr
    rw [evaluateBody_last]
    cases r with
    | value v w₁ => exact hinto ▸ hagrees
    | fault e w₁ => exact hinto ▸ hagrees
    | stuck => exact absurd hagrees.1 (hS.not_stuck _ _)
  | @more f fs t ts k k' hf hfs ih =>
    have hmore : andThen (t.Evals m args w) (fun _ w => EvalsBody m args ts w) o := by
      cases ts with
      | nil => exact absurd rfl hfs.ne_nil
      | cons t' ts => exact ho
    obtain ⟨r, hr, hinto⟩ := hmore
    have hrel := (resolves_agrees hS hs hlen hf hk.1 w r hr).1
    cases hfs' : fs with
    | nil => exact absurd (hfs' ▸ hfs) (by rintro ⟨⟩)
    | cons f' fs' =>
      rw [evaluateBody_more, ← hfs']
      refine ⟨hS.bind (hS.tame_evaluate _ _ _ hk.1) hrel
        (Ending.into_mono (fun _ _ _ hu => (ih hk.2 hu).1) hinto), ?_⟩
      rintro hkind v w' rfl
      obtain ⟨_, _, -, hu⟩ := hS.value_of_into hrel hinto
      exact (ih hk.2 hu).2 hkind v w' rfl

/-- A meaning lets functions come to all that the evaluator allows. -/
def Permissive (S : Spec W) (defs : FuncId → Option Closure) (m : Meaning Datum H W) : Prop :=
  ∀ f args w r, (S.calls f → Agrees S (S.kind f) (evaluateCall defs f args) w r) → m.call f args w r

/-- Running the code of a body is making a call. -/
theorem call_of_runs (hS : Simulates S defs m) (hp : Permissive S defs m) (hs : Suits S s)
    {f : FuncId} {body : List Form} {ts : List Term} {k : Kind}
    (hdef : defs f = some ⟨params, body, s.names⟩) (h : ResolvesBody s params body ts k)
    (hk : S.calls f → KeepAll S.calls S.writes s.names body) (hkind : S.kind f = .bool → k = .bool)
    (harity : ∀ n a, s.arity n = some a → m.arity n = some a) (hlen : args.length = params.length)
    {w : W} {o : Ending Datum W}
    (ho : m.Runs Meaning.done (bodyCode ts params.length) 0 (Frame.enter args) w o) :
    m.call f args w o := by
  have hscoped := AllScoped.mono harity (fun _ hg => hg) ts h.scoped
  have hbody := bodyCode_runs h.ne_nil (hlen ▸ hscoped) (hlen ▸ ho)
  refine hp f args w o fun hc => ?_
  have hagrees := resolvesBody_agrees hS hs hlen h (hk hc) hbody
  rw [evaluateCall_eq hdef]
  exact ⟨hagrees.1, fun hb => hagrees.2 (hkind hb)⟩

end

end ForkLisp.Reference
