/-
Compiled functions and their closures.

A function of a traced context makes the calls that a meaning allows for its closure, whether its
code was optimized or not (`Traced.call_of_runs`). The argument is by induction on the index of the
function: code calls functions that were defined before it and the function itself, and optimized
code holds copies of theirs. So a program of the context has the functions that the meaning speaks
of (`Traced.fulfils`), and the code of a form ends as the form may (`Traced.entry_agrees`).
-/
import ForkLisp.Proofs.Compile.Origin
import ForkLisp.Proofs.Machine.Conduct
import ForkLisp.Proofs.Optimize.Soundness
import ForkLisp.Proofs.Reference.Simulation
import ForkLisp.Proofs.Terms.Emitted

namespace ForkLisp.Compile

open ForkLisp.Code ForkLisp.Machine ForkLisp.Optimize ForkLisp.Reader ForkLisp.Reference
  ForkLisp.Behaviour ForkLisp.Terms

variable {H W : Type}

theorem Algebraic.withArity {m : Meaning Datum H W} (h : m.Algebraic)
    (arity : FuncId → Option Nat) :
    (m.withArity arity).Algebraic :=
  ⟨h.sub_int, h.add_zero, h.mul_one, h.div_one, h.mul_zero, h.arith_total, h.negate_total, h.fold,
    h.comm, h.merge, h.reverse, h.static, h.bool_left, h.bool_right, h.test_total, h.load_total⟩

/-- A meaning that the code of a context has: its operations end as the relation `S` says, calls may
come to all that `S` allows, and rewritings are justified if code is optimized. -/
structure Interprets (c : Context) (defs : FuncId → Option Closure) (S : Spec W)
    (m : Meaning Datum H W) : Prop where
  simulates : ∀ arity, Simulates S defs (m.withArity arity)
  permissive : Permissive S defs m
  algebraic : c.settings.optimize = true → m.Algebraic
  known : ∀ g, Knows c g → S.known g
  spawns : c.settings.spawn = true → S.spawns
  kind : ∀ id f, c.function? id = some f → (S.kind id = .bool ↔ f.kind = .bool)
  keeps : ∀ id cl, defs id = some cl → S.calls id → KeepAll S.calls S.writes cl.names cl.body

section

variable {c own : Context} {closures : List Closure} {id : FuncId} {f : Function} {cl : Closure}
  {ts : List Term} {m : Meaning Datum H W}

/-- In the context in which a function was compiled there are the functions up to it. -/
theorem Origin.arity_eq (h : Origin c own id f cl ts) (hf : c.function? id = some f) (n : FuncId) :
    (scopeOf own).arity n = if n ≤ id then (scopeOf c).arity n else none := by
  show (own.function? n).map Function.arity =
    if n ≤ id then (c.function? n).map Function.arity else none
  rcases Nat.lt_trichotomy n id with hlt | rfl | hgt
  · rw [if_pos (Nat.le_of_lt hlt), h.earlier n hlt]
  · obtain ⟨g, hg, hparams, -⟩ := h.self
    rw [if_pos (Nat.le_refl n), hg, hf]
    exact congrArg (fun ps : List String => some ps.length) hparams
  · have hnone : own.function? n = none := by
      refine Array.getElem?_eq_none ?_
      rw [h.size]
      exact hgt
    rw [if_neg (Nat.not_le_of_lt hgt), hnone]
    rfl

theorem Origin.arity_of (h : Origin c own id f cl ts) (hf : c.function? id = some f) {n : FuncId}
    {k : Nat} (hn : (scopeOf own).arity n = some k) : n ≤ id ∧ (scopeOf c).arity n = some k := by
  rw [h.arity_eq hf] at hn
  split at hn
  · rename_i hle
    exact ⟨hle, hn⟩
  · cases hn

/-- Final code has only endings of the code as it was generated. -/
theorem finalCode_refines {this : Option FuncId} {raw : ForkLisp.Code} (ho : Orderly raw)
    (hm : own.settings.optimize = true → (Subject.mk own this raw).Means m) :
    Refines m (finalCode own this raw).1 raw := by
  unfold finalCode
  split
  · rename_i hopt
    dsimp only
    split
    · rename_i code hcode
      exact (hm hopt).optimize_refines hcode
    · exact .refl ho
  · exact .refl ho

theorem Interprets.suits {defs : FuncId → Option Closure} {S : Spec W}
    (hi : Interprets c defs S m) :
    Suits S (scopeOf c) :=
  ⟨hi.known, hi.spawns, fun n g hn hk => (hi.kind n g hn).mpr hk⟩

theorem Origin.suits (h : Origin c own id f cl ts) {defs : FuncId → Option Closure} {S : Spec W}
    (hi : Interprets c defs S m) : Suits S (scopeOf own) where
  known g hg := hi.known g (h.known g hg)
  spawns hs := hi.spawns (h.settings ▸ hs)
  kinds n g hn hk := by
    have hn : own.function? n = some g := hn
    rcases Nat.lt_trichotomy n id with hlt | rfl | hgt
    · exact (hi.kind n g ((h.earlier n hlt).symm.trans hn)).mpr hk
    · obtain ⟨g', hg', -, hint⟩ := h.self
      obtain rfl := Option.some.inj (hg'.symm.trans hn)
      exact absurd (hint.symm.trans hk) (by decide)
    · have hlt : n < own.functions.size := (Array.getElem?_eq_some_iff.mp hn).1
      rw [h.size] at hlt
      exact absurd hlt (Nat.not_lt_of_le hgt)

/-- The code of a function as it was generated makes the calls of its closure. -/
theorem Origin.raw_call (h : Origin c own id f cl ts) (hf : c.function? id = some f)
    {defs : FuncId → Option Closure} (hcl : defs id = some cl) {S : Spec W}
    (hi : Interprets c defs S m) {args : List Datum} {w : W} {o : Ending Datum W}
    (hlen : args.length = f.params.length)
    (ho : (m.withArity (scopeOf own).arity).Runs Meaning.done f.raw 0 (Frame.enter args) w o) :
    m.call id args w o := by
  have hdef : defs id = some ⟨f.params, cl.body, (scopeOf own).names⟩ := by
    rw [hcl, ← h.params]
    show some cl = some ⟨cl.params, cl.body, own.names⟩
    rw [← h.names]
  have hkeeps : S.calls id → KeepAll S.calls S.writes (scopeOf own).names cl.body := fun hc => by
    show KeepAll S.calls S.writes own.names cl.body
    rw [← h.names]
    exact hi.keeps id cl hcl hc
  rw [h.raw] at ho
  have hpermissive : Permissive S defs (m.withArity (scopeOf own).arity) := hi.permissive
  exact Reference.call_of_runs (hi.simulates _) hpermissive (h.suits hi) hdef h.body hkeeps
    (hi.kind id f hf).mp (fun _ _ hn => hn) hlen ho

end

section

variable {c own : Context} {closures : List Closure} {S : Spec W} {m : Meaning Datum H W}

/-- A function has well-formed code that makes the calls of its closure, where the functions exist
that there were when it was compiled. -/
theorem Traced.compiled (h : Traced c closures) (hi : Interprets c (closures[·]?) S m)
    (id : FuncId) :
    ∀ f own cl ts, closures[id]? = some cl → Origin c own id f cl ts → c.function? id = some f →
      Orderly f.code ∧ ∀ args w o, args.length = f.arity →
        (m.withArity (scopeOf own).arity).Runs Meaning.done f.code 0 (Frame.enter args) w o →
        m.call id args w o := by
  -- a function calls itself and those defined before it, so the induction is on its number
  induction id using Nat.strongRecOn with
  | ind id ih =>
  intro f own cl ts hcl ho hf
  have hraw : Orderly f.raw := ho.raw ▸ bodyCode_orderly ts f.params.length
  have hrefines : Refines (m.withArity (scopeOf own).arity) f.code f.raw := by
    rw [ho.code]
    refine finalCode_refines hraw fun hopt => ⟨⟨?_, rfl, hraw⟩, fun n code hcode _ => ?_⟩
    · exact Algebraic.withArity (hi.algebraic (ho.settings ▸ hopt)) _
    -- a call that is inlined is one of the function itself or of an earlier one
    by_cases hself : id = n
    · subst hself
      obtain rfl := Option.some.inj ((if_pos rfl).symm.trans hcode)
      refine ⟨hraw, fun args w o hn hrun => ho.raw_call hf hcl hi ?_ hrun⟩
      exact Option.some.inj ((ho.arity_of hf hn).2.symm.trans (Scope.arity_eq hf))
    · -- a function that was defined earlier, whose code knows fewer functions
      have hcode : (own.function? n).map Function.code = some code := by
        rw [← hcode]
        exact (if_neg fun hn => hself (Option.some.inj hn)).symm
      obtain ⟨g, hg, rfl⟩ := Option.map_eq_some_iff.mp hcode
      have hlt : n < id := by
        have hlt : n < own.functions.size := (Array.getElem?_eq_some_iff.mp hg).1
        rw [ho.size] at hlt
        exact Nat.lt_of_le_of_ne (Nat.le_of_lt_succ hlt) fun hn => hself hn.symm
      have hgc : c.function? n = some g := (ho.earlier n hlt).symm.trans hg
      obtain ⟨own', cl', ts', hcl', ho'⟩ := h.origin n g hgc
      obtain ⟨horderly, hcall⟩ := ih n hlt g own' cl' ts' hcl' ho' hgc
      refine ⟨horderly, fun args w o hn hrun => hcall args w o ?_ ?_⟩
      · exact Option.some.inj (hn.symm.trans (Scope.arity_eq hg))
      -- the earlier function knows fewer arities, and those it knows are the same
      · refine Meaning.Runs.withArity (fun k a hk => ?_) hrun
        obtain ⟨hle, hk⟩ := ho'.arity_of hgc hk
        rw [ho.arity_eq hf, if_pos (Nat.le_trans hle (Nat.le_of_lt hlt))]
        exact hk
  exact ⟨hrefines.orderly, fun args w o hlen hrun =>
    ho.raw_call hf hcl hi hlen (hrefines.ends _ w o hrun)⟩

/-- The code of a function makes the calls of its closure. -/
theorem Traced.call_of_runs (h : Traced c closures) (hi : Interprets c (closures[·]?) S m)
    {id : FuncId} {f : Function} (hf : c.function? id = some f) {args : List Datum} {w : W}
    {o : Ending Datum W} (hlen : args.length = f.arity)
    (hrun : (m.withArity (scopeOf c).arity).Runs Meaning.done f.code 0 (Frame.enter args) w o) :
    m.call id args w o := by
  obtain ⟨own, cl, ts, hcl, ho⟩ := h.origin id f hf
  refine (h.compiled hi id f own cl ts hcl ho hf).2 args w o hlen ?_
  exact Meaning.Runs.withArity (fun _ _ hn => (ho.arity_of hf hn).2) hrun

theorem Traced.func? (h : Traced c closures) {entry : Lowered} (n : FuncId) :
    (Program.mk c.currentTable entry).func? n =
      (c.function? n).map fun f => lower f.code f.arity := by
  show ((c.functions.map (·.lowered))[n]?).join = _
  rw [Array.getElem?_map]
  cases hf : c.functions[n]? with
  | none =>
    rw [show c.function? n = none from hf]
    rfl
  | some f =>
    obtain ⟨own, cl, ts, -, ho⟩ := h.origin n f hf
    rw [show c.function? n = some f from hf, Option.map_some, Option.map_some, ho.lowered]
    rfl

/-- A program of the context fulfils a meaning that its functions fulfil. -/
theorem Traced.fulfils_of {H W : Type} {m : Meaning Datum H W} (h : Traced c closures)
    (harity : m.arity = (scopeOf c).arity)
    (hcall : ∀ n f, c.function? n = some f → ∀ args w o, args.length = f.arity →
      m.Runs Meaning.done f.code 0 (Frame.enter args) w o → m.call n args w o)
    (code : ForkLisp.Code) :
    (Program.mk c.currentTable (lower code 0)).Fulfils m where
  frameSize ref l hl := by
    cases ref with
    | entry =>
      obtain rfl := Option.some.inj hl
      rfl
    | func n =>
      have hl : (Program.mk c.currentTable (lower code 0)).func? n = some l := hl
      rw [h.func?] at hl
      obtain ⟨f, -, rfl⟩ := Option.map_eq_some_iff.mp hl
      rfl
  arity := by
    funext n
    rw [harity, h.func?, Option.map_map]
    rfl
  call n l hl args w o hlen hrun := by
    rw [h.func?] at hl
    obtain ⟨f, hf, rfl⟩ := Option.map_eq_some_iff.mp hl
    exact hcall n f hf args w o hlen hrun

/-- A program of the context has the functions that the meaning speaks of. -/
theorem Traced.fulfils (h : Traced c closures) (hi : Interprets c (closures[·]?) S m)
    (code : ForkLisp.Code) :
    (Program.mk c.currentTable (lower code 0)).Fulfils (m.withArity (scopeOf c).arity) := by
  refine h.fulfils_of rfl (fun n f hf args w o hlen hrun => ?_) code
  exact h.call_of_runs hi hf hlen hrun

/-- The code of a form, as it was generated, ends as the form may. -/
theorem Interprets.entry_agrees (hi : Interprets c (closures[·]?) S m) {f : Form} {ts : List Term}
    {k : Kind} (hb : ResolvesBody (scopeOf c) [] [f] ts k) (hk : Keeps S.calls S.writes c.names f)
    {w : W} {o : Ending Datum W}
    (hrun : (m.withArity (scopeOf c).arity).Runs Meaning.done (bodyCode ts 0) 0
      (Frame.enter []) w o) :
    Agrees S k (evaluate (closures[·]?) c.names [] f) w o := by
  have hbody : EvalsBody (m.withArity (scopeOf c).arity) [] ts w o :=
    bodyCode_runs hb.ne_nil hb.scoped hrun
  have hagrees := resolvesBody_agrees (hi.simulates _) hi.suits rfl hb ⟨hk, trivial⟩ hbody
  rwa [evaluateBody_last] at hagrees

/-- The code of a form ends as the form may. -/
theorem Traced.entry_agrees (h : Traced c closures) (hi : Interprets c (closures[·]?) S m)
    {f : Form} {ts : List Term} {k : Kind} (hb : ResolvesBody (scopeOf c) [] [f] ts k)
    (hk : Keeps S.calls S.writes c.names f) {w : W} {o : Ending Datum W}
    (hrun : (m.withArity (scopeOf c).arity).Runs Meaning.done (finalCode c none (bodyCode ts 0)).1 0
      (Frame.enter []) w o) :
    Agrees S k (evaluate (closures[·]?) c.names [] f) w o := by
  have hraw : Orderly (bodyCode ts 0) := bodyCode_orderly ts 0
  have hrefines : Refines (m.withArity (scopeOf c).arity) (finalCode c none (bodyCode ts 0)).1
      (bodyCode ts 0) := by
    refine finalCode_refines hraw fun hopt => ⟨⟨?_, rfl, hraw⟩, fun n code hcode _ => ?_⟩
    · exact Algebraic.withArity (hi.algebraic hopt) _
    obtain ⟨g, hg, rfl⟩ := Option.map_eq_some_iff.mp (show (c.function? n).map _ = _ from hcode)
    obtain ⟨own, cl, ts', hcl, ho⟩ := h.origin n g hg
    refine ⟨(h.compiled hi n g own cl ts' hcl ho hg).1, fun args w o hn hrun => ?_⟩
    exact h.call_of_runs hi hg (Option.some.inj (hn.symm.trans (Scope.arity_eq hg))) hrun
  exact hi.entry_agrees hb hk (hrefines.ends _ w o hrun)

end

end ForkLisp.Compile
