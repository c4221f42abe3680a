/-
Compiled code is safe whatever its values are.

In the wildest meaning nothing is known of what operations come to, so that a branch may go either
way. It is still a meaning that compiled code has, for neither the generator nor the optimizer
relies on more. So the code of functions and of forms is `Safe`, as it was generated and as it is
run (`Traced.safe_raw`, `Traced.safe_code`, `Traced.safe_entry`): it is disciplined, and it reads
nothing that was not assigned.
-/
import ForkLisp.Proofs.Behaviour.Paths
import ForkLisp.Proofs.Machine.Layers
import ForkLisp.Proofs.Reference.Loose

namespace ForkLisp.Compile

open ForkLisp.Code ForkLisp.Machine ForkLisp.Reader ForkLisp.Reference
    ForkLisp.Behaviour ForkLisp.Terms

/-! ### The wildest meaning -/

section

variable (sync : Prop) (c : Context) (has : Kind → Datum → Prop) (arity : FuncId → Option Nat)

/-- The loosest meaning, in which nothing is known of numbers either. -/
def wild : Meaning Datum Unit Unit :=
  { loose (fun _ => True) sync c has arity with
    arith := fun _ _ _ _ => True
    negate := fun _ _ => True
    test := fun _ _ _ _ => True }

end

section

variable {sync : Prop} {c : Context} {defs : FuncId → Option Closure} {has : Kind → Datum → Prop}
  {arity : FuncId → Option Nat}

theorem wild_placid : Placid sync c has (wild sync c has arity) :=
  loose_placid.withArithmetic _ _ _

theorem wild_algebraic : (wild sync c has arity).Algebraic where
  sub_int _ _ _ _ := trivial
  add_zero _ := trivial
  mul_one _ := trivial
  div_one _ := trivial
  mul_zero _ := trivial
  arith_total _ _ _ _ := ⟨.int 0, trivial⟩
  negate_total _ := ⟨.int 0, trivial⟩
  fold _ _ _ _ _ := trivial
  comm _ _ _ _ _ _ := trivial
  merge _ _ _ _ _ _ a _ _ := by
    cases a with
    | ok v => exact ⟨.ok v, trivial, trivial⟩
    | error e => exact ⟨.error e, trivial, rfl⟩
  reverse _ _ _ _ _ := trivial
  static _ _ _ := trivial
  bool_left _ _ _ _ _ := trivial
  bool_right _ _ _ _ _ := trivial
  test_total _ _ _ := ⟨true, trivial⟩
  load_total _ _ := ⟨.int 0, fun _ => ⟨.int 0, rfl⟩⟩

/-- Every operation may come to a value in the wildest meaning. -/
theorem wild_open (hhas : ∀ k, has k (.bool true)) : (wild sync c has arity).Open where
  arith _ _ _ := ⟨.int 0, trivial⟩
  negate _ := ⟨.int 0, trivial⟩
  test _ _ _ _ := trivial
  load _ w := ⟨.int 0, w, fun _ => ⟨.int 0, rfl⟩⟩
  store _ _ w := ⟨w, fun _ => rfl⟩
  print _ _ w := ⟨w, Ending.value_ne_stuck () w⟩
  call f _ w := by
    refine ⟨.bool true, w, Ending.value_ne_stuck _ w, fun v w' heq => ?_⟩
    cases heq
    exact hhas (kindOf c f)
  spawn _ _ w := ⟨(), w, fun _ => Ending.value_ne_stuck () w⟩
  join _ w := ⟨.int 0, w, Ending.value_ne_stuck _ w⟩

/-- The wildest meaning is one for the code of a context. -/
theorem interprets_wild (defs : FuncId → Option Closure) :
    Interprets c defs (looseSpec (c.settings.spawn = true) c)
      (wild (c.settings.spawn = true) c TruthHas arity) where
  simulates _ :=
    Placid.simulates (m := wild _ c TruthHas _) wild_placid fun _ h => h rfl
  permissive f args w r h :=
    have hagrees := h trivial
    ⟨hagrees.1, fun v w hr hk => hagrees.2 hk v w hr⟩
  algebraic _ := wild_algebraic
  known _ hg := hg
  spawns h := h
  kind id f hf := by
    show kindOf c id = .bool ↔ f.kind = .bool
    rw [kindOf_eq hf]
  keeps _ cl _ _ := keepAll_of_forall cl.names (fun _ => trivial) trivial cl.body

end

/-! ### Code of a context -/

/-- Code of a context, with how many arguments it is entered with. -/
inductive Context.Codes (c : Context) : Nat → ForkLisp.Code → Prop where
  /-- The code of a function, as it was generated. -/
  | raw {id : FuncId} {f : Function} (h : c.function? id = some f) : Codes c f.arity f.raw
  /-- The code of a function, as it is run. -/
  | final {id : FuncId} {f : Function} (h : c.function? id = some f) : Codes c f.arity f.code
  /-- The code of a form, as it is generated. -/
  | generated {f : Form} {k : Kind} (h : (generateBody [] [f] 0 c).outcome = .ok k) :
      Codes c 0 (generateBody [] [f] 0 c).code.toArray
  /-- The code of a form, as it is run. -/
  | entry {f : Form} {code : Lowered} (h : (compile c f).outcome = .ok (.entry code)) :
      Codes c 0 code.code

/-- How many arguments a function of a context takes. -/
def Context.arity? (c : Context) (id : FuncId) : Option Nat := (c.function? id).map Function.arity

section

variable {c own : Context} {closures : List Closure}

theorem arity?_of_grows (h : Grows c own) : own.arity? = c.arity? := by
  funext id
  show (own.functions[id]?).map _ = (c.functions[id]?).map _
  rw [h.functions]

/-- Code is safe that gets nowhere stuck in the wildest meaning, whatever its arguments are. -/
theorem safe_of_wild {code : ForkLisp.Code} {n : Nat}
    (h : ∀ args : List Datum, args.length = n →
    ¬ (wild (c.settings.spawn = true) c TruthHas c.arity?).Runs Meaning.done code 0
    (Frame.enter args) () .stuck) : Safe c.arity? code 0 (.enter n) := by
  have hopen : (wild (c.settings.spawn = true) c TruthHas c.arity?).Open :=
    wild_open fun _ _ => ⟨true, rfl⟩
  have hlen : (List.replicate n (Datum.int 0)).length = n := List.length_replicate
  have hsafe := hopen.safe (h _ hlen)
  rwa [hlen] at hsafe

/-- The code of a function is safe. -/
theorem Traced.safe_code (h : Traced c closures) {id : FuncId} {f : Function}
    (hf : c.function? id = some f) : Safe c.arity? f.code 0 (.enter f.arity) := by
  have hi : Interprets c (closures[·]?) _ (wild _ c TruthHas c.arity?) := interprets_wild _
  exact safe_of_wild fun args hlen hrun => (h.call_of_runs hi hf hlen hrun).1 rfl

/-- So is the code that was generated for it. -/
theorem Traced.safe_raw (h : Traced c closures) {id : FuncId} {f : Function}
    (hf : c.function? id = some f) : Safe c.arity? f.raw 0 (.enter f.arity) := by
  have hi : Interprets c (closures[·]?) _ (wild _ c TruthHas c.arity?) := interprets_wild _
  obtain ⟨own, cl, ts, hcl, ho⟩ := h.origin id f hf
  refine safe_of_wild fun args hlen hrun => ?_
  exact (ho.raw_call hf hcl hi (w := ()) hlen
    (Meaning.Runs.withArity (fun _ _ hn => (ho.arity_of hf hn).2) hrun)).1 rfl

/-- The code of a form is safe, as it was generated and as it is run. -/
theorem Traced.safe_entry (h : Traced c closures) {f : Form} {ts : List Term} {k : Kind}
    (hb : ResolvesBody (scopeOf c) [] [f] ts k) :
    Safe c.arity? (bodyCode ts 0) 0 (.enter 0) ∧
      Safe c.arity? (finalCode c none (bodyCode ts 0)).1 0 (.enter 0) := by
  have hi : Interprets c (closures[·]?) _ (wild _ c TruthHas c.arity?) := interprets_wild _
  have hkeeps : Keeps (fun _ => True) True c.names f :=
    keeps_of_forall c.names (fun _ => trivial) trivial f
  refine ⟨safe_of_wild fun args hlen hrun => ?_, safe_of_wild fun args hlen hrun => ?_⟩
  · rw [List.length_eq_zero_iff.mp hlen] at hrun
    exact (hi.entry_agrees hb hkeeps hrun).1 rfl
  · rw [List.length_eq_zero_iff.mp hlen] at hrun
    exact (h.entry_agrees hi hb hkeeps hrun).1 rfl

/-- All code of a context is safe. -/
theorem Traced.safe (h : Traced c closures) {n : Nat} {code : ForkLisp.Code} (hc : c.Codes n code) :
    Safe c.arity? code 0 (.enter n) := by
  cases hc with
  | raw hf => exact h.safe_raw hf
  | final hf => exact h.safe_code hf
  | @generated f k hk =>
    have hgrows := generateBody_grows [] [f] 0 c
    generalize he : generateBody [] [f] 0 c = e at hk hgrows
    obtain ⟨code, own, out⟩ := e
    obtain rfl : out = .ok k := hk
    obtain ⟨-, ts, hcode, hb⟩ := generateBody_resolves (by simp) he
    rw [show code.toArray = bodyCode ts 0 from hcode, ← arity?_of_grows hgrows]
    exact ((h.grows hgrows).safe_entry hb).1
  | @entry f code hk =>
    have hr := compile_arises c f
    generalize compile c f = r at hr hk
    cases hr with
    | failed => cases hk
    | defined => cases hk
    | entry hd hg hb =>
      cases hk
      rw [← arity?_of_grows hg]
      exact ((h.grows hg).safe_entry hb).2

/-- All code of a program of the context is safe. -/
theorem Traced.secure (h : Traced c closures) {code : ForkLisp.Code}
    (hs : Safe c.arity? code 0 (.enter 0)) : (Program.mk c.currentTable (lower code 0)).Secure := by
  have harity : (Program.mk c.currentTable (lower code 0)).arity? = c.arity? := by
    funext n
    unfold Program.arity?
    rw [h.func?, Option.map_map]
    rfl
  refine ⟨fun ref l hl => ?_, fun ref l hl => ?_⟩
  · rw [harity]
    cases ref with
    | entry =>
      obtain rfl := Option.some.inj hl
      exact hs
    | func n =>
      obtain ⟨f, hf, rfl⟩ := Option.map_eq_some_iff.mp ((h.func? n).symm.trans hl)
      exact h.safe_code hf
  · cases ref with
    | entry =>
      obtain rfl := Option.some.inj hl
      exact Nat.zero_le _
    | func n =>
      obtain ⟨f, -, rfl⟩ := Option.map_eq_some_iff.mp ((h.func? n).symm.trans hl)
      exact Nat.le_max_left _ _

end

end ForkLisp.Compile
