/-
Computations that leave the memory alone.

A form that neither assigns nor prints, and only calls functions that do neither, changes no global
and prints no line, if its evaluation comes to an end (`steady_evaluate`). Its code shows that it is
such a form (`Resolves.keeps`).
-/
import Mathlib
import ForkLisp.Proofs.Reference.Sequential

namespace ForkLisp.Reference

open ForkLisp.Code ForkLisp.Compile ForkLisp.Machine ForkLisp.Reader ForkLisp.Source ForkLisp.Terms

/-- A computation leaves the memory as it is, if it comes to an end. -/
def Steady {α : Type} (x : Eval α) : Prop := ∀ mem a mem', x mem = some (a, mem') → mem' = mem

namespace Steady

variable {α β : Type} {x : Eval α} {f : α → Eval β}

theorem pure (v : α) : Steady (Pure.pure v : Eval α) := by
  intro mem a mem' h
  exact (Prod.mk.inj (Option.some.inj h)).2.symm

theorem answer (strict : Bool) (a : Except Fault α) : Steady (Reference.answer strict a) := by
  intro mem a' mem' h
  exact (Prod.mk.inj (Option.some.inj h)).2.symm

theorem undefined : Steady (Reference.undefined : Eval α) := by
  intro mem a mem' h
  cases h

theorem bind (hx : Steady x) (hf : ∀ v, Steady (f v)) : Steady (x >>= f) := by
  intro mem a mem' h
  cases hr : x mem with
  | none => cases (Eval.bind_none (f := f) hr).symm.trans h
  | some r =>
    obtain ⟨r, mem₁⟩ := r
    obtain rfl := hx _ _ _ hr
    cases r with
    | ok v => exact hf v _ _ _ ((Eval.bind_ok hr).symm.trans h)
    | error e => cases (Eval.bind_error (f := f) hr).symm.trans h; rfl

/-- Reading a global. -/
theorem read (name : String) :
    Steady (do let mem ← get; Pure.pure (mem.globals name) : Eval Datum) := by
  intro mem a mem' h
  exact (Prod.mk.inj (Option.some.inj h)).2.symm

theorem foldlM {f : β → α → Eval β} (hf : ∀ u v, Steady (f u v)) (vs : List α) (u : β) :
    Steady (vs.foldlM f u) := by
  induction vs generalizing u with
  | nil => exact .pure u
  | cons v vs ih =>
    rw [List.foldlM_cons]
    exact (hf u v).bind ih

theorem combine (op : ArithOp) (vs : List Datum) : Steady (Reference.combine op vs) := by
  unfold Reference.combine
  split
  · exact .pure _
  · split
    · exact .answer _ _
    · exact .pure _
  · exact .foldlM (fun _ _ => .answer _ _) _ _

end Steady

/-! ### Limits -/

/-- What a limit of functions comes to, one of the functions comes to. The order is one in which
`none` is below everything, and other results are below themselves only. -/
theorem exists_of_limit {σ ι β : Type}
    {le : Option (Except Failure β × Memory) → Option (Except Failure β × Memory) → Prop}
    (hrefl : ∀ x, le x x) (hbot : ∀ x, le none x) (hflat : ∀ x y, le x y → x = none ∨ x = y)
    {among : (σ → ι → Eval β) → Prop} {limit : σ → ι → Eval β}
    (hlimit : ∀ y : σ → ι → Eval β, (∀ s i mem, le (limit s i mem) (y s i mem)) ↔ ∀ g, among g →
      ∀ s i mem, le (g s i mem) (y s i mem))
    {s : σ} {i : ι} {mem : Memory} {r : Except Failure β × Memory} (h : limit s i mem = some r) :
    ∃ g, among g ∧ g s i mem = some r := by
  classical
  by_contra hnone
  -- a bound that differs from the limit where no function comes to its result
  let bound : σ → ι → Eval β := fun s i mem =>
    if ∃ g, among g ∧ g s i mem = limit s i mem then limit s i mem else none
  have hbound : le (limit s i mem) (bound s i mem) := by
    refine (hlimit bound).mpr (fun g hg s i mem => ?_) s i mem
    rcases hflat _ _ ((hlimit limit).mp (fun _ _ _ => hrefl _) g hg s i mem) with hgs | hgs
    · rw [hgs]
      exact hbot _
    · have hif : bound s i mem = limit s i mem := if_pos ⟨g, hg, hgs⟩
      rw [hif, hgs]
      exact hrefl _
  have hif : bound s i mem = none := if_neg fun ⟨g, hg, hgs⟩ => hnone ⟨g, hg, hgs.trans h⟩
  rw [hif, h] at hbound
  rcases hflat _ _ hbound with heq | heq <;> cases heq

/-! ### Forms -/

section

variable {defs : FuncId → Option Closure} {calls : FuncId → Prop}
  (hdefs : ∀ id c, defs id = some c → calls id → KeepAll calls False c.names c.body)

include hdefs

/-- A form that neither assigns nor prints leaves the memory alone. -/
theorem steady_evaluate (names : Bindings FuncId) (env : List (String × Datum)) {f : Form}
    (h : Keeps calls False names f) : Steady (evaluate defs names env f) := by
  refine Surroundings.evaluate.fixpoint_induct
    (fun g => ∀ s f, s.defs = defs → Keeps calls False s.names f → Steady (g s f))
    (fun g => ∀ s fs, s.defs = defs → KeepAll calls False s.names fs → Steady (g s fs))
    (fun g => ∀ s fs, s.defs = defs → KeepAll calls False s.names fs → Steady (g s fs))
    ?_ ?_ ?_ (fun evaluate evaluateBody evaluateAll he hbody ha s f hs hk => ?_)
    (fun evaluate evaluateBody he hbody s fs hs hk => ?_)
    (fun evaluate evaluateAll he ha s fs hs hk => ?_) ⟨defs, names, env⟩ f rfl h
  -- what holds of functions holds of their limit
  iterate 3
    · intro among hchain hall
      change ∀ s i, s.defs = defs → _ →
        Steady ((Classical.choose _ : Surroundings → _ → Eval _) s i)
      generalize_proofs hex
      intro s i hs hk mem a mem' hlimit
      obtain ⟨g, hg, heq⟩ := exists_of_limit (fun _ => .refl) (fun _ => .bot)
        (fun x y hle => by cases hle <;> simp) (Classical.choose_spec hex) hlimit
      exact hall g hg s i hs hk mem a mem' heq
  · cases f with
    | int | float => exact .pure _
    | symbol _ name =>
      dsimp only
      cases isTruthName name with
      | true => exact .pure _
      | false =>
        rw [if_neg Bool.false_ne_true]
        cases s.env.lookup name with
        | some v => exact .pure v
        | none => exact .read name
    | list _ items =>
      cases items with
      | nil => exact .pure _
      | cons head args =>
        cases head with
        | int | float | list => exact .undefined
        | symbol _ name =>
          obtain ⟨hname, hargs⟩ := hk
          dsimp only
          cases hb : Builtin.ofName? name with
          | none =>
            rw [hb] at hname
            refine (ha s args hs hargs).bind fun vs => ?_
            cases hid : s.names.find? name with
            | none => exact .undefined
            | some id =>
              cases hc : s.defs id with
              | none =>
                simp only [Option.bind_some, hc]
                exact .undefined
              | some c =>
                simp only [Option.bind_some, hc]
                exact hbody _ _ hs (hdefs id c (hs ▸ hc) (hname id hid))
          | some b =>
            rw [hb] at hname
            cases b with
            | arith op => exact (ha s args hs hargs).bind fun vs => .combine op vs
            | compare c =>
              refine (ha s args hs hargs).bind fun vs => ?_
              split
              · exact (Steady.answer _ _).bind fun b => .pure _
              · exact .undefined
            | conditional =>
              dsimp only
              split
              · rename_i test first others
                refine (he s test hs hargs.1).bind fun v => (Steady.answer _ _).bind fun b => ?_
                split
                · exact he s first hs hargs.2.1
                · split
                  · exact .pure _
                  · exact he s _ hs hargs.2.2.1
              · exact .undefined
            | assign | print => exact hname.elim
            | define => exact .undefined
  · cases fs with
    | nil => exact .undefined
    | cons f fs =>
      cases fs with
      | nil => exact he s f hs hk.1
      | cons f' fs => exact (he s f hs hk.1).bind fun _ => hbody s _ hs hk.2
  · cases fs with
    | nil => exact .pure []
    | cons f fs =>
      exact (he s f hs hk.1).bind fun v => (ha s fs hs hk.2).bind fun vs => .pure (v :: vs)

end

end ForkLisp.Reference

/-! ### Code -/

namespace ForkLisp.Terms

open ForkLisp.Code ForkLisp.Compile ForkLisp.Reader ForkLisp.Reference ForkLisp.Source

/-- Whether an instruction assigns to a global or prints. -/
def writes : Inst → Bool
  | .store .. | .print .. | .printBool .. => true
  | _ => false

/-- An instruction neither assigns nor prints, and only calls functions among `calls`. -/
def Mild (calls : FuncId → Prop) (i : Inst) : Prop :=
  writes i = false ∧ ∀ id, i.callee? = some id → calls id

section

variable {calls : FuncId → Prop} {s : Scope} {params : List String}

theorem keeps_builtin {range range' : Range} {name : String} {b : Builtin} {args : List Form}
    (hb : Builtin.ofName? name = some b) (hassign : b ≠ .assign) (hprint : b ≠ .print)
    (h : KeepAll calls False s.names args) :
    Keeps calls False s.names (.list range (.symbol range' name :: args)) := by
  refine ⟨?_, h⟩
  rw [hb]
  cases b with
  | assign => exact hassign rfl
  | print => exact hprint rfl
  | _ => trivial

theorem keeps_call {range range' : Range} {name : String} {id : FuncId} {args : List Form}
    (hb : Builtin.ofName? name = none) (hid : s.names.find? name = some id) (hc : calls id)
    (h : KeepAll calls False s.names args) :
    Keeps calls False s.names (.list range (.symbol range' name :: args)) := by
  refine ⟨?_, h⟩
  rw [hb]
  intro id' hid'
  obtain rfl := Option.some.inj (hid.symm.trans hid')
  exact hc

mutual

/-- A form whose code neither assigns nor prints does neither. -/
theorem Resolves.keeps :
    ∀ {f t k}, Resolves s params f t k → ∀ {r}, (∀ i ∈ t.emit r, Mild calls i) →
    Keeps calls False s.names f
  | _, _, _, .int, _, _ | _, _, _, .float, _, _ | _, _, _, .truth _, _, _
  | _, _, _, .param _ _, _, _
  | _, _, _, .global _ _ _, _, _ | _, _, _, .nil, _, _ => trivial
  | _, _, _, .call hb hid _ _ ha, _, h => by
    unfold Term.emit at h
    simp only [List.forall_mem_append, List.forall_mem_cons] at h
    exact keeps_call hb hid (h.2.1.2 _ rfl) (ha.keeps h.1)
  | _, _, _, .neutral hb, _, _ => keeps_builtin hb (by simp) (by simp) trivial
  | _, _, _, .same hb _ hf, _, h => keeps_builtin hb (by simp) (by simp) ⟨hf.keeps h, trivial⟩
  | _, _, _, .negate hb hf, _, h => by
    unfold Term.emit at h
    exact keeps_builtin hb (by simp) (by simp) ⟨hf.keeps (List.forall_mem_append.mp h).1, trivial⟩
  | _, _, _, .arith hb _ hf, r, h => by
    unfold Term.emit at h
    simp only [List.forall_mem_append] at h
    refine keeps_builtin hb (by simp) (by simp) (hf.keeps (r := r) ?_)
    unfold emitOperands
    exact List.forall_mem_append.mpr ⟨h.1, h.2.1⟩
  | _, _, _, .compare hb hl hr, _, h => by
    unfold Term.emit at h
    simp only [List.forall_mem_append] at h
    exact keeps_builtin hb (by simp) (by simp) ⟨hl.keeps h.1, hr.keeps h.2.1, trivial⟩
  | _, _, _, .short hb hc hf, _, h => by
    unfold Term.emit at h
    simp only [List.forall_mem_append, List.forall_mem_cons] at h
    exact keeps_builtin hb (by simp) (by simp) ⟨hc.keeps h.1 h.2.1, hf.keeps h.2.2.2.1, trivial⟩
  | _, _, _, .full hb hc hf hf', _, h => by
    unfold Term.emit at h
    simp only [List.forall_mem_append, List.forall_mem_cons] at h
    exact keeps_builtin hb (by simp) (by simp)
      ⟨hc.keeps h.1 h.2.1, hf.keeps h.2.2.2.1, hf'.keeps h.2.2.2.2.2, trivial⟩
  -- code that is mild neither stores nor prints
  | _, _, _, .assign _ _ _, _, h => by
    unfold Term.emit at h
    cases ((List.forall_mem_append.mp h).2 _ List.mem_cons_self).1
  | _, _, _, .print _ _, _, h => by
    unfold Term.emit at h
    have hlast := (List.forall_mem_append.mp h).2 _ List.mem_cons_self
    split at hlast <;> cases hlast.1

theorem ResolvesAll.keeps : ∀ {fs ts}, ResolvesAll s params fs ts → ∀ {r},
    (∀ i ∈ emitArguments ts r, Mild calls i) → KeepAll calls False s.names fs
  | _, _, .nil, _, _ => trivial
  | _, _, .cons hf hs, _, h => by
    unfold emitArguments at h
    have h := List.forall_mem_append.mp h
    exact ⟨hf.keeps h.1, hs.keeps h.2⟩

theorem ResolvesOperands.keeps : ∀ {fs ts}, ResolvesOperands s params fs ts → ∀ {r},
    (∀ i ∈ emitOperands ts r, Mild calls i) → KeepAll calls False s.names fs
  | _, _, .nil, _, _ => trivial
  | _, _, .value hf hs, _, h => by
    unfold emitOperands at h
    have h := List.forall_mem_append.mp h
    exact ⟨hf.keeps h.1, hs.keeps h.2⟩
  | _, _, .task _ hb hid _ _ ha hs, _, h => by
    unfold emitOperands Term.emit at h
    simp only [List.forall_mem_append, List.forall_mem_cons] at h
    exact ⟨keeps_call hb hid (h.1.2.1.2 _ rfl) (ha.keeps h.1.1), hs.keeps h.2⟩

theorem ResolvesTest.keeps : ∀ {f skip a b}, ResolvesTest s params f skip a b → ∀ {r},
    (∀ i ∈ a.emit r, Mild calls i) → (∀ i ∈ b.emit (r + 1), Mild calls i) →
    Keeps calls False s.names f
  | _, _, _, _, .compared hb hl hr, _, h, h' =>
    keeps_builtin hb (by simp) (by simp) ⟨hl.keeps h, hr.keeps h', trivial⟩
  | _, _, _, _, .value hf, _, h, _ => hf.keeps h

end

/-- So do the forms of a body. -/
theorem ResolvesBody.keeps {fs : List Form} {ts : List Term} {k : Kind}
    (h : ResolvesBody s params fs ts k) {r : Reg} (hi : ∀ i ∈ bodyCode ts r, Mild calls i) :
    KeepAll calls False s.names fs := by
  have hseq : ∀ i ∈ emitSequence ts r, Mild calls i := fun i hmem => hi i (by
    unfold bodyCode
    simp [hmem])
  clear hi
  induction h with
  | last hf =>
    unfold emitSequence at hseq
    exact ⟨hf.keeps (List.forall_mem_append.mp hseq).1, trivial⟩
  | more hf _ ih =>
    unfold emitSequence at hseq
    have hseq := List.forall_mem_append.mp hseq
    exact ⟨hf.keeps hseq.1, ih hseq.2⟩

end

end ForkLisp.Terms
