/-
Cleaning up keeps what code does.

Cleaned code names only registers and globals that the code names (`Subject.cleanup_finds`), so that
it runs wherever the code does. If the code is well formed and plain, and its run meets no type that
does not fit, then the cleaned code comes to the same outcome, after the same effects in the same
order (`Subject.cleanup_keeps_effects`).
-/
import ForkLisp.Proofs.Machine.Completion
import ForkLisp.Proofs.Optimize.Forming
import ForkLisp.Proofs.Optimize.Soundness
import ForkLisp.Proofs.Optimize.Totality

namespace ForkLisp.Optimize

open ForkLisp.Code ForkLisp.Machine ForkLisp.Behaviour

/-! ### Registers and globals -/

section

variable {i j : Inst}

/-- What is left of an instruction names its registers only, and its global. -/
theorem tidy_registers (h : tidy i = some j) :
    j.isPlain = i.isPlain ∧ j.global? = i.global? ∧ ∀ r ∈ j.registers, r ∈ i.registers := by
  rcases tidy_eq_some h with rfl | ⟨d, rfl, rfl⟩
  · exact ⟨rfl, rfl, fun _ => id⟩
  · exact ⟨rfl, rfl, by simp [Inst.registers, Inst.defs, Inst.uses]⟩

theorem rewritable_finds (room globals : Nat) : Rewritable (Inst.Finds room globals) where
  stop := ⟨rfl, fun r hr => absurd hr List.not_mem_nil, fun g hg => by cases hg⟩
  jump := ⟨rfl, fun r hr => absurd hr List.not_mem_nil, fun g hg => by cases hg⟩
  withOffset i offset h :=
    ⟨(Inst.isPlain_withOffset offset i).trans h.plain,
      fun r hr => h.register r (Inst.registers_withOffset offset i ▸ hr),
      fun g hg => h.global g ((Inst.global?_withOffset offset i).symm.trans hg)⟩
  tidy i j hj h := by
    obtain ⟨hplain, hglobal, hregister⟩ := tidy_registers hj
    exact ⟨hplain.trans h.plain, fun r hr => h.register r (hregister r hr),
      fun g hg => h.global g (hglobal.symm.trans hg)⟩
  fuse dead i next y hy hi hnext := by
    refine (fuse_combines hy).imp fun j hj => ⟨hj.plain, fun r hr => ?_, fun g hg => ?_⟩
    · exact (hj.register r hr).elim (hi.register r) (hnext.register r)
    · cases hj.global.symm.trans hg

end

namespace Subject

variable {subject : Subject} {code : ForkLisp.Code} {room globals : Nat}

/-- Cleaned code finds its registers and globals where the code does. -/
theorem cleanup_finds (h : ∀ (pc : Nat) i, subject.code[pc]? = some i → i.Finds room globals)
    (hc : subject.cleanup = some code) :
    ∀ (pc : Nat) i, code[pc]? = some i → i.Finds room globals := by
  refine pass_all (Q := fun _ _ => True) ⟨rewritable_finds room globals, fun pc i hi => ?_, ?_,
    fun _ _ _ _ _ => trivial, fun _ _ _ _ => trivial, fun _ _ =>
    trivial⟩ (keepCalls_grants _ _ _) hc
  · obtain ⟨j, hj, rfl⟩ := Option.map_eq_some_iff.mp hi
    rw [show j.rebase subject.site.base = j from rebase_zero j]
    have hj := h pc j hj
    exact ⟨(isPlain_normalize j).trans hj.plain, fun r hr =>
      hj.register r (registers_normalize j ▸ hr),
      fun g hg => hj.global g ((global?_normalize j).symm.trans hg)⟩
  · exact fun _ _ hc => absurd hc (by simp [site])

theorem refersWithin_of_plain {among : FuncId → Prop} (hp : Plain code) :
    RefersWithin among code := by
  intro id hid
  obtain ⟨i, hi, hcallee⟩ := mem_callees.mp hid
  have hplain := hp i hi
  cases i with
  | call | spawn => cases hplain
  | _ => cases hcallee

/-- Well-formed code that is plain can be cleaned up, and is well formed again. -/
theorem cleanup_plain (hs : WellFormed subject.code) (hp : Plain subject.code) :
    ∃ code, subject.cleanup = some code ∧ WellFormed code := by
  obtain ⟨code, hcode⟩ := pass_total hs.orderly (refersWithin_of_plain hp)
    (keepCalls_total subject.site)
  obtain ⟨d, hd, hdone⟩ := Option.bind_eq_some_iff.mp hcode
  obtain rfl := Option.some.inj hdone
  exact ⟨_, hcode, (pass_wellFormed hs keepCalls_keeps (keepCalls_grants _ _ _) hd).2⟩

/-- Well-formed code that is plain can be cleaned up. Whatever its registers and the globals hold, a
task that runs it completes. If it does not end with a type that does not fit, then a task that runs
the cleaned code has the same effects in the same order, and the same outcome in the same world. -/
theorem cleanup_keeps_effects {subject : Subject} (hs : WellFormed subject.code)
    (hp : Plain subject.code) :
    ∃ code, subject.cleanup = some code ∧
      ∀ functions (stack : Array Slot) w, frameSize subject.code 0 ≤ stack.size →
        GlobalsWithin w.globals.size subject.code →
        (∃ es outcome last, Completes (.running functions stack subject.code) w es outcome last) ∧
        ∀ es outcome last, Completes (.running functions stack subject.code) w es outcome last →
          (∀ got, outcome ≠ .error (.typeMismatch got)) →
          Completes (.running functions stack code) w es outcome last := by
  obtain ⟨code, hcode, hclean⟩ := cleanup_plain hs hp
  refine ⟨code, hcode, fun functions stack w hroom hglobals => ?_⟩
  have hfinds : ∀ (pc : Nat) i, subject.code[pc]? = some i →
      i.Finds stack.size w.globals.size := fun _ _ => finds_of_frameSize hp hroom hglobals
  have hunder : Underway subject.code (.running functions stack subject.code) w :=
    .running _ hs hfinds
  have hunder' : Underway code (.running functions stack code) w :=
    .running _ hclean (cleanup_finds hfinds hcode)
  refine ⟨hunder.completes, fun es outcome last horiginal hmatch => ?_⟩
  obtain ⟨es', outcome', last', hcleaned⟩ := hunder'.completes
  -- the run of the cleaned code is one of the original code, which has no other than its own
  have hsuits : subject.Suits (literal (fun e => ∃ got, e = .typeMismatch got) subject.arity?) :=
    ⟨literal_algebraic fun got => ⟨got, rfl⟩, rfl, hs.orderly⟩
  have hrun := (hsuits.cleanup_refines hcode).ends _ _ _ (hcleaned.runs hunder' []).1
  have heq := (horiginal.runs hunder []).2 (fun e he hfree => ?_) _ hrun
  · obtain ⟨rfl, hworld⟩ := Ending.ofAnswer_inj.mp heq
    obtain ⟨rfl, rfl⟩ := Prod.mk.inj hworld
    exact hcleaned
  · obtain ⟨got, rfl⟩ := hfree
    exact hmatch got he

/-- Code with a jump to a jump, a target that is shared, and instructions that are never reached or
have no effect. -/
def tangled : Subject where
  context := .new {}
  this := none
  code := #[.branchConst .lt 3 0 5, .jump 3, .print 1, .jump 2, .jump 1,
    .move 1 0, .store 1 ⟨0, "x"⟩, .print 1, .move 1 1, .ret 1, .stop]

/-- The cleaned code assigns the number, prints it and returns it, as the code does. -/
theorem cleanup_keeps_effects_tangled :
    ∃ code, tangled.cleanup = some code ∧
      Completes (.running #[] #[.int 7, .empty] code) ⟨#[.empty], #[], .ofSize 0 0⟩
        [.assign ⟨0, "x"⟩ (.int 7), .print "7"] (.ok (.int 7))
          ⟨#[.int 7], #["7"], .ofSize 0 0⟩ := by
  obtain ⟨code, hcode, hkeeps⟩ := @cleanup_keeps_effects tangled (by decide) (by decide)
  refine ⟨code, hcode, ?_⟩
  refine (hkeeps #[] #[.int 7, .empty] _ (by decide) (by decide)).2 _ _ _ ?_ (by simp)
  -- the instructions that the original code runs
  have h : Completes (.running #[] #[.int 7, .empty] tangled.code) ⟨#[.empty], #[], .ofSize 0 0⟩
      _ (.ok (.int 7)) _ :=
    .next rfl rfl <| .next rfl rfl <| .next rfl rfl <| .next rfl rfl <| .next rfl rfl <|
      .next rfl rfl <| .next rfl rfl <| .ended rfl
  exact h

end Subject

end ForkLisp.Optimize
