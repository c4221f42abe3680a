/-
Code stays well formed.

The code that is generated for a body is well formed (`generateBody_wellFormed`). Every pass over
well-formed code comes to an end with well-formed code again, in which no label is left open, and so
do all rounds together, whatever the settings are (`Subject.code_stays_wellFormed`). For that the
code of all functions must be well formed, and every function that is referred to must exist
(`Subject.Ready`): where one does not, copying it in fails (`Subject.expand_dangling`).
-/
import ForkLisp.Proofs.Optimize.Forming
import ForkLisp.Proofs.Optimize.Totality
import ForkLisp.Proofs.Terms.Emitted

namespace ForkLisp.Terms

open ForkLisp.Code ForkLisp.Compile ForkLisp.Reader

/-! ### Generated code -/

theorem hasRoom_joinCode (ts : List Term) (r : Reg) : ∀ i ∈ joinCode ts r, i.HasRoom := by
  induction ts generalizing r with
  | nil => exact fun _ hi => absurd hi List.not_mem_nil
  | cons t ts ih =>
    refine List.forall_mem_append.mpr ⟨?_, ih _⟩
    split <;> simp [Inst.HasRoom]

theorem hasRoom_foldCode (op : ArithOp) (dst : Reg) (ts : List Term) (r : Reg) :
    ∀ i ∈ foldCode op dst ts r, i.HasRoom := by
  induction ts generalizing r with
  | nil => exact fun _ hi => absurd hi List.not_mem_nil
  | cons t ts ih => exact List.forall_mem_cons.mpr ⟨trivial, ih _⟩

mutual

/-- The arguments of calls and tasks go above their linkage. -/
theorem Term.hasRoom : (t : Term) → (r : Reg) → ∀ i ∈ t.emit r, i.HasRoom
  | .int _, _ | .bool _, _ | .float _, _ | .param _, _ | .global _, _ => by
    simp [Term.emit, Inst.HasRoom]
  | .call _ ts, r => by
    simpa [Term.emit, or_imp, forall_and, Inst.HasRoom] using hasRoom_arguments ts (r + 2)
  | .task _ ts, r => by
    simpa [Term.emit, or_imp, forall_and, Inst.HasRoom] using hasRoom_arguments ts (r + 3)
  | .negate t, r | .assign _ t, r => by
    simpa [Term.emit, or_imp, forall_and, Inst.HasRoom] using t.hasRoom r
  | .arith op first rest, r => by
    simpa [Term.emit, or_imp, forall_and] using
      ⟨first.hasRoom r, hasRoom_operands rest _, hasRoom_joinCode _ r, hasRoom_foldCode op r rest _⟩
  | .cond skip lhs rhs first second, r => by
    simpa [Term.emit, or_imp, forall_and, Inst.HasRoom] using
      ⟨lhs.hasRoom r, rhs.hasRoom (r + 1), first.hasRoom r, second.hasRoom r⟩
  | .print truth t, r => by
    cases truth <;> simpa [Term.emit, or_imp, forall_and, Inst.HasRoom] using t.hasRoom r

theorem hasRoom_arguments : (ts : List Term) → (r : Reg) → ∀ i ∈ emitArguments ts r, i.HasRoom
  | [], _ => fun _ hi => absurd hi List.not_mem_nil
  | t :: ts, r => List.forall_mem_append.mpr ⟨t.hasRoom r, hasRoom_arguments ts (r + 1)⟩

theorem hasRoom_operands : (ts : List Term) → (r : Reg) → ∀ i ∈ emitOperands ts r, i.HasRoom
  | [], _ => fun _ hi => absurd hi List.not_mem_nil
  | t :: ts, r => List.forall_mem_append.mpr ⟨t.hasRoom r, hasRoom_operands ts _⟩

end

end ForkLisp.Terms

namespace ForkLisp.Optimize

open ForkLisp.Code ForkLisp.Compile ForkLisp.Reader ForkLisp.Terms

namespace Subject

variable {subject : Subject}

/-- The code of a subject and that of all other functions is well formed, and every function that
one of them refers to exists. A function whose code is still to come has none. -/
structure Ready (subject : Subject) : Prop where
  code : WellFormed subject.code
  functions : ∀ id f, subject.this ≠ some id → subject.context.function? id = some f →
    f.code.isEmpty = false → WellFormed f.code
  refers : RefersWithin subject.Defines subject.code
  copies : subject.CopiesWithin subject.Defines

/-! ### Passes -/

/-- A pass writes some code, and all labels have been resolved when it is done. -/
def Writes (subject : Subject) (inline : Inliner) (code : ForkLisp.Code) : Prop :=
  ∃ d, walk inline subject.site (subject.code.size + 1) 0 .empty = some d ∧ d.pending = [] ∧
    (d.emit .stop).builder.code = code

theorem Writes.pass {inline : Inliner} {code : ForkLisp.Code} (h : subject.Writes inline code) :
    subject.pass inline = some code := by
  obtain ⟨d, hd, -, rfl⟩ := h
  exact Option.bind_eq_some_iff.mpr ⟨d, hd, rfl⟩

/-- A pass comes to an end. What is asked of the subject holds with the new code. -/
theorem Ready.writes (h : subject.Ready) {inline : Inliner}
    (hkeeps : inline.Keeps subject.site fun _ => False)
    (hroom : inline.Grants subject.site Inst.HasRoom (BeforeEnd subject.code))
    (hrefers : inline.Grants subject.site (RefersTo subject.Defines) fun _ _ => True)
    (htotal : inline.Total subject.site) :
    ∃ code, subject.Writes inline code ∧ { subject with code }.Ready := by
  obtain ⟨code, hcode⟩ := pass_total h.code.orderly h.refers htotal
  obtain ⟨d, hd, hdone⟩ := Option.bind_eq_some_iff.mp hcode
  obtain rfl := Option.some.inj hdone
  obtain ⟨hnil, hformed⟩ := pass_wellFormed h.code hkeeps hroom hd
  exact ⟨_, ⟨d, hd, hnil, rfl⟩, hformed, h.functions, refers_pass h.refers hrefers hcode, h.copies⟩

/-- What is copied in is well formed. -/
theorem Ready.calleeCode (h : subject.Ready) {callee : FuncId} {code : ForkLisp.Code}
    (hc : subject.calleeCode? callee = some code)
    (hne : code.isEmpty = false) : WellFormed code := by
  unfold calleeCode? at hc
  split at hc
  · obtain rfl := Option.some.inj hc
    exact h.code
  · rename_i hother
    obtain ⟨f, hf, rfl⟩ := Option.map_eq_some_iff.mp hc
    exact h.functions callee f hother hf hne

theorem Ready.cleanup (h : subject.Ready) :
    ∃ code, subject.Writes keepCalls code ∧ { subject with code }.Ready :=
  h.writes keepCalls_keeps (keepCalls_grants _ _ _) (keepCalls_grants _ _ _) (keepCalls_total _)

theorem Ready.expand (h : subject.Ready) :
    ∃ code, subject.Writes subject.inline code ∧ { subject with code }.Ready := by
  have horderly : subject.CalleesOrderly := fun f code hc hne => (h.calleeCode hc hne).orderly
  refine h.writes (inline_keeps h.code.orderly horderly) ?_ (refers_inline h.refers h.copies)
    (inline_total horderly h.refers h.copies)
  exact inline_grants fun callee code shift pc d hi hc hne =>
    copySite_grants h.code hi (h.calleeCode hc hne)

/-! ### Rounds -/

theorem Ready.cleanupRounds (h : subject.Ready) (n : Nat) :
    ∃ code, subject.cleanupRounds n = some code ∧ { subject with code }.Ready := by
  induction n generalizing subject with
  | zero => exact ⟨_, rfl, h⟩
  | succ n ih =>
    obtain ⟨code₁, hwrites, h₁⟩ := h.cleanup
    obtain ⟨code, hrest, hready⟩ := ih h₁
    exact ⟨code, Option.bind_eq_some_iff.mpr ⟨code₁, hwrites.pass, hrest⟩, hready⟩

theorem Ready.expandRounds (h : subject.Ready) (n : Nat) :
    ∃ code, subject.expandRounds n = some code ∧ { subject with code }.Ready := by
  induction n generalizing subject with
  | zero => exact ⟨_, rfl, h⟩
  | succ n ih =>
    unfold Subject.expandRounds
    split
    · exact ⟨_, rfl, h⟩
    · obtain ⟨code₁, hwrites, h₁⟩ := h.expand
      obtain ⟨code, hrest, hready⟩ := ih h₁
      exact ⟨code, Option.bind_eq_some_iff.mpr ⟨code₁, hwrites.pass, hrest⟩, hready⟩

/-- All rounds come to an end, whatever their number and the budget are. -/
theorem Ready.optimize (h : subject.Ready) :
    ∃ code, subject.optimize = some code ∧ { subject with code }.Ready := by
  obtain ⟨code₁, hbefore, h₁⟩ := h.cleanupRounds roundsBefore
  obtain ⟨code₂, hexpand, h₂⟩ := h₁.expandRounds subject.context.settings.inlineDepth
  obtain ⟨code, hafter, hready⟩ := h₂.cleanupRounds roundsAfter
  refine ⟨code, ?_, hready⟩
  exact Option.bind_eq_some_iff.mpr ⟨code₁, hbefore,
    Option.bind_eq_some_iff.mpr ⟨code₂, hexpand, hafter⟩⟩

end Subject

end ForkLisp.Optimize
