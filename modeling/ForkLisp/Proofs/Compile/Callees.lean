/-
The functions that code refers to.

`callees` lists the functions that instructions call or start tasks for. In generated code they are
what the names stand for that the body calls, name by name and in the same order
(`ResolvesBody.callees`). An optimizer writes no call that it has not read: optimized code only
refers to functions that the code it was made from refers to, or the code of one of these does
(`Subject.refers_optimize`).
-/
import ForkLisp.Proofs.Optimize.Writing
import ForkLisp.Proofs.Terms.Generated
import ForkLisp.Optimize.Rounds

namespace ForkLisp.Code

/-- The functions that instructions refer to, in order. -/
def callees (is : List Inst) : List FuncId := is.filterMap Inst.callee?

@[simp] theorem callees_nil : callees [] = [] := rfl

@[simp] theorem callees_append (is js : List Inst) :
    callees (is ++ js) = callees is ++ callees js :=
  List.filterMap_append

@[simp] theorem callees_cons (i : Inst) (is : List Inst) :
    callees (i :: is) = i.callee?.toList ++ callees is := by
  unfold callees
  cases h : i.callee? with
  | none => rw [List.filterMap_cons_none h, Option.toList_none, List.nil_append]
  | some id => rw [List.filterMap_cons_some h, Option.toList_some, List.singleton_append]

theorem mem_callees {id : FuncId} {is : List Inst} :
    id ∈ callees is ↔ ∃ i ∈ is, i.callee? = some id :=
  List.mem_filterMap

end ForkLisp.Code

namespace ForkLisp.Reader

open ForkLisp.Compile

mutual

/-- The names of functions that a form calls. Those that its arguments call come before its own, as
they do in the code. -/
def Form.calledNames : Form → List String
  | .list _ (.symbol _ name :: args) =>
    calledNamesAll args ++ if (Builtin.ofName? name).isSome then [] else [name]
  | _ => []

/-- The names of functions that some forms call. -/
def calledNamesAll : List Form → List String
  | [] => []
  | f :: fs => f.calledNames ++ calledNamesAll fs

end

end ForkLisp.Reader

namespace ForkLisp.Terms

open ForkLisp.Code ForkLisp.Compile ForkLisp.Reader

/-! ### Generated code -/

theorem callees_joinCode (ts : List Term) (r : Reg) : callees (joinCode ts r) = [] := by
  induction ts generalizing r with
  | nil => rfl
  | cons t ts ih =>
    rw [joinCode, callees_append, ih]
    cases t.isTask <;> rfl

theorem callees_foldCode (op : ArithOp) (dst : Reg) (ts : List Term) (r : Reg) :
    callees (foldCode op dst ts r) = [] := by
  induction ts generalizing r with
  | nil => rfl
  | cons t ts ih =>
    rw [foldCode, callees_cons, ih]
    rfl

section

variable {s : Scope} {params : List String}

/-- The functions that names stand for, name by name. -/
def Scope.Binds (s : Scope) (names : List String) (ids : List FuncId) : Prop :=
  List.Forall₂ (fun name id => s.names.find? name = some id) names ids

theorem Scope.Binds.append {ns ms : List String} {is js : List FuncId} (h : s.Binds ns is)
    (h' : s.Binds ms js) : s.Binds (ns ++ ms) (is ++ js) :=
  List.rel_append h h'

mutual

/-- The code of a term refers to what the names stand for that the form calls. -/
theorem Resolves.binds : ∀ {f t k}, Resolves s params f t k → ∀ r,
    s.Binds f.calledNames (callees (t.emit r))
  | _, _, _, .int, _ | _, _, _, .float, _ | _, _, _, .truth _, _ | _, _, _, .param _ _, _
  | _, _, _, .global _ _ _, _ | _, _, _, .nil, _ => .nil
  | _, _, _, .call hb hid _ _ ha, r => by
    simpa [Form.calledNames, hb, Term.emit, Inst.callee?] using (ha.binds _).append (.cons hid .nil)
  | _, _, _, .neutral hb, r => by
    rw [Form.calledNames, hb]
    exact .nil
  | _, _, _, .same hb _ h, r => by
    simpa [Form.calledNames, calledNamesAll, hb] using h.binds r
  | _, _, _, .negate hb h, r => by
    simpa [Form.calledNames, calledNamesAll, hb, Term.emit, Inst.callee?] using h.binds r
  | _, _, _, .arith hb _ h, r => by
    simpa [Form.calledNames, hb, Term.emit, callees_joinCode, callees_foldCode, emitOperands] using
      h.binds r
  | _, _, _, .compare hb hl hr, r => by
    simpa [Form.calledNames, calledNamesAll, hb, Term.emit, Inst.callee?] using
      (hl.binds r).append (hr.binds (r + 1))
  | _, _, _, .short hb hc h, r => by
    simpa [Form.calledNames, calledNamesAll, hb, Term.emit, Inst.callee?] using
      (hc.binds r).append (h.binds r)
  | _, _, _, .full hb hc h h', r => by
    simpa [Form.calledNames, calledNamesAll, hb, Term.emit, Inst.callee?] using
      ((hc.binds r).append ((h.binds r).append (h'.binds r)))
  | _, _, _, .assign hb _ h, r => by
    simpa [Form.calledNames, calledNamesAll, hb, Term.emit, Inst.callee?] using h.binds r
  | _, _, _, .print (k := k) hb h, r => by
    have hi : Inst.callee? (if k = .bool then .printBool r else .print r) = none := by
      split <;> rfl
    simpa [Form.calledNames, calledNamesAll, hb, Term.emit, hi] using h.binds r

theorem ResolvesAll.binds : ∀ {fs ts}, ResolvesAll s params fs ts → ∀ r,
    s.Binds (calledNamesAll fs) (callees (emitArguments ts r))
  | _, _, .nil, _ => .nil
  | _, _, .cons h hs, r => by
    rw [calledNamesAll, emitArguments, callees_append]
    exact (h.binds r).append (hs.binds (r + 1))

theorem ResolvesOperands.binds : ∀ {fs ts}, ResolvesOperands s params fs ts → ∀ r,
    s.Binds (calledNamesAll fs) (callees (emitOperands ts r))
  | _, _, .nil, _ => .nil
  | _, _, .value h hs, r => by
    rw [calledNamesAll, emitOperands, callees_append]
    exact (h.binds r).append (hs.binds _)
  | _, _, .task _ hb hid _ _ ha hs, r => by
    have hcall := (ha.binds (r + 3)).append (.cons hid .nil)
    simpa [calledNamesAll, Form.calledNames, hb, emitOperands, Term.emit, Inst.callee?] using
      hcall.append (hs.binds _)

theorem ResolvesTest.binds : ∀ {f skip a b}, ResolvesTest s params f skip a b → ∀ r,
    s.Binds f.calledNames (callees (a.emit r) ++ callees (b.emit (r + 1)))
  | _, _, _, _, .compared hb hl hr, r => by
    simpa [Form.calledNames, calledNamesAll, hb] using (hl.binds r).append (hr.binds (r + 1))
  | _, _, _, _, .value h, r => by
    simpa [Term.emit, Inst.callee?] using h.binds r

end

/-- So does the code of a body. -/
theorem ResolvesBody.binds {fs : List Form} {ts : List Term} {k : Kind}
    (h : ResolvesBody s params fs ts k) (r : Reg) :
    s.Binds (calledNamesAll fs) (callees (bodyCode ts r).toList) := by
  have hsequence : s.Binds (calledNamesAll fs) (callees (emitSequence ts r)) := by
    induction h with
    | last h => simpa [calledNamesAll, emitSequence] using h.binds r
    | more h _ ih => simpa [calledNamesAll, emitSequence] using (h.binds r).append ih
  simpa [bodyCode, Inst.callee?] using hsequence

end

end ForkLisp.Terms

namespace ForkLisp.Optimize

open ForkLisp.Code

/-! ### Optimized code -/

/-- All functions that code refers to are among some. -/
def RefersWithin (among : FuncId → Prop) (code : ForkLisp.Code) : Prop :=
  ∀ id ∈ callees code.toList, among id

section

variable {among : FuncId → Prop} {code : ForkLisp.Code} {s : Site} {i j : Inst}

theorem refersWithin_iff : RefersWithin among code ↔
    ∀ (n : Nat) i id, code[n]? = some i → i.callee? = some id → among id := by
  constructor
  · intro h n i id hi hid
    exact h id (mem_callees.mpr ⟨i, Array.mem_toList_iff.mpr (Array.mem_of_getElem? hi), hid⟩)
  · intro h id hid
    obtain ⟨i, hi, hid⟩ := mem_callees.mp hid
    obtain ⟨n, hn⟩ := Array.mem_iff_getElem?.mp (Array.mem_toList_iff.mp hi)
    exact h n i id hn hid

theorem callee?_withOffset (offset : Int) (i : Inst) :
    (i.withOffset offset).callee? = i.callee? := by
  cases i <;> rfl

theorem callee?_rebase (base : Reg) (i : Inst) : (i.rebase base).callee? = i.callee? := by
  cases i <;> rfl

theorem callee?_normalize (i : Inst) : (normalize i).callee? = i.callee? := by
  unfold normalize
  split <;> rfl

theorem callee?_tidy (h : tidy i = some j) : j.callee? = i.callee? := by
  rcases tidy_eq_some h with rfl | ⟨d, rfl, rfl⟩ <;> rfl

theorem callee?_of_straight (h : isStraight i = true) : i.callee? = none := by
  cases i <;> first | rfl | exact absurd h (by simp [isStraight])

theorem callee?_of_isPlain (h : i.isPlain = true) : i.callee? = none := by
  cases i <;> first | rfl | cases h

/-- No instruction that stands for two neighbours refers to a function. -/
theorem fuse_callee? {dead : Reg → Option Bool} {y : Fusion} (h : fuse dead i j = some y) :
    y.All (·.callee? = none) :=
  (fuse_combines h).imp fun _ hk => callee?_of_isPlain hk.plain

/-- A property that depends on callees only, and that holds where there is none, is kept
by rewriting. -/
theorem rewritable_of_callee? {P : Inst → Prop} (hnone : ∀ i, i.callee? = none → P i)
    (hwithOffset : ∀ i offset, P i → P (i.withOffset offset))
    (htidy : ∀ i j, tidy i = some j → P i → P j) : Rewritable P where
  stop := hnone _ rfl
  jump := hnone _ rfl
  withOffset := hwithOffset
  tidy := htidy
  fuse _ _ _ _ h _ _ := (fuse_callee? h).imp hnone

/-- All functions that an instruction refers to are among some. -/
def RefersTo (among : FuncId → Prop) (i : Inst) : Prop := ∀ id, i.callee? = some id → among id

theorem RefersTo.of_none (h : i.callee? = none) : RefersTo among i :=
  fun _ hid => absurd (h.symm.trans hid) (by simp)

theorem RefersTo.congr (h : j.callee? = i.callee?) (hi : RefersTo among i) : RefersTo among j :=
  fun id hid => hi id (h.symm.trans hid)

theorem Site.grants_refers (h : RefersWithin among s.code) :
    s.Grants (RefersTo among) fun _ _ => True where
  rewritable := rewritable_of_callee? (fun _ => .of_none)
    (fun i offset => .congr (callee?_withOffset offset i)) fun _ _ hj => .congr (callee?_tidy hj)
  fetch pc i hi := by
    obtain ⟨j, hj, rfl⟩ := Option.map_eq_some_iff.mp hi
    exact .congr (callee?_normalize _)
      (.congr (callee?_rebase _ j) (refersWithin_iff.mp h pc j · hj))
  handOver _ _ _ hr _ := .of_none (callee?_of_straight (isStraight_handOver hr))
  target _ _ _ _ _ := trivial
  behind _ _ _ _ := trivial
  caller _ _ := trivial

end

/-! ### Passes and rounds -/

namespace Subject

open ForkLisp.Compile

/-- Whatever is copied in refers to some functions only, if it is the code of one of them. The
function that is optimized itself is left out, for its code is at hand. -/
def CopiesWithin (among : FuncId → Prop) (subject : Subject) : Prop :=
  ∀ id f, among id → subject.this ≠ some id → subject.context.function? id = some f →
    RefersWithin among f.code

variable {among : FuncId → Prop} {subject : Subject} {code : ForkLisp.Code}

/-- What is copied in refers to functions that the code refers to, or the code of one
of these does. -/
theorem refers_calleeCode (hcode : RefersWithin among subject.code)
    (hcopies : subject.CopiesWithin among) {callee : FuncId} (hc : among callee)
    (h : subject.calleeCode? callee = some code) : RefersWithin among code := by
  unfold calleeCode? at h
  split at h
  · obtain rfl := Option.some.inj h
    exact hcode
  · rename_i hother
    obtain ⟨f, hf, rfl⟩ := Option.map_eq_some_iff.mp h
    exact hcopies callee f hc hother hf

theorem refers_pass {inline : Inliner} (hcode : RefersWithin among subject.code)
    (hin : inline.Grants subject.site (RefersTo among) fun _ _ => True)
    (h : subject.pass inline = some code) : RefersWithin among code :=
  refersWithin_iff.mpr fun n i id hi =>
    pass_all (Site.grants_refers (s := subject.site) hcode) hin h n i hi id

theorem refers_inline (hcode : RefersWithin among subject.code)
    (hcopies : subject.CopiesWithin among) :
    subject.inline.Grants subject.site (RefersTo among) fun _ _ => True := by
  refine inline_grants fun callee code shift pc d hi hcallee _ => ?_
  have hc := (Site.grants_refers (s := subject.site) hcode).fetch _ _ hi callee rfl
  exact Site.grants_refers (refers_calleeCode hcode hcopies hc hcallee)

theorem refers_cleanupRounds (n : Nat) (hcode : RefersWithin among subject.code)
    (h : subject.cleanupRounds n = some code) : RefersWithin among code := by
  induction n generalizing subject with
  | zero =>
    obtain rfl := Option.some.inj h
    exact hcode
  | succ n ih =>
    obtain ⟨code₁, hpass, h⟩ := Option.bind_eq_some_iff.mp h
    refine ih ?_ h
    exact refers_pass hcode (keepCalls_grants _ _ _) hpass

theorem refers_expandRounds (n : Nat) (hcode : RefersWithin among subject.code)
    (hcopies : subject.CopiesWithin among) (h : subject.expandRounds n = some code) :
    RefersWithin among code := by
  induction n generalizing subject with
  | zero =>
    obtain rfl := Option.some.inj h
    exact hcode
  | succ n ih =>
    unfold expandRounds at h
    split at h
    · obtain rfl := Option.some.inj h
      exact hcode
    · obtain ⟨code₁, hpass, h⟩ := Option.bind_eq_some_iff.mp h
      refine ih ?_ ?_ h
      · exact refers_pass hcode (refers_inline hcode hcopies) hpass
      · exact hcopies

/-- Optimized code refers to functions that the code refers to, or the code of one of these does. -/
theorem refers_optimize (hcode : RefersWithin among subject.code)
    (hcopies : subject.CopiesWithin among) (h : subject.optimize = some code) :
    RefersWithin among code := by
  obtain ⟨code₁, h₁, h⟩ := Option.bind_eq_some_iff.mp h
  obtain ⟨code₂, h₂, h⟩ := Option.bind_eq_some_iff.mp h
  have hc₁ := refers_cleanupRounds roundsBefore hcode h₁
  have hc₂ : RefersWithin among code₂ := by
    refine refers_expandRounds _ ?_ ?_ h₂
    · exact hc₁
    · exact hcopies
  refine refers_cleanupRounds roundsAfter ?_ h
  exact hc₂

end Subject

end ForkLisp.Optimize
