/-
Which functions code refers to.

A history lists the definitions that have succeeded, with the functions that came of them. A
function keeps its place in it for good: the name of a function may come to stand for another one,
but code goes on to refer to the one that the name stood for when the code was compiled, also where
calls have been copied from callees (`identity_stable`). So later definitions never change what
comes of a program.
-/
import Mathlib.Logic.Relation
import ForkLisp.Proofs.Schedule.Tables
import ForkLisp.Proofs.Session.Refusal

namespace ForkLisp.Session

open ForkLisp.Code ForkLisp.Compile ForkLisp.Machine ForkLisp.Optimize ForkLisp.Reader
  ForkLisp.Reference ForkLisp.Schedule ForkLisp.Terms Relation

/-! ### Histories -/

/-- A definition that has succeeded, and the function that came of it. -/
structure Defined where
  definition : Definition
  function : Function

/-- The name that is defined. -/
def Defined.name (d : Defined) : String := d.definition.name

/-- What a form defines if it does not fail: the function that the name stands for afterwards. -/
def defined (c : Context) (f : Form) : List Defined :=
  let r := compile c f
  match r.outcome, definition? f with
  | .ok (.function name), some d =>
    ((r.context.findFunction? name).bind r.context.function?).toList.map (⟨d, ·⟩)
  | _, _ => []

/-- What happens in a session: forms are compiled, some of which add a definition to the history,
the table of functions is made, and programs change the globals. -/
inductive Leads (ds : List Defined) (c : Context) : List Defined → Context → Prop where
  | refl : Leads ds c ds c
  | compile {ds' : List Defined} {c' : Context} (h : Leads ds c ds' c') (f : Form) :
      Leads ds c (ds' ++ defined c' f) (compile c' f).context
  | tabulate {ds' : List Defined} {c' : Context} (h : Leads ds c ds' c') :
      Leads ds c ds' c'.functionTable.2
  | assign {ds' : List Defined} {c' : Context} (h : Leads ds c ds' c') (values : Array Slot) :
      Leads ds c ds' (c'.withGlobalValues values)

/-- A name stands for the latest function of a history that has it. -/
structure Stands (ds : List Defined) (name : String) (id : FuncId) : Prop where
  named : (ds[id]?).map Defined.name = some name
  latest : ∀ j, id < j → (ds[j]?).map Defined.name ≠ some name

/-- The body of the definition `i` calls a name that stood for the function `k` when it
was compiled. -/
def Calls (ds : List Defined) (i k : FuncId) : Prop :=
  ∃ d name, ds[i]? = some d ∧ name ∈ calledNamesAll d.definition.body ∧
    Stands (ds.take (i + 1)) name k

/-- A context has the functions of a history. The code of a function refers, name by name, to
what the names stood for when it was compiled; its final code refers to what can be reached
by such calls. -/
structure Records (ds : List Defined) (c : Context) : Prop where
  functions : c.functions.toList = ds.map Defined.function
  table : c.functionTable.1.toList =
    ds.map fun d => some (lower d.function.code d.definition.params.length)
  names : ∀ name id, c.findFunction? name = some id ↔ Stands ds name id
  raw : ∀ i d, ds[i]? = some d → List.Forall₂ (Stands (ds.take (i + 1)))
    (calledNamesAll d.definition.body) (callees d.function.raw.toList)
  code : ∀ i d, ds[i]? = some d → RefersWithin (TransGen (Calls ds) i) d.function.code

variable {settings : Settings} {ds ds' : List Defined} {c c' : Context}

theorem Leads.evolves (h : Leads [] (.new settings) ds c) : Context.Evolves settings c := by
  induction h with
  | refl => exact .new
  | compile _ f ih => exact ih.compile f
  | tabulate _ ih => exact ih.tabulate
  | assign _ values ih => exact ih.assign values

theorem Leads.trans {ds'' : List Defined} {c'' : Context} (h : Leads ds c ds' c')
    (h' : Leads ds' c' ds'' c'') : Leads ds c ds'' c'' := by
  induction h' with
  | refl => exact h
  | compile _ f ih => exact ih.compile f
  | tabulate _ ih => exact ih.tabulate
  | assign _ values ih => exact ih.assign values

/-- A history only grows. -/
theorem Leads.grows (h : Leads ds c ds' c') : ∃ more, ds' = ds ++ more := by
  induction h with
  | refl => exact ⟨[], (List.append_nil ds).symm⟩
  | compile _ f ih =>
    obtain ⟨more, rfl⟩ := ih
    exact ⟨more ++ _, List.append_assoc ..⟩
  | tabulate _ ih | assign _ _ ih => exact ih

/-! ### Names -/

theorem lt_of_named {name : String} {i : Nat} (h : (ds[i]?).map Defined.name = some name) :
    i < ds.length := by
  obtain ⟨d, hd, -⟩ := Option.map_eq_some_iff.mp h
  exact (List.getElem?_eq_some_iff.mp hd).1

theorem Stands.lt {name : String} {id : FuncId} (h : Stands ds name id) : id < ds.length :=
  lt_of_named h.named

/-- A member of a list with one more is a member of the list or the one more. -/
theorem getElem?_concat {α : Type} {l : List α} {a b : α} {i : Nat} :
    (l ++ [a])[i]? = some b ↔ l[i]? = some b ∨ i = l.length ∧ a = b := by
  rcases Nat.lt_trichotomy i l.length with hi | rfl | hi
  · rw [List.getElem?_append_left hi]
    exact (or_iff_left fun h => Nat.ne_of_lt hi h.1).symm
  · rw [List.getElem?_concat_length, List.getElem?_eq_none (Nat.le_refl _), Option.some.injEq]
    exact ⟨fun h => .inr ⟨rfl, h⟩, fun h => h.elim nofun And.right⟩
  · rw [List.getElem?_eq_none (Nat.le_of_lt hi), List.getElem?_eq_none (by simpa using hi)]
    exact ⟨nofun, fun h => h.elim nofun fun h => absurd h.1 (Nat.ne_of_gt hi)⟩

theorem named_concat (d : Defined) (name : String) (i : Nat) :
    ((ds ++ [d])[i]?).map Defined.name = some name ↔
      (ds[i]?).map Defined.name = some name ∨ i = ds.length ∧ d.name = name := by
  rw [← List.getElem?_map, ← List.getElem?_map, List.map_append,
    List.map_singleton, getElem?_concat, List.length_map]

/-- A name stands for the function that has just been defined, if that has it. -/
theorem stands_concat (d : Defined) (name : String) (id : FuncId) :
    Stands (ds ++ [d]) name id ↔ if name = d.name then id = ds.length else Stands ds name id := by
  split
  · rename_i hname
    have hlast := (named_concat d name ds.length).mpr (.inr ⟨rfl, hname.symm⟩)
    constructor
    · intro h
      rcases (named_concat d name id).mp h.named with hbefore | ⟨hid, -⟩
      · exact absurd hlast (h.latest ds.length (lt_of_named hbefore))
      · exact hid
    · rintro rfl
      refine ⟨hlast, fun j hj hnamed => ?_⟩
      rcases (named_concat d name j).mp hnamed with hbefore | ⟨rfl, -⟩
      · exact Nat.lt_asymm hj (lt_of_named hbefore)
      · exact Nat.lt_irrefl _ hj
  · rename_i hname
    have hsame : ∀ j, ((ds ++ [d])[j]?).map Defined.name = some name ↔
        (ds[j]?).map Defined.name = some name := fun j =>
      (named_concat d name j).trans (or_iff_left fun h => hname h.2.symm)
    constructor
    · exact fun h => ⟨(hsame id).mp h.named, fun j hj => (hsame j).not.mp (h.latest j hj)⟩
    · exact fun h => ⟨(hsame id).mpr h.named, fun j hj => (hsame j).not.mpr (h.latest j hj)⟩

/-! ### Calls -/

theorem Calls.lt {i k : FuncId} (h : Calls ds i k) : i < ds.length ∧ k ≤ i := by
  obtain ⟨d, name, hd, -, hk⟩ := h
  have hlt := hk.lt
  rw [List.length_take] at hlt
  have hle := Nat.lt_of_lt_of_le hlt (Nat.min_le_left _ _)
  exact ⟨(List.getElem?_eq_some_iff.mp hd).1, Nat.le_of_lt_succ hle⟩

theorem Calls.append {i k : FuncId} (h : Calls ds i k) (more : List Defined) :
    Calls (ds ++ more) i k := by
  have hi := h.lt.1
  obtain ⟨d, name, hd, hname, hk⟩ := h
  refine ⟨d, name, (List.getElem?_append_left hi).trans hd, hname, ?_⟩
  rwa [List.take_append_of_le_length hi]

theorem calls_le (more : List Defined) : Calls ds ≤ Calls (ds ++ more) := fun _ _ h => h.append more

/-- The last definition calls what the names in its body stand for. -/
theorem calls_of_stands {d : Defined} {ids : List FuncId}
    (h : List.Forall₂ (Stands (ds ++ [d])) (calledNamesAll d.definition.body) ids) :
    ∀ id ∈ ids, Calls (ds ++ [d]) ds.length id := by
  intro id hid
  obtain ⟨name, hname, hstands⟩ := exists_of_mem_right h hid
  refine ⟨d, name, List.getElem?_concat_length, hname, ?_⟩
  rwa [List.take_of_length_le (by simp)]

theorem le_of_calls {i k : FuncId} (h : TransGen (Calls ds) i k) : k ≤ i := by
  induction h with
  | single h => exact h.lt.2
  | tail _ h ih => exact Nat.le_trans h.lt.2 ih

/-! ### Records -/

theorem Records.length (h : Records ds c) : c.functions.size = ds.length := by
  rw [← Array.length_toList, h.functions, List.length_map]

theorem Records.function? (h : Records ds c) (id : FuncId) :
    c.function? id = (ds[id]?).map Defined.function := by
  show c.functions[id]? = _
  rw [← Array.getElem?_toList, h.functions, List.getElem?_map]

/-- The table is that of the functions. -/
theorem Context.Evolves.functionTable_fst (h : Context.Evolves settings c) :
    c.functionTable.1 = c.currentTable := by
  obtain ⟨-, closures, htraced⟩ := h.traced
  rw [functionTable_eq htraced]

theorem records_new (settings : Settings) : Records [] (.new settings) where
  functions := rfl
  table := by simp [Context.functionTable, Context.currentTable, Context.new]
  names name id := by
    constructor
    · intro h
      cases h
    · intro h
      exact absurd h.lt (Nat.not_lt_zero _)
  raw i d h := by cases h
  code i d h := by cases h

/-- A history is about nothing but the functions and their names. -/
theorem Records.of_eq (h : Records ds c) (hc : Context.Evolves settings c)
    (hc' : Context.Evolves settings c') (hf : c'.functions = c.functions)
    (hn : c'.names = c.names) :
    Records ds c' where
  functions := by rw [hf, h.functions]
  table := by
    rw [← h.table, hc.functionTable_fst, hc'.functionTable_fst]
    unfold Context.currentTable
    rw [hf]
  names name id := by
    rw [← h.names]
    unfold Context.findFunction?
    rw [hn]
  raw := h.raw
  code := h.code

/-- Final code refers to what the code refers to, and to what callees do whose code is copied. -/
theorem refers_finalCode {among : FuncId → Prop} {this : Option FuncId} {raw : ForkLisp.Code}
    (hraw : RefersWithin among raw) (hcopies : (Subject.mk c this raw).CopiesWithin among) :
    RefersWithin among (finalCode c this raw).1 := by
  unfold finalCode
  split
  · dsimp only
    split
    · rename_i code hcode
      exact Subject.refers_optimize hraw hcopies hcode
    · exact hraw
  · exact hraw

/-- The code of functions refers to what is among some, if they are and whatever they call. -/
theorem Records.refersWithin (h : Records ds c) {among : FuncId → Prop}
    (hamong : ∀ i k, among i → Calls ds i k → among k) {i : FuncId} {f : Function} (hi : among i)
    (hf : c.function? i = some f) : RefersWithin among f.code := by
  rw [h.function?] at hf
  obtain ⟨d, hd, rfl⟩ := Option.map_eq_some_iff.mp hf
  intro k hk
  have hcalls := h.code i d hd k hk
  clear hk
  induction hcalls with
  | single hcall => exact hamong i _ hi hcall
  | tail _ hcall ih => exact hamong _ _ ih hcall

/-- When the name of another function has been bound, names stand for what they do in the
history with it. -/
theorem Records.insert_names (h : Records ds c) (d : Defined) (name : String) (id : FuncId) :
    (c.names.insert d.name c.functions.size).find? name = some id ↔ Stands (ds ++ [d]) name id := by
  rw [Bindings.find?_insert, stands_concat, ← h.length]
  split
  · exact ⟨fun heq => (Option.some.inj heq).symm, fun heq => congrArg some heq.symm⟩
  · exact h.names name id

/-- A definition is added to the history. -/
theorem Records.concat (h : Records ds c) (hc : Context.Evolves settings c)
    (hc' : Context.Evolves settings c') {d : Defined}
    (hf : c'.functions = c.functions.push d.function)
    (hn : c'.names = c.names.insert d.name c.functions.size)
    (hl : d.function.lowered = some (lower d.function.code d.definition.params.length))
    (hraw : List.Forall₂ (Stands (ds ++ [d])) (calledNamesAll d.definition.body)
      (callees d.function.raw.toList))
    (hcode : RefersWithin (TransGen (Calls (ds ++ [d])) ds.length) d.function.code) :
    Records (ds ++ [d]) c' where
  functions := by rw [hf, Array.toList_push, h.functions, List.map_append, List.map_singleton]
  table := by
    have htable := h.table
    rw [hc.functionTable_fst] at htable
    rw [hc'.functionTable_fst, List.map_append, List.map_singleton, ← htable, ← hl]
    unfold Context.currentTable
    rw [hf, Array.map_push, Array.toList_push]
  names name id := by
    rw [← h.insert_names]
    unfold Context.findFunction?
    rw [hn]
  raw i e he := by
    rcases getElem?_concat.mp he with he | ⟨rfl, rfl⟩
    · rw [List.take_append_of_le_length (List.getElem?_eq_some_iff.mp he).1]
      exact h.raw i e he
    · rwa [List.take_of_length_le (by simp)]
  code i e he := by
    rcases getElem?_concat.mp he with he | ⟨rfl, rfl⟩
    · exact fun k hk => TransGen.mono (calls_le [d]) _ _ (h.code i e he k hk)
    · exact hcode

theorem complete_functions {own : Context} {d : Definition} {k : Kind} {raw code : ForkLisp.Code}
    (hg : Grows (c.define d.name d.params).1 own) :
    (own.complete c.functions.size k raw code).functions =
      c.functions.push ⟨d.name, d.params, k, raw, code, some (lower code d.params.length)⟩ := by
  refine Array.ext_getElem? fun i => ?_
  rw [Array.getElem?_push]
  rcases Nat.lt_trichotomy i c.functions.size with hi | rfl | hi
  · rw [if_neg (Nat.ne_of_lt hi)]
    exact complete_of_lt hg hi
  · rw [if_pos rfl]
    exact complete_self hg
  · rw [if_neg (Nat.ne_of_gt hi), Array.getElem?_eq_none (Nat.le_of_lt hi),
      Array.getElem?_eq_none ((complete_size hg).symm ▸ hi)]

/-- Compiling a form adds what it defines to the history. -/
theorem Records.compile (h : Records ds c) (hc : Context.Evolves settings c) (f : Form) :
    Records (ds ++ defined c f) (compile c f).context := by
  have hc' := hc.compile f
  have hnames := compile_names hc.sorted f
  have hr := compile_arises c f
  unfold defined
  generalize ForkLisp.Compile.compile c f = r at hc' hnames hr
  cases hr with
  | failed hsame =>
    dsimp only
    rw [List.append_nil]
    exact h.of_eq hc hc' hsame.functions hnames
  | entry hd hg hb =>
    dsimp only
    rw [List.append_nil]
    exact h.of_eq hc hc' hg.functions hg.names
  | @defined d own k ts log hd hg hb =>
    have hfunctions : (own.complete c.functions.size k (bodyCode ts d.params.length)
        (finalCode own (some c.functions.size) (bodyCode ts d.params.length)).1).functions = _ :=
      complete_functions hg
    have hfind : own.findFunction? d.name = some c.functions.size := by
      unfold Context.findFunction?
      rw [hg.names]
      exact (Bindings.find?_insert _ _ _ _).trans (if_pos rfl)
    rw [hd]
    dsimp only
    rw [show Context.findFunction? (own.complete _ _ _ _) d.name = _ from hfind, Option.bind_some,
      complete_self hg, Option.toList_some, List.map_singleton]
    have hraw : ∀ fn, List.Forall₂ (Stands (ds ++ [⟨d, fn⟩])) (calledNamesAll d.body)
        (callees (bodyCode ts d.params.length).toList) :=
      fun fn => (hb.binds d.params.length).imp fun name id hid =>
        (h.insert_names ⟨d, fn⟩ name id).mp ((congrArg (·.find? name) hg.names).symm.trans hid)
    refine h.concat hc hc' hfunctions hg.names rfl (hraw _) ?_
    refine refers_finalCode (fun id hid => .single (calls_of_stands (hraw _) id hid))
      fun id g hid hself hg' => ?_
    -- a callee that was defined earlier
    have hlt : id < c.functions.size := by
      have hlt := (Array.getElem?_eq_some_iff.mp (show own.functions[id]? = some g from hg')).1
      rw [hg.functions, show (c.define d.name d.params).1.functions.size = _ from
        Array.size_push _] at hlt
      exact Nat.lt_of_le_of_ne (Nat.le_of_lt_succ hlt) fun heq => hself (congrArg some heq.symm)
    exact h.refersWithin (fun i k hi hcall => hi.tail (hcall.append _)) hid
      ((define_of_lt hg hlt).symm.trans hg')

theorem Leads.records (h : Leads [] (.new settings) ds c) : Records ds c := by
  induction h with
  | refl => exact records_new settings
  | compile h f ih => exact ih.compile h.evolves f
  | @tabulate ds' c' h ih =>
    have htable : c'.functionTable.2.functions = c'.functions ∧
        c'.functionTable.2.names = c'.names := by
      unfold Context.functionTable
      split <;> exact ⟨rfl, rfl⟩
    exact ih.of_eq h.evolves h.tabulate.evolves htable.1 htable.2
  | assign h values ih => exact ih.of_eq h.evolves (h.assign values).evolves rfl rfl

/-! ### Forms that are run -/

/-- What the code of a form may refer to: what stands for a name that it calls, and what can be
reached from there by calls. -/
def CalledFrom (ds : List Defined) (f : Form) (id : FuncId) : Prop :=
  ∃ name k, name ∈ f.calledNames ∧ Stands ds name k ∧ ReflTransGen (Calls ds) k id

/-- The code of a form, as it was generated, refers to what the names stand for that the form calls,
name by name; its final code refers to what can be reached from there. -/
structure RefersFrom (ds : List Defined) (c : Context) (f : Form) (code : Lowered) : Prop where
  raw : ∃ raw, code = lower (finalCode c none raw).1 0 ∧
    List.Forall₂ (Stands ds) f.calledNames (callees raw.toList)
  code : RefersWithin (CalledFrom ds f) code.code

theorem Records.entry (h : Records ds c) (hc : Context.Evolves settings c) {f : Form}
    {code : Lowered} (ho : (Compile.compile c f).outcome = .ok (.entry code)) :
    Records ds (Compile.compile c f).context ∧
    RefersFrom ds (Compile.compile c f).context f code := by
  have hc' := hc.compile f
  have hr := compile_arises c f
  generalize Compile.compile c f = r at hc' ho hr
  cases hr with
  | failed | defined => exact absurd ho (by simp)
  | @entry own k ts log hd hg hb =>
    obtain rfl := Compiled.entry.inj (Except.ok.inj ho)
    have hown : Records ds own := h.of_eq hc hc' hg.functions hg.names
    have hraw : List.Forall₂ (Stands ds) f.calledNames (callees (bodyCode ts 0).toList) := by
      have hbinds := hb.binds 0
      rw [calledNamesAll, calledNamesAll, List.append_nil] at hbinds
      exact hbinds.imp fun name id hid => (hown.names name id).mp hid
    refine ⟨hown, ⟨_, rfl, hraw⟩, ?_⟩
    refine refers_finalCode (fun id hid => ?_) fun id g hid _ hg' => hown.refersWithin ?_ hid hg'
    · obtain ⟨name, hname, hstands⟩ := exists_of_mem_right hraw hid
      exact ⟨name, id, hname, hstands, .refl⟩
    · rintro i k ⟨name, j, hname, hstands, hj⟩ hcall
      exact ⟨name, j, hname, hstands, hj.tail hcall⟩

/-- Programs of the same entry agree, the one with the functions of a history and the other with
those of a longer one. -/
theorem Records.agree {more : List Defined} (h : Records ds c) (h' : Records (ds ++ more) c')
    {entry : Lowered} (he : ∀ id ∈ callees entry.code.toList, id < ds.length) :
    Program.Agree ds.length ⟨c.functionTable.1, entry⟩ ⟨c'.functionTable.1, entry⟩ where
  entry := rfl
  func id hid := by
    show (c'.functionTable.1[id]?).join = (c.functionTable.1[id]?).join
    rw [← Array.getElem?_toList, ← Array.getElem?_toList, h.table, h'.table, List.getElem?_map,
      List.getElem?_map, List.getElem?_append_left hid]
  closed ref l href hl := by
    cases ref with
    | entry =>
      obtain rfl := Option.some.inj hl
      exact he
    | func i =>
      have hl : (c.functionTable.1[i]?).join = some l := hl
      rw [← Array.getElem?_toList, h.table, List.getElem?_map] at hl
      obtain ⟨d, hd, hl⟩ : ∃ d, ds[i]? = some d ∧
          lower d.function.code d.definition.params.length = l := by
        cases hd : ds[i]? with
        | none =>
          rw [hd] at hl
          cases hl
        | some d =>
          rw [hd] at hl
          exact ⟨d, rfl, Option.some.inj hl⟩
      subst hl
      exact fun id hid => Nat.lt_of_le_of_lt (le_of_calls (h.code i d hd id hid)) href

/-- Whatever a session has compiled and run before, with forms that failed and names that were
defined again: code refers to the functions that its names stood for when it was compiled, and the
table has their code. The next function gets a number that no code refers to, also when a form that
has failed had the number before. What is defined later leaves the table as it is for all functions
that exist, and programs that refer to these go on to do what they did. -/
theorem identity_stable (h : Leads [] (.new settings) ds c) :
    Records ds c ∧
    (∀ name params, (c.define name params).2.id = ds.length ∧
      ∀ d ∈ ds, ds.length ∉ callees d.function.raw.toList ∧
      ds.length ∉ callees d.function.code.toList) ∧
    (∀ f e, (compile c f).outcome = .error e → Leads [] (.new settings) ds (compile c f).context) ∧
    (∀ f code, (compile c f).outcome = .ok (.entry code) →
      Records ds (compile c f).context ∧ RefersFrom ds (compile c f).context f code) ∧
    ∀ ds' c', Leads ds c ds' c' → (∃ more, ds' = ds ++ more) ∧
      ∀ entry : Lowered, (∀ id ∈ callees entry.code.toList, id < ds.length) →
      ∀ workers poolSize stackSize globals, (∀ s ∈ globals, s.Below ds.length) → ∀ events view,
        (System.start workers poolSize stackSize globals ⟨c.functionTable.1, entry⟩).Shows
          events view ↔
          (System.start workers poolSize stackSize globals ⟨c'.functionTable.1, entry⟩).Shows
            events view := by
  have hrecords := h.records
  refine ⟨hrecords, fun name params => ⟨hrecords.length, fun d hd => ?_⟩, fun f e he => ?_,
    fun f code ho => hrecords.entry h.evolves ho, fun ds' c' h' => ⟨h'.grows, ?_⟩⟩
  · obtain ⟨i, hi⟩ := List.mem_iff_getElem?.mp hd
    have hi' := (List.getElem?_eq_some_iff.mp hi).1
    constructor
    · intro hmem
      obtain ⟨name, -, hstands⟩ := exists_of_mem_right (hrecords.raw i d hi) hmem
      have hlt := hstands.lt
      rw [List.length_take] at hlt
      exact Nat.lt_irrefl _ (Nat.lt_of_lt_of_le hlt (Nat.min_le_right _ _))
    · intro hmem
      exact Nat.lt_irrefl _ (Nat.lt_of_le_of_lt (le_of_calls (hrecords.code i d hi _ hmem)) hi')
  · rwa [compile_of_error h.evolves.sorted he]
  · intro entry he workers poolSize stackSize globals hg events view
    obtain ⟨more, rfl⟩ := h'.grows
    exact System.start_shows (hrecords.agree (h.trans h').records he) hg events view

/-- A session with a function and one that calls it. -/
def callerDefined : Context :=
  (compile (compile (.new single) (formOf "(defun f (x) x)")).context
    (formOf "(defun g (x) (f x))")).context

/-- The code that calls the second function with the number one. -/
def callingCode : Lowered := lower #[.intConst 2 1, .call 1 2, .ret 0, .stop] 0

/-- The first function is defined again. Its caller, into which it has been copied, goes
on as before. -/
theorem identity_stable_redefinition :
    let c' := (compile callerDefined (formOf "(defun f (x) 7)")).context
    ∃ ds, Leads [] (.new single) ds callerDefined ∧
      (ds.map fun d => (d.name, callees d.function.raw.toList, callees d.function.code.toList)) =
        [("f", [], []), ("g", [0], [])] ∧
      Records ds callerDefined ∧ c'.findFunction? "f" = some 2 ∧
      ∀ events view, (System.start 1 0 20 #[] ⟨callerDefined.functionTable.1, callingCode⟩).Shows
        events view ↔
        (System.start 1 0 20 #[] ⟨c'.functionTable.1, callingCode⟩).Shows events view := by
  obtain ⟨ds, hleads, hmap⟩ : ∃ ds, Leads [] (.new single) ds callerDefined ∧
      (ds.map fun d => (d.name, callees d.function.raw.toList, callees d.function.code.toList)) =
        [("f", [], []), ("g", [0], [])] := ⟨_, .compile (.compile .refl _) _, by cbv⟩
  have hlength := congrArg List.length hmap
  rw [List.length_map] at hlength
  obtain ⟨hrecords, -, -, -, hprograms⟩ := identity_stable hleads
  refine ⟨ds, hleads, hmap, hrecords, by cbv, fun events view => ?_⟩
  refine (hprograms _ _ (.compile .refl _)).2 callingCode ?_ 1 0 20 #[] (by simp) events view
  rw [hlength]
  decide

end ForkLisp.Session
