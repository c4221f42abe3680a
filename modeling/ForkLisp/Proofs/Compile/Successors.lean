/-
Contexts after compiling.

Compiling a form adds globals, which are zero, and a definition that compiles binds its name
(`compile_names`); one that fails leaves no trace. In contexts that resemble each other a form fails
alike or compiles alike, and the contexts afterwards resemble each other again
(`Resembles.compile`).
-/
import ForkLisp.Proofs.Compile.Origin

namespace ForkLisp.Compile

open ForkLisp.Code ForkLisp.Machine ForkLisp.Reader

/-! ### Names in order -/

namespace Bindings

variable {α : Type}

/-- The names of some entries increase. -/
def Increasing (es : List (String × α)) : Prop := es.Pairwise fun e e' => e.1 < e'.1

theorem mem_insertEntry {name : String} {a : α} {e : String × α} {es : List (String × α)}
    (h : e ∈ insertEntry name a es) : e = (name, a) ∨ e ∈ es := by
  induction es with
  | nil => exact .inl (List.mem_singleton.mp h)
  | cons e' es ih =>
    unfold insertEntry at h
    split at h
    · exact (List.mem_cons.mp h).imp_right (List.mem_cons_of_mem _)
    split at h
    · exact List.mem_cons.mp h
    rcases List.mem_cons.mp h with rfl | h
    · exact .inr List.mem_cons_self
    · exact (ih h).imp_right (List.mem_cons_of_mem _)

theorem increasing_insertEntry {name : String} {a : α} {es : List (String × α)}
    (h : Increasing es) :
    Increasing (insertEntry name a es) := by
  induction es with
  | nil => exact List.pairwise_singleton _ _
  | cons e es ih =>
    obtain ⟨hlt, hes⟩ := List.pairwise_cons.mp h
    unfold insertEntry
    split
    · rename_i heq
      exact List.pairwise_cons.mpr ⟨fun e' he => heq ▸ hlt e' he, hes⟩
    rename_i hne
    split
    · rename_i hbefore
      refine List.pairwise_cons.mpr ⟨fun e' he => ?_, h⟩
      rcases List.mem_cons.mp he with rfl | he
      · exact hbefore
      · exact String.lt_trans hbefore (hlt e' he)
    · rename_i hafter
      refine List.pairwise_cons.mpr ⟨fun e' he => ?_, ih hes⟩
      rcases mem_insertEntry he with rfl | he
      · exact Std.lt_of_le_of_ne (String.not_lt.mp hafter) (Ne.symm hne)
      · exact hlt e' he

/-- Binding a name to what it is bound to changes nothing. -/
theorem insertEntry_of_lookup {name : String} {a : α} {es : List (String × α)} (h : Increasing es)
    (ha : es.lookup name = some a) : insertEntry name a es = es := by
  induction es with
  | nil => exact absurd ha (by simp)
  | cons e es ih =>
    obtain ⟨key, b⟩ := e
    obtain ⟨hlt, hes⟩ := List.pairwise_cons.mp h
    unfold insertEntry
    by_cases hkey : name = key
    · subst hkey
      rw [if_pos rfl]
      rw [List.lookup_cons_self] at ha
      rw [Option.some.inj ha]
    · rw [if_neg hkey]
      rw [List.lookup_cons, beq_eq_false_iff_ne.mpr hkey] at ha
      have hmem : (name, a) ∈ es := by
        obtain ⟨front, back, rfl, -⟩ := List.lookup_eq_some_iff.mp ha
        exact List.mem_append_right _ List.mem_cons_self
      rw [if_neg fun hbefore => String.lt_irrefl name (String.lt_trans hbefore (hlt _ hmem)),
        ih hes ha]

end Bindings

/-- The names of functions increase. -/
def Context.Sorted (c : Context) : Prop := Bindings.Increasing c.names.entries

theorem Context.sorted_new (settings : Settings) : (Context.new settings).Sorted :=
  List.Pairwise.nil

theorem Context.Sorted.insert {c : Context} (h : c.Sorted) (name : String) (id : FuncId) :
    Bindings.Increasing (c.names.insert name id).entries :=
  Bindings.increasing_insertEntry h

/-- Taking back a registration restores the names. -/
theorem undefine_names {c own : Context} {name : String} {params : List String} (hs : c.Sorted)
    (hn : own.names = c.names.insert name c.functions.size) :
    (own.undefine (c.define name params).2).names = c.names := by
  simp only [Context.undefine, Context.define, hn]
  cases hfind : c.names.find? name with
  | none => exact Bindings.erase_insert _ hfind
  | some id =>
    dsimp only
    rw [Bindings.insert_insert]
    exact congrArg Bindings.mk (Bindings.insertEntry_of_lookup hs hfind)

/-! ### What compiling leaves -/

section

variable {c : Context}

/-- The names that are bound after a form was compiled. -/
def namesAfter (c : Context) (f : Form)
    (outcome : Except CompileError Compiled) : Bindings FuncId :=
  match outcome, definition? f with
  | .ok (.function _), some d => c.names.insert d.name c.functions.size
  | _, _ => c.names

theorem compile_names (hs : c.Sorted) (f : Form) :
    (compile c f).context.names = namesAfter c f (compile c f).outcome := by
  unfold compile
  cases hargs : definingArguments? f with
  | none =>
    have hgrows := generateBody_grows [] [f] 0 c
    unfold compileEntry
    generalize generateBody [] [f] 0 c = e at hgrows
    obtain ⟨code, own, out⟩ := e
    cases out with
    | error e => exact hgrows.names
    | ok k => exact hgrows.names
  | some args =>
    dsimp only
    cases hd : Definition.ofArguments f.range args with
    | error e => rfl
    | ok d =>
      have hdef := definition?_eq_some hargs hd
      have hgrows := generateBody_grows d.params d.body d.params.length (c.define d.name d.params).1
      unfold compileDefinition
      dsimp only
      generalize generateBody d.params d.body d.params.length (c.define d.name d.params).1 = e
        at hgrows
      obtain ⟨code, own, out⟩ := e
      cases out with
      | error e => exact undefine_names hs hgrows.names
      | ok k =>
        show own.names = _
        unfold namesAfter
        rw [hdef]
        exact hgrows.names

theorem compile_sorted (hs : c.Sorted) (f : Form) : (compile c f).context.Sorted := by
  unfold Context.Sorted
  rw [compile_names hs]
  unfold namesAfter
  split
  · exact hs.insert _ _
  · exact hs

theorem Compilation.Arises.settings {f : Form} {r : Compilation} (h : r.Arises c f) :
    r.context.settings = c.settings := by
  cases h with
  | failed h => exact h.settings
  | defined _ hg _ => exact hg.settings
  | entry _ hg _ => exact hg.settings

/-- Compiling adds globals that are zero. -/
theorem Compilation.Arises.globals {f : Form} {r : Compilation} (h : r.Arises c f) :
    ∃ more, r.context.globals = c.globals ++ more ∧ ∀ v ∈ more, v.value = .int 0 := by
  cases h with
  | failed h =>
    exact ⟨#[], by rw [Array.append_empty]; exact h.globals, fun _ hv => absurd hv (by simp)⟩
  | defined _ hg _ => exact hg.globals
  | entry _ hg _ => exact hg.globals

end

/-! ### Contexts that resemble each other -/

/-- Two forms compile to functions of the same name, or both to the code of an entry. -/
def Compiled.Alike : Compiled → Compiled → Prop
  | .function name, .function name' => name = name'
  | .entry _, .entry _ => True
  | _, _ => False

namespace Context.Resembles

variable {c c' : Context}

theorem size (h : c.Resembles c') : c'.functions.size = c.functions.size := by
  have := congrArg Array.size h.functions
  rwa [Array.size_map, Array.size_map] at this

theorem define (h : c.Resembles c') (name : String) (params : List String) :
    (c.define name params).1.Resembles (c'.define name params).1 := by
  refine ⟨?_, ?_, h.globals⟩
  · show c'.names.insert name c'.functions.size = c.names.insert name c.functions.size
    rw [h.names, h.size]
  · show (c'.functions.push _).map _ = (c.functions.push _).map _
    rw [Array.map_push, Array.map_push, h.functions]

theorem undefine {own own' : Context} (h : c.Resembles c') (ho : own.Resembles own') (name : String)
    (params : List String) : (own.undefine (c.define name params).2).Resembles
      (own'.undefine (c'.define name params).2) := by
  refine ⟨?_, ?_, ho.globals⟩
  · simp only [Context.undefine, Context.define, h.names, ho.names]
  · show (if c'.functions.size + 1 = own'.functions.size then own'.functions.pop
      else own'.functions).map _ = (if c.functions.size + 1 = own.functions.size
      then own.functions.pop else own.functions).map _
    rw [h.size, ho.size]
    split
    · rw [Array.map_pop, Array.map_pop, ho.functions]
    · exact ho.functions

theorem complete (h : c.Resembles c') (id : FuncId) (k : Kind)
    (raw code raw' code' : ForkLisp.Code) :
    (c.complete id k raw code).Resembles (c'.complete id k raw' code') := by
  refine ⟨h.names, ?_, h.globals⟩
  have hmodify : ∀ (fs : Array Function) (g : Function → Function),
      (∀ f, (g f).signature = (f.params, k)) →
      (fs.modify id g).map Function.signature =
        (fs.map Function.signature).modify id fun s => (s.1, k) := by
    intro fs g hg
    refine Array.ext_getElem? fun j => ?_
    rw [Array.getElem?_map, Array.getElem?_modify, Array.getElem?_modify, Array.getElem?_map]
    split
    · cases fs[j]? with
      | none => rfl
      | some f => exact congrArg some (hg f)
    · rfl
  unfold Context.complete
  dsimp only
  rw [hmodify _ _ fun _ => rfl, hmodify _ _ fun _ => rfl, h.functions]

theorem forgetGlobals (h : c.Resembles c') (mark : Nat) :
    (c.forgetGlobals mark).Resembles (c'.forgetGlobals mark) := by
  refine ⟨h.names, h.functions, ?_⟩
  show (c'.globals.take mark).map (·.name) = (c.globals.take mark).map (·.name)
  rw [Array.take_eq_extract, Array.take_eq_extract, Array.map_extract, Array.map_extract, h.globals]

theorem globals_size (h : c.Resembles c') : c'.globals.size = c.globals.size := by
  have := congrArg Array.size h.globals
  rwa [Array.size_map, Array.size_map] at this

/-- In contexts that resemble each other a form fails alike or compiles alike. -/
theorem compile (h : c.Resembles c') (f : Form) :
    (Compile.compile c f).context.Resembles (Compile.compile c' f).context ∧
      Compile.Alike Compiled.Alike (Compile.compile c f).outcome
        (Compile.compile c' f).outcome := by
  unfold Compile.compile
  cases hargs : definingArguments? f with
  | none =>
    have hm := @generateBody_matches [] [f] 0 0 c c' h
    unfold compileEntry
    generalize generateBody [] [f] 0 c = e at hm
    generalize generateBody [] [f] 0 c' = e' at hm
    obtain ⟨code, own, out⟩ := e
    obtain ⟨code', own', out'⟩ := e'
    have hout : Compile.Alike Eq out out' := hm.outcome
    -- one is refused if and only if the other is
    cases out <;> cases out'
    · refine ⟨?_, hout⟩
      rw [h.globals_size]
      exact hm.resembles.forgetGlobals _
    · exact hout.elim
    · exact hout.elim
    · exact ⟨hm.resembles, trivial⟩
  | some args =>
    dsimp only
    cases hd : Definition.ofArguments f.range args with
    -- a definition of the wrong form is refused before a function is declared
    | error e =>
      refine ⟨?_, rfl⟩
      rw [h.globals_size]
      exact h.forgetGlobals _
    | ok d =>
      have hm := @generateBody_matches d.params d.body d.params.length d.params.length _ _
        (h.define d.name d.params)
      unfold compileDefinition
      dsimp only
      generalize generateBody d.params d.body d.params.length (c.define d.name d.params).1 = e at hm
      generalize
        generateBody d.params d.body d.params.length (c'.define d.name d.params).1 = e' at hm
      obtain ⟨code, own, out⟩ := e
      obtain ⟨code', own', out'⟩ := e'
      have hout : Compile.Alike Eq out out' := hm.outcome
      -- a refused body takes its declaration back
      cases out <;> cases out'
      · refine ⟨?_, hout⟩
        rw [h.globals_size]
        exact (h.undefine hm.resembles _ _).forgetGlobals _
      · exact hout.elim
      · exact hout.elim
      · obtain rfl : _ = _ := hout
        refine ⟨?_, rfl⟩
        show (own.complete c.functions.size _ _ _).Resembles (own'.complete c'.functions.size _ _ _)
        rw [h.size]
        exact hm.resembles.complete _ _ _ _ _ _

end Context.Resembles

end ForkLisp.Compile
