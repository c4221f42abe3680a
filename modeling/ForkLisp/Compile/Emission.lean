/-
Emitting code.

An emission is what generating code comes to: the instructions in order, the context afterwards, and
a result or an error. Instructions that came before an error are kept. Jumps are relative, so that
the code of a part does not depend on where the part stands; `branching` puts two parts together.
-/
import ForkLisp.Code.Listing
import ForkLisp.Compile.Context
import ForkLisp.Compile.Error

namespace ForkLisp.Compile

open ForkLisp.Code

/-- The code that was generated, the context afterwards, and how generation ended. -/
structure Emission (α : Type) where
  code : List Inst
  context : Context
  outcome : Except CompileError α

/-- Generation of code in a context. -/
def Emit (α : Type) : Type := Context → Emission α

namespace Emit

variable {α β : Type}

/-- A result without code. -/
def result (a : α) : Emit α := fun c => ⟨[], c, .ok a⟩

/-- An error without code. -/
def fail (e : CompileError) : Emit α := fun c => ⟨[], c, .error e⟩

/-- One part and then another: their code stands in this order, and an error ends both. -/
def andThen (x : Emit α) (f : α → Emit β) : Emit β := fun c =>
  let first := x c
  match first.outcome with
  | .error e => ⟨first.code, first.context, .error e⟩
  | .ok a =>
    let second := f a first.context
    { second with code := first.code ++ second.code }

instance : Monad Emit where
  pure := result
  bind := andThen

/-- Some instructions. -/
def code (is : List Inst) : Emit Unit := fun c => ⟨is, c, .ok ()⟩

/-- The context as it is. -/
def context : Emit Context := fun c => ⟨[], c, .ok c⟩

/-- The global variable of a name, which is created if it is new. -/
def global (name : String) : Emit Global := fun c =>
  let (g, c) := c.defineGlobal name
  ⟨[], c, .ok g⟩

/-- Two parts of which one runs: the second if the comparison of `r` and `r + 1` holds, and the
first if it does not. -/
def branching (skip : Comparison) (r : Reg) (first : Emit α) (second : Emit β) : Emit (α × β) :=
  fun c =>
    let x := first c
    let front := .branch skip (x.code.length + 2) r (r + 1) :: x.code
    match x.outcome with
    | .error e => ⟨front, x.context, .error e⟩
    | .ok a =>
      let y := second x.context
      { y with
        code := front ++ .jump (y.code.length + 1) :: y.code
        outcome := y.outcome.map fun b => (a, b) }

end Emit

/-- The lines that log the instructions of an emission; no jump has its target yet. -/
def Emission.log {α : Type} (e : Emission α) : List String :=
  listingLines 0 (e.code.map (Inst.withOffset 0))

end ForkLisp.Compile
