/-
What code means.

A `Meaning` says what the operations of the machine can come to, on values, handles and worlds of
some kind. Over one of them, `Runs` relates a place in code, the registers there and a world to
every way in which running on from there can end.

* A register without a value, a handle in the way, a jump that does not go forward and a place
  outside the code have no meaning: from there on every ending is allowed, `stuck` included. So a
  run that cannot end `stuck` meets nothing of the kind.
* An operation may allow several outcomes. A statement about all endings therefore holds whichever
  of them the machine takes.
* What a return does is a parameter, so that the code of a callee can be followed by that of its
  caller.
-/
import ForkLisp.Code.Operands
import ForkLisp.Proofs.Behaviour.Ending

namespace ForkLisp.Behaviour

open ForkLisp.Code ForkLisp.Machine

variable {V H W : Type}

/-! ### Frames -/

/-- The registers of a piece of code that is running: the values in them, and the handles of tasks
that were started and not joined. The register above a handle belongs to it. -/
structure Frame (V H : Type) where
  val : Nat → Option V
  pend : Nat → Option H

namespace Frame

/-- A register does not lie right above a handle. -/
def Unshadowed (f : Frame V H) (r : Nat) : Prop := ∀ s, s + 1 = r → f.pend s = none

/-- A register neither holds nor belongs to a handle. -/
def Free (f : Frame V H) (r : Nat) : Prop := f.pend r = none ∧ f.Unshadowed r

/-- No register from `r` on holds or belongs to a handle. -/
def Clear (f : Frame V H) (r : Nat) : Prop := (∀ s, r ≤ s → f.pend s = none) ∧ f.Unshadowed r

/-- Some arguments stand side by side from `r` on. -/
def Holds (f : Frame V H) (r : Nat) (args : List V) : Prop :=
  ∀ j, j < args.length → f.val (r + j) = args[j]?

/-- A frame that holds arguments and nothing else. -/
def enter (args : List V) : Frame V H := ⟨fun r => args[r]?, fun _ => none⟩

/-- The frame with a value written to a register. -/
def set (f : Frame V H) (r : Nat) (v : V) : Frame V H :=
  { f with val := fun s => if s = r then some v else f.val s }

/-- The frame with values side by side from `r` on, and nothing known behind them. -/
def extend (f : Frame V H) (r : Nat) (vs : List V) : Frame V H :=
  { f with val := fun s => if s < r then f.val s else vs[s - r]? }

/-- The frame after a call: the result is in place of the linkage, and nothing is known of what lies
above. -/
def afterCall (f : Frame V H) (shift : Nat) (v : V) : Frame V H :=
  { f with val := fun s => if s = shift - 2 then some v
    else if s < shift - 2 then f.val s else none }

/-- The frame after a task was started. -/
def afterSpawn (f : Frame V H) (shift : Nat) (h : H) : Frame V H :=
  ⟨fun s => if s < shift - 3 then f.val s else none,
    fun s => if s = shift - 3 then some h else f.pend s⟩

/-- The frame after a task was joined. -/
def afterJoin (f : Frame V H) (r : Nat) (v : V) : Frame V H :=
  ⟨fun s => if s = r then some v else f.val s, fun s => if s = r then none else f.pend s⟩

theorem Clear.free {f : Frame V H} {r s : Nat} (h : f.Clear r) (hs : r ≤ s) : f.Free s := by
  refine ⟨h.1 s hs, fun t ht => ?_⟩
  by_cases hr : r ≤ t
  · exact h.1 t hr
  · exact h.2 t (by omega)

theorem Clear.mono {f : Frame V H} {r s : Nat} (h : f.Clear r) (hs : r ≤ s) : f.Clear s :=
  ⟨fun t ht => h.1 t (by omega), (h.free hs).2⟩

/-- A handle lies below `r` if nothing from `r` on is one or belongs to one. -/
theorem Clear.pend_lt {f : Frame V H} {r s : Nat} {h : H} (hc : f.Clear r)
    (hp : f.pend s = some h) :
    s + 1 < r := by
  have hs : s < r := Nat.lt_of_not_le fun hs => by cases (hc.1 s hs).symm.trans hp
  have hne : s + 1 ≠ r := fun hs => by cases (hc.2 s hs).symm.trans hp
  omega

@[simp] theorem pend_extend (f : Frame V H) (r : Nat) (vs : List V) :
    (f.extend r vs).pend = f.pend := rfl

theorem val_extend_of_lt (f : Frame V H) {r s : Nat} (vs : List V) (h : s < r) :
    (f.extend r vs).val s = f.val s := if_pos h

theorem val_extend_add (f : Frame V H) (r : Nat) (vs : List V) (j : Nat) :
    (f.extend r vs).val (r + j) = vs[j]? := by
  show (if r + j < r then _ else vs[r + j - r]?) = _
  rw [if_neg (by omega), Nat.add_sub_cancel_left]

theorem holds_extend (f : Frame V H) (r : Nat) (vs : List V) : (f.extend r vs).Holds r vs :=
  fun j _ => val_extend_add f r vs j

/-- Extending a frame twice is extending it once. -/
theorem extend_append (f : Frame V H) (r : Nat) (us vs : List V) :
    (f.extend r us).extend (r + us.length) vs = f.extend r (us ++ vs) := by
  refine congrArg (fun x => Frame.mk x f.pend) (funext fun s => ?_)
  show (if s < r + us.length then (if s < r then f.val s else us[s - r]?)
    else vs[s - (r + us.length)]?) = if s < r then f.val s else (us ++ vs)[s - r]?
  by_cases hr : s < r
  · rw [if_pos hr, if_pos (by omega), if_pos hr]
  · rw [if_neg hr, if_neg hr, List.getElem?_append]
    by_cases hu : s < r + us.length
    · rw [if_pos hu, if_pos (by omega)]
    · rw [if_neg hu, if_neg (by omega), Nat.sub_add_eq]

/-- Extending a frame again from the same register forgets the first time. -/
theorem extend_extend (f : Frame V H) (r : Nat) (us vs : List V) :
    (f.extend r us).extend r vs = f.extend r vs := by
  refine congrArg (fun x => Frame.mk x f.pend) (funext fun s => ?_)
  show (if s < r then (if s < r then f.val s else us[s - r]?) else vs[s - r]?) =
    if s < r then f.val s else vs[s - r]?
  split <;> rfl

theorem afterCall_extend (f : Frame V H) (r : Nat) (vs : List V) (v : V) :
    (f.extend (r + 2) vs).afterCall (r + 2) v = f.extend r [v] := by
  refine congrArg (fun x => Frame.mk x f.pend) (funext fun s => ?_)
  show (if s = r + 2 - 2 then some v
    else if s < r + 2 - 2 then (if s < r + 2 then f.val s else _) else none) =
      if s < r then f.val s else [v][s - r]?
  rw [Nat.add_sub_cancel]
  by_cases hs : s = r
  · rw [if_pos hs, if_neg (by omega), hs, Nat.sub_self]
    rfl
  · by_cases hr : s < r
    · rw [if_neg hs, if_pos hr, if_pos (by omega), if_pos hr]
    · rw [if_neg hs, if_neg hr, if_neg hr, List.getElem?_eq_none]
      show 1 ≤ s - r
      omega

/-- Writing back what a register holds changes nothing. -/
theorem set_self {f : Frame V H} {r : Nat} {v : V} (h : f.val r = some v) : f.set r v = f := by
  refine congrArg (fun x => Frame.mk x f.pend) (funext fun s => ?_)
  show (if s = r then some v else f.val s) = f.val s
  split
  · rename_i hs
    rw [hs, h]
  · rfl

/-- A frame holds no two lists of arguments of one length. -/
theorem Holds.unique {f : Frame V H} {r : Nat} {args args' : List V} (h : f.Holds r args)
    (hl : args.length = args'.length) (h' : f.Holds r args') : args = args' := by
  refine List.ext_getElem? fun j => ?_
  by_cases hj : j < args.length
  · rw [← h j hj, ← h' j (hl ▸ hj)]
  · rw [List.getElem?_eq_none (by omega), List.getElem?_eq_none (by omega)]

@[simp] theorem pend_set (f : Frame V H) (r : Nat) (v : V) : (f.set r v).pend = f.pend := rfl

@[simp] theorem val_set_self (f : Frame V H) (r : Nat) (v : V) : (f.set r v).val r = some v := by
  simp [set]

theorem val_set_of_ne (f : Frame V H) {r s : Nat} (v : V) (h : s ≠ r) :
    (f.set r v).val s = f.val s := by
  simp [set, h]

theorem set_set (f : Frame V H) (r : Nat) (u v : V) : (f.set r u).set r v = f.set r v := by
  unfold set
  congr 1
  funext s
  by_cases h : s = r <;> simp [h]

end Frame

/-! ### Meanings -/

theorem jumpTarget_eq_some {pc t : Nat} {offset : Int} :
    jumpTarget pc offset = some t ↔ (pc : Int) + offset = t := by
  unfold jumpTarget
  simp only
  constructor
  · intro h
    split at h
    · rw [Option.some_inj] at h
      omega
    · exact absurd h (by simp)
  · intro h
    rw [if_pos (by omega), h, Int.toNat_natCast]

/-- What the operations of the machine can come to. -/
structure Meaning (V H W : Type) where
  int : Int64 → V
  bool : Bool → V
  float : Numeric.Binary64 → V
  /-- The answers of an operator on two values. -/
  arith : ArithOp → V → V → Except Fault V → Prop
  negate : V → Except Fault V → Prop
  /-- The answers of a comparison of two values. -/
  test : Comparison → V → V → Except Fault Bool → Prop
  load : Global → W → Ending V W → Prop
  /-- What comes of assigning to a global. -/
  store : Global → V → W → Ending Unit W → Prop
  /-- What comes of printing a value, as it is or as a truth value. -/
  print : Bool → V → W → Ending Unit W → Prop
  /-- How many arguments a function takes, if it exists. -/
  arity : FuncId → Option Nat
  /-- The endings of a call. -/
  call : FuncId → List V → W → Ending V W → Prop
  /-- What comes of starting a task. -/
  spawn : FuncId → List V → W → Ending H W → Prop
  /-- What comes of waiting for a task. -/
  join : H → W → Ending V W → Prop

namespace Meaning

/-- Goes on at the target of a jump. -/
def jump (pc : Nat) (offset : Int) (go : Nat → Prop) : Prop :=
  ∀ t, jumpTarget pc offset = some t → go t

/-- Combines a register with a value. -/
def operate (m : Meaning V H W) (op : ArithOp) (d : Nat) (v : V) (f : Frame V H) (w : W)
    (o : Ending V W) (go : Frame V H → Prop) : Prop :=
  ∀ u, f.val d = some u → f.Free d → ∃ a, m.arith op u v a ∧ orFault a w o fun x => go (f.set d x)

/-- Compares a register with a value and jumps if the comparison holds. -/
def branch (m : Meaning V H W) (c : Comparison) (offset : Int) (l : Nat) (v : V) (pc : Nat)
    (f : Frame V H) (w : W) (o : Ending V W) (go : Nat → Prop) : Prop :=
  ∀ u, f.val l = some u → ∃ a, m.test c u v a ∧
    orFault a w o fun b => (b = true → jump pc offset go) ∧ (b = false → go (pc + 1))

/-- What an instruction at `pc` can end in, where `go` tells the same of the places behind and `ret`
of a return. -/
def exec (m : Meaning V H W) (ret : V → Frame V H → W → Ending V W → Prop) (o : Ending V W)
    (pc : Nat) (i : Inst) (f : Frame V H) (w : W) (go : Nat → Frame V H → W → Prop) : Prop :=
  match i with
  | .intConst d x => f.Free d → go (pc + 1) (f.set d (m.int x)) w
  | .boolConst d x => f.Free d → go (pc + 1) (f.set d (m.bool x)) w
  | .floatConst d x => f.Free d → go (pc + 1) (f.set d (m.float x)) w
  | .move d s => ∀ v, f.val s = some v → f.Free d → go (pc + 1) (f.set d v) w
  | .arith op d s => ∀ v, f.val s = some v → m.operate op d v f w o fun f => go (pc + 1) f w
  | .arithConst op d x => m.operate op d (m.int x) f w o fun f => go (pc + 1) f w
  | .negate d => ∀ v, f.val d = some v → f.Free d →
      ∃ a, m.negate v a ∧ orFault a w o fun x => go (pc + 1) (f.set d x) w
  | .branch c offset l r => ∀ v, f.val r = some v →
      m.branch c offset l v pc f w o fun t => go t f w
  | .branchConst c offset l x => m.branch c offset l (m.int x) pc f w o fun t => go t f w
  | .jump offset => jump pc offset fun t => go t f w
  | .load d g => f.Free d → ∃ r, m.load g w r ∧ r.into o fun v w' => go (pc + 1) (f.set d v) w'
  | .store s g => ∀ v, f.val s = some v →
      ∃ r, m.store g v w r ∧ r.into o fun _ w' => go (pc + 1) f w'
  | .call n shift => ∀ args, m.arity n = some args.length → 2 ≤ shift → f.Holds shift args →
      f.Clear (shift - 2) →
      ∃ r, m.call n args w r ∧ r.into o fun v w' => go (pc + 1) (f.afterCall shift v) w'
  | .spawn n shift => ∀ args, m.arity n = some args.length → 3 ≤ shift → f.Holds shift args →
      f.Clear (shift - 3) →
      ∃ r, m.spawn n args w r ∧ r.into o fun h w' => go (pc + 1) (f.afterSpawn shift h) w'
  | .join r => ∀ h, f.pend r = some h → f.Unshadowed r →
      ∃ e, m.join h w e ∧ e.into o fun v w' => go (pc + 1) (f.afterJoin r v) w'
  | .ret s => ∀ v, f.val s = some v → ret v f w o
  | .retConst x => ret (m.int x) f w o
  | .print s => ∀ v, f.val s = some v →
      ∃ r, m.print false v w r ∧ r.into o fun _ w' => go (pc + 1) f w'
  | .printBool s => ∀ v, f.val s = some v →
      ∃ r, m.print true v w r ∧ r.into o fun _ w' => go (pc + 1) f w'
  | .stop => True

/-- A return that ends the run; no task may be left that was not joined. -/
def done (v : V) (f : Frame V H) (w : W) (o : Ending V W) : Prop :=
  (∀ r, f.pend r = none) → o = .value v w

/-- The endings of a run of code from a place on. -/
def Runs (m : Meaning V H W) (ret : V → Frame V H → W → Ending V W → Prop) (code : Code) (pc : Nat)
    (f : Frame V H) (w : W) (o : Ending V W) : Prop :=
  ∀ i, code[pc]? = some i →
    m.exec ret o pc i f w fun pc' f w => pc < pc' → m.Runs ret code pc' f w o
termination_by code.size - pc
decreasing_by
  have : pc < code.size := (Array.getElem?_eq_some_iff.mp ‹_›).1
  omega

variable {m : Meaning V H W} {ret : V → Frame V H → W → Ending V W → Prop} {code : Code}

/-- A run, by the instruction at its place. -/
theorem runs_iff {pc : Nat} {i : Inst} (h : code[pc]? = some i) {f : Frame V H} {w : W}
    {o : Ending V W} :
    m.Runs ret code pc f w o ↔
      m.exec ret o pc i f w fun pc' f w => pc < pc' → m.Runs ret code pc' f w o := by
  rw [Runs]
  constructor
  · intro hr
    exact hr i h
  · intro hr j hj
    rw [h, Option.some_inj] at hj
    exact hj ▸ hr

end Meaning

end ForkLisp.Behaviour
