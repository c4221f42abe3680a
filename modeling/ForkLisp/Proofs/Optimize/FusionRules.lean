/-
Fusions by rules.

What two neighbouring instructions are rewritten to, as a relation with one rule for each rewriting.
`Tests` is about a branch behind a number, `Fuses` about all other pairs too. Where no rule applies
the neighbours stay as they are (`fuse_rules`). Facts about fusions are shown by cases on the rules,
the first of which is that what comes out is plain and names no other registers (`fuse_combines`).
-/
import ForkLisp.Optimize.Fusion
import ForkLisp.Proofs.Code.Plain

namespace ForkLisp.Optimize

open ForkLisp.Code

/-- What becomes of a branch behind an instruction that leaves a number in `a`, which nothing else
reads. -/
inductive Tests (dead : Reg → Option Bool) (a : Reg) (x : Int64) : Inst → Fusion → Prop where
  | right {c : Comparison} {offset : Int} {l : Reg} (hl : l ≠ a) (hd : dead a = some true) :
      Tests dead a x (.branch c offset l a) (.into (.branchConst c offset l x))
  /-- The number comes to stand on the right, and the comparison is turned around. -/
  | left {c : Comparison} {offset : Int} {r : Reg} (hr : r ≠ a) (hd : dead a = some true) :
      Tests dead a x (.branch c offset a r) (.into (.branchConst c.reverse offset r x))
  | taken {c : Comparison} {offset : Int} {z : Int64} (hc : c.holds x z = true)
      (hd : dead a = some true) : Tests dead a x (.branchConst c offset a z) (.into (.jump offset))
  | passed {c : Comparison} {offset : Int} {z : Int64} (hc : c.holds x z = false)
      (hd : dead a = some true) : Tests dead a x (.branchConst c offset a z) .vanish

/-- What becomes of two neighbours that are rewritten. -/
inductive Fuses (dead : Reg → Option Bool) : Inst → Inst → Fusion → Prop where
  | intTest {a : Reg} {x : Int64} {next : Inst} {y : Fusion} (h : Tests dead a x next y) :
      Fuses dead (.intConst a x) next y
  | boolTest {a : Reg} {b : Bool} {next : Inst} {y : Fusion}
      (h : Tests dead a (if b then 1 else 0) next y) : Fuses dead (.boolConst a b) next y
  | intMove {a d : Reg} {x : Int64} (hd : dead a = some true) :
      Fuses dead (.intConst a x) (.move d a) (.into (.intConst d x))
  | boolMove {a d : Reg} {b : Bool} (hd : dead a = some true) :
      Fuses dead (.boolConst a b) (.move d a) (.into (.boolConst d b))
  | intArith {op : ArithOp} {a d : Reg} {x : Int64} (hda : d ≠ a) (hd : dead a = some true) :
      Fuses dead (.intConst a x) (.arith op d a) (.into (normalize (.arithConst op d x)))
  /-- The operands of an operator change places, so that the number stands on the right. -/
  | swap {op : ArithOp} {a s : Reg} {x : Int64} (hs : s ≠ a) (hop : op = .add ∨ op = .mul) :
      Fuses dead (.intConst a x) (.arith op a s) (.split (.move a s) (.arithConst op a x))
  | fold {op : ArithOp} {a : Reg} {x z r : Int64} (hr : op.result? x z = some r) :
      Fuses dead (.intConst a x) (.arithConst op a z) (.into (.intConst a r))
  | intRet {a : Reg} {x : Int64} : Fuses dead (.intConst a x) (.ret a) (.into (.retConst x))
  | moveMove {a b d : Reg} (hd : dead a = some true) :
      Fuses dead (.move a b) (.move d a) (.into (.move d b))
  | moveArith {op : ArithOp} {a b d : Reg} (hda : d ≠ a) (hd : dead a = some true) :
      Fuses dead (.move a b) (.arith op d a) (.into (.arith op d b))
  | moveBranch {c : Comparison} {offset : Int} {a b l r : Reg} (hd : dead a = some true) :
      Fuses dead (.move a b) (.branch c offset l r)
        (.into (.branch c offset (if l = a then b else l) (if r = a then b else r)))
  | moveBranchConst {c : Comparison} {offset : Int} {a b : Reg} {z : Int64}
      (hd : dead a = some true) :
      Fuses dead (.move a b) (.branchConst c offset a z) (.into (.branchConst c offset b z))
  | moveRet {a b : Reg} : Fuses dead (.move a b) (.ret a) (.into (.ret b))
  | merge {op op' : ArithOp} {a : Reg} {x z r : Int64} (hr : mergeConstants? op op' x z = some r) :
      Fuses dead (.arithConst op a x) (.arithConst op' a z) (.into (.arithConst op a r))

/-! ### The rules cover the function -/

section

variable {dead : Reg → Option Bool} {a b : Reg} {x : Int64} {i next : Inst} {y : Fusion}

theorem whenDead_eq_some {f : Fusion} (h : whenDead dead a f = some y) :
    y = .apart ∨ dead a = some true ∧ y = f := by
  obtain ⟨d, hd, rfl⟩ := Option.map_eq_some_iff.mp h
  cases d with
  | true => exact .inr ⟨hd, rfl⟩
  | false => exact .inl rfl

theorem apart_of_some (h : some Fusion.apart = some y) {p : Prop} : y = .apart ∨ p :=
  .inl (Option.some.inj h).symm

theorem fuseTest_rules (h : fuseTest dead a x next = some y) :
    y = .apart ∨ Tests dead a x next y := by
  cases next with
  | branch c offset l r =>
    simp only [fuseTest] at h
    split at h
    · rename_i hc
      obtain ⟨hlr, hor⟩ := hc
      refine (whenDead_eq_some h).imp_right fun ⟨hd, hy⟩ => ?_
      by_cases hra : r = a
      · subst hra
        rw [hy, if_pos rfl]
        exact .right hlr hd
      · obtain rfl : l = a := hor.resolve_right hra
        rw [hy, if_neg hra]
        exact .left hra hd
    · exact apart_of_some h
  | branchConst c offset l z =>
    simp only [fuseTest] at h
    split at h
    · rename_i hla
      subst hla
      refine (whenDead_eq_some h).imp_right fun ⟨hd, hy⟩ => ?_
      by_cases hc : c.holds x z = true
      · rw [hy, if_pos hc]
        exact .taken hc hd
      · rw [hy, if_neg hc]
        exact .passed (Bool.not_eq_true _ ▸ hc) hd
    · exact apart_of_some h
  | _ => exact apart_of_some h

theorem fuseConst_rules (h : fuseConst dead a x next = some y) :
    y = .apart ∨ Fuses dead (.intConst a x) next y := by
  cases next with
  | move d r =>
    simp only [fuseConst] at h
    split at h
    · rename_i hc
      obtain ⟨rfl, -⟩ := hc
      exact (whenDead_eq_some h).imp_right fun ⟨hd, hy⟩ => hy ▸ .intMove hd
    · exact apart_of_some h
  | arith op d r =>
    simp only [fuseConst] at h
    split at h
    · rename_i hc
      obtain ⟨rfl, hda⟩ := hc
      exact (whenDead_eq_some h).imp_right fun ⟨hd, hy⟩ => hy ▸ .intArith hda hd
    · split at h
      · rename_i hc
        obtain ⟨rfl, hs, hop⟩ := hc
        obtain rfl := Option.some.inj h
        exact .inr (.swap hs hop)
      · exact apart_of_some h
  | arithConst op d z =>
    simp only [fuseConst] at h
    split at h
    · rename_i hda
      subst hda
      split at h
      · rename_i r hr
        obtain rfl := Option.some.inj h
        exact .inr (.fold hr)
      · exact apart_of_some h
    · exact apart_of_some h
  | ret r =>
    simp only [fuseConst] at h
    split at h
    · rename_i hra
      subst hra
      obtain rfl := Option.some.inj h
      exact .inr .intRet
    · exact apart_of_some h
  | _ => exact apart_of_some h

theorem fuseMove_rules (h : fuseMove dead a b next = some y) :
    y = .apart ∨ Fuses dead (.move a b) next y := by
  cases next with
  | move d r =>
    simp only [fuseMove] at h
    split at h
    · rename_i hc
      obtain ⟨rfl, -⟩ := hc
      exact (whenDead_eq_some h).imp_right fun ⟨hd, hy⟩ => hy ▸ .moveMove hd
    · exact apart_of_some h
  | arith op d r =>
    simp only [fuseMove] at h
    split at h
    · rename_i hc
      obtain ⟨rfl, hda⟩ := hc
      exact (whenDead_eq_some h).imp_right fun ⟨hd, hy⟩ => hy ▸ .moveArith hda hd
    · exact apart_of_some h
  | branch c offset l r =>
    simp only [fuseMove] at h
    split at h
    · exact (whenDead_eq_some h).imp_right fun ⟨hd, hy⟩ => hy ▸ .moveBranch hd
    · exact apart_of_some h
  | branchConst c offset l z =>
    simp only [fuseMove] at h
    split at h
    · rename_i hla
      subst hla
      exact (whenDead_eq_some h).imp_right fun ⟨hd, hy⟩ => hy ▸ .moveBranchConst hd
    · exact apart_of_some h
  | ret r =>
    simp only [fuseMove] at h
    split at h
    · rename_i hra
      subst hra
      obtain rfl := Option.some.inj h
      exact .inr .moveRet
    · exact apart_of_some h
  | _ => exact apart_of_some h

/-- Neighbours stay as they are or are rewritten by a rule. -/
theorem fuse_rules (h : fuse dead i next = some y) : y = .apart ∨ Fuses dead i next y := by
  cases i with
  | intConst a x =>
    simp only [fuse] at h
    split at h
    · exact (fuseTest_rules h).imp_right .intTest
    · exact fuseConst_rules h
  | boolConst a x =>
    simp only [fuse] at h
    split at h
    · split at h
      · rename_i hc
        obtain ⟨rfl, -⟩ := hc
        exact (whenDead_eq_some h).imp_right fun ⟨hd, hy⟩ => hy ▸ .boolMove hd
      · exact apart_of_some h
    · exact (fuseTest_rules h).imp_right .boolTest
  | move a b => exact fuseMove_rules h
  | arithConst op a x =>
    cases next with
    | arithConst op' d z =>
      simp only [fuse] at h
      split at h
      · rename_i hda
        subst hda
        split at h
        · rename_i r hr
          obtain rfl := Option.some.inj h
          exact .inr (.merge hr)
        · exact apart_of_some h
      · exact apart_of_some h
    | _ => exact apart_of_some h
  | _ => exact apart_of_some h

end

/-! ### What comes out -/

/-- All instructions in the result of a fusion have a property. -/
def Fusion.All (P : Inst → Prop) : Fusion → Prop
  | .into j => P j
  | .split first rest => P first ∧ P rest
  | .vanish | .apart => True

theorem Fusion.All.imp {P P' : Inst → Prop} {x : Fusion} (h : x.All P) (hp : ∀ i, P i → P' i) :
    x.All P' := by
  cases x with
  | into j => exact hp j h
  | split first rest => exact ⟨hp first h.1, hp rest h.2⟩
  | vanish | apart => trivial

/-- An instruction is plain, names no global, and names registers of two others only. -/
structure Combines (i next j : Inst) : Prop where
  plain : j.isPlain = true
  global : j.global? = none
  register : ∀ r ∈ j.registers, r ∈ i.registers ∨ r ∈ next.registers

section

variable {dead : Reg → Option Bool} {a : Reg} {x : Int64} {i next j : Inst} {y : Fusion}

theorem isPlain_normalize (i : Inst) : (normalize i).isPlain = i.isPlain := by
  unfold normalize
  split <;> rfl

theorem global?_normalize (i : Inst) : (normalize i).global? = i.global? := by
  unfold normalize
  split <;> rfl

theorem registers_normalize (i : Inst) : (normalize i).registers = i.registers := by
  unfold normalize
  split <;> rfl

theorem Combines.normalize (h : Combines i next j) : Combines i next (normalize j) where
  plain := (isPlain_normalize j).trans h.plain
  global := (global?_normalize j).trans h.global
  register r hr := h.register r (registers_normalize j ▸ hr)

/-- A branch on a number names no other registers than the branch behind that number. -/
theorem Tests.combines (h : Tests dead a x next y) : y.All (Combines i next) := by
  cases h with
  | right | left => exact ⟨rfl, rfl, by simp [Inst.registers, Inst.defs, Inst.uses]⟩
  | taken => exact ⟨rfl, rfl, fun r hr => absurd hr List.not_mem_nil⟩
  | passed => trivial

/-- An instruction that stands for two neighbours is plain and names registers of these only, and no
global. -/
theorem fuse_combines (h : fuse dead i next = some y) : y.All (Combines i next) := by
  rcases fuse_rules h with rfl | h
  · trivial
  cases h with
  | intTest h | boolTest h => exact h.combines
  | intArith =>
    exact Combines.normalize ⟨rfl, rfl, by simp [Inst.registers, Inst.defs, Inst.uses]⟩
  | swap =>
    exact ⟨⟨rfl, rfl, by simp [Inst.registers, Inst.defs, Inst.uses]⟩,
      ⟨rfl, rfl, by simp [Inst.registers, Inst.defs, Inst.uses]⟩⟩
  | moveBranch =>
    refine ⟨rfl, rfl, fun r hr => ?_⟩
    simp only [Inst.registers, Inst.defs, Inst.uses] at hr ⊢
    grind
  | intMove | boolMove | fold | intRet | moveMove | moveArith | moveBranchConst | moveRet | merge =>
    exact ⟨rfl, rfl, by simp [Inst.registers, Inst.defs, Inst.uses]⟩

end

end ForkLisp.Optimize
