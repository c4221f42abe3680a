/-
The pass by rules.

What the functions of a pass do when they succeed, as relations with one rule for each way of doing
it. `Follows` is about a jump that is written, `Rewrites` about an instruction that is held while it
is fused with those behind it, and `Walks` about reading code to its end. Facts about passes are
shown by induction on them.
-/
import ForkLisp.Optimize.Pass
import ForkLisp.Proofs.Optimize.LiveRegisters

namespace ForkLisp.Optimize

open ForkLisp.Code

/-- What a return becomes in a copy: its value is left where the caller expects it. -/
def handOver (base : Nat) : Inst → Inst
  | .retConst value => .intConst (base - 2) value
  | .ret src => .move (base - 2) src
  | i => i

/-- How a return that is read at `pc` is written. -/
inductive Returns (s : Site) (i : Inst) (pc : Nat) (d : Draft) : Draft → Nat → Prop where
  | done {next : Nat} (hc : s.caller = none)
      (hn : (d.emit i).nextReachable? s (pc + 1) none = some next) :
      Returns s i pc d (d.emit i) next
  /-- The copy ends right behind, so that control gets to the caller by itself. -/
  | last {c : Place} {next : Nat} (hc : s.caller = some c)
      (hn : (d.emit (handOver s.base i)).nextReachable? s (pc + 1) none = some next)
      (hs : s.code[next]? = some .stop) : Returns s i pc d (d.emit (handOver s.base i)) next
  | back {c : Place} {next : Nat} (hc : s.caller = some c)
      (hn : (d.emit (handOver s.base i)).nextReachable? s (pc + 1) none = some next) :
      Returns s i pc d
        ((d.emit (handOver s.base i)).emitJump (.jump 0) c.copy (some c.pc)) next

/-- How a jump to a place is written that is read at `pc`. -/
inductive Follows (s : Site) (pc : Nat) : Nat → Draft → Draft → Nat → Prop where
  | ret {t : Nat} {i : Inst} {d d' : Draft} {next : Nat} (hi : s.code[t]? = some i)
      (hr : i.isReturn = true) (h : Returns s (i.rebase s.base) pc d d' next) :
      Follows s pc t d d' next
  | branch {t : Nat} {i : Inst} {offset : Int} {d d' : Draft} {next : Nat}
      (hi : s.code[t]? = some i) (hb : i.isBranch = true) (ho : i.offset? = some offset)
      (hc : s.caller = none)
      (h : Follows s pc (t + 1)
        (placeBranch s (i.rebase s.base) (jumpTarget t offset) t d) d' next) :
      Follows s pc t d d' next
  | skip {t : Nat} {d : Draft} (hn : d.nextReachable? s (pc + 1) (some t) = some t) :
      Follows s pc t d d t
  | jump {t : Nat} {i : Inst} {d : Draft} {next : Nat} (hi : s.code[t]? = some i)
      (hn : d.nextReachable? s (pc + 1) (some t) = some next) :
      Follows s pc t d (d.emitJump (.jump 0) s.copy (some t)) next

/-- How an instruction that does more than to write registers is written. -/
inductive Affects (s : Site) (i : Inst) (pc : Nat) (d : Draft) : Draft → Nat → Prop where
  | jump {offset : Int} {t : Nat} {d' : Draft} {next : Nat} (hi : i = .jump offset)
      (ht : jumpTarget pc offset = some t) (h : Follows s pc t d d' next) : Affects s i pc d d' next
  | branch {offset : Int} (hb : i.isBranch = true) (ho : i.offset? = some offset) :
      Affects s i pc d (placeBranch s i (jumpTarget pc offset) pc d) (pc + 1)
  | ret {d' : Draft} {next : Nat} (hr : i.isReturn = true) (h : Returns s i pc d d' next) :
      Affects s i pc d d' next
  | other (ho : i.offset? = none) (hr : i.isReturn = false) : Affects s i pc d (d.emit i) (pc + 1)

/-- How an instruction is written that is held in the place of the one at `pc`. -/
inductive Rewrites (s : Site) : Inst → Nat → Draft → Draft → Nat → Prop where
  | dropped {i : Inst} {pc : Nat} {d : Draft} (h : simplify s i pc = some none) :
      Rewrites s i pc d d (pc + 1)
  | effect {i j : Inst} {pc next : Nat} {d d' : Draft} (h : simplify s i pc = some (some j))
      (ha : Affects s j pc d d' next) : Rewrites s i pc d d' next
  | kept {i j : Inst} {pc : Nat} {d : Draft} (h : simplify s i pc = some (some j))
      (hj : isStraight j = true) : Rewrites s i pc d (d.emit j) (pc + 1)
  | into {i j k n : Inst} {pc next : Nat} {d d' : Draft} (h : simplify s i pc = some (some j))
      (hj : isStraight j = true) (ht : d.isTarget s.copy (pc + 1) = false)
      (hn : s.fetch? (pc + 1) = some n) (hf : fuse (s.deadAfter (pc + 1)) j n = some (.into k))
      (hr : Rewrites s k (pc + 1) d d' next) : Rewrites s i pc d d' next
  | split {i j k l n : Inst} {pc next : Nat} {d d' : Draft} (h : simplify s i pc = some (some j))
      (hj : isStraight j = true) (ht : d.isTarget s.copy (pc + 1) = false)
      (hn : s.fetch? (pc + 1) = some n) (hf : fuse (s.deadAfter (pc + 1)) j n = some (.split k l))
      (hr : Rewrites s l (pc + 1) (d.emit k) d' next) : Rewrites s i pc d d' next
  | vanish {i j n : Inst} {pc : Nat} {d : Draft} (h : simplify s i pc = some (some j))
      (hj : isStraight j = true) (ht : d.isTarget s.copy (pc + 1) = false)
      (hn : s.fetch? (pc + 1) = some n) (hf : fuse (s.deadAfter (pc + 1)) j n = some .vanish) :
      Rewrites s i pc d d (pc + 2)

/-- How code is read from a place to its end. -/
inductive Walks (inline : Inliner) (s : Site) : Nat → Draft → Draft → Prop where
  | stop {pc : Nat} {d : Draft} (hi : s.fetch? pc = some .stop) :
      Walks inline s pc d (d.arrive s.copy pc)
  | keep {pc : Nat} {callee : FuncId} {shift : Reg} {d d' : Draft}
      (hi : s.fetch? pc = some (.call callee shift))
      (h : Walks inline s (pc + 1) ((d.arrive s.copy pc).emit (.call callee shift)) d') :
      Walks inline s pc d d'
  | copy {pc : Nat} {callee : FuncId} {shift : Reg} {d d₁ d' : Draft}
      (hi : s.fetch? pc = some (.call callee shift))
      (hc : inline callee shift pc (d.arrive s.copy pc) = some (some d₁))
      (h : Walks inline s (pc + 1) d₁ d') : Walks inline s pc d d'
  | straight {pc next : Nat} {i : Inst} {d d₁ d' : Draft} (hi : s.fetch? pc = some i)
      (hs : isStraight i = true) (hr : Rewrites s i pc (d.arrive s.copy pc) d₁ next)
      (h : Walks inline s next d₁ d') : Walks inline s pc d d'
  | effect {pc next : Nat} {i : Inst} {d d₁ d' : Draft} (hi : s.fetch? pc = some i)
      (hs : i ≠ .stop) (ha : Affects s i pc (d.arrive s.copy pc) d₁ next)
      (h : Walks inline s next d₁ d') : Walks inline s pc d d'

/-! ### The rules cover the functions -/

variable {s : Site} {d d' : Draft} {pc next : Nat}

theorem placeReturn_rules {i : Inst} (hr : i.isReturn = true)
    (h : placeReturn s i pc d = some (d', next)) : Returns s i pc d d' next := by
  cases hc : s.caller with
  | none =>
    unfold placeReturn at h
    rw [hc] at h
    obtain ⟨n, hn, h⟩ := Option.bind_eq_some_iff.mp h
    obtain ⟨rfl, rfl⟩ := Prod.mk.inj (Option.some.inj h)
    exact .done hc hn
  | some c =>
    have he : placeReturn s i pc d =
      ((d.emit (handOver s.base i)).nextReachable? s (pc + 1) none).bind
        fun next =>
          if s.code[next]? = some .stop then some (d.emit (handOver s.base i), next)
          else some ((d.emit (handOver s.base i)).emitJump (.jump 0) c.copy (some c.pc), next) := by
      unfold placeReturn
      rw [hc]
      cases i <;> first | rfl | exact absurd hr (by simp [Inst.isReturn])
    rw [he] at h
    obtain ⟨n, hn, h⟩ := Option.bind_eq_some_iff.mp h
    by_cases hs : s.code[n]? = some .stop
    · rw [if_pos hs] at h
      obtain ⟨rfl, rfl⟩ := Prod.mk.inj (Option.some.inj h)
      exact .last hc hn hs
    · rw [if_neg hs] at h
      obtain ⟨rfl, rfl⟩ := Prod.mk.inj (Option.some.inj h)
      exact .back hc hn

theorem skipTo_rules {t : Nat} {i : Inst} (hi : s.code[t]? = some i)
    (h : placeJump.skipTo s pc t d = some (d', next)) : Follows s pc t d d' next := by
  unfold placeJump.skipTo at h
  obtain ⟨n, hn, hd⟩ := Option.bind_eq_some_iff.mp h
  by_cases hnt : n = t
  · rw [if_pos hnt] at hd
    obtain ⟨rfl, rfl⟩ := Prod.mk.inj (Option.some.inj hd)
    rw [hnt] at hn ⊢
    exact .skip hn
  · rw [if_neg hnt] at hd
    obtain ⟨rfl, rfl⟩ := Prod.mk.inj (Option.some.inj hd)
    exact .jump hi hn

theorem placeJump_rules {fuel : Nat} {target : Option Nat}
    (h : placeJump s pc fuel target d = some (d', next)) :
    ∃ t, target = some t ∧ Follows s pc t d d' next := by
  induction fuel generalizing target d with
  | zero => exact absurd h (by simp [placeJump])
  | succ fuel ih =>
    unfold placeJump at h
    obtain ⟨t, ht, h⟩ := Option.bind_eq_some_iff.mp h
    obtain ⟨i, hi, h⟩ := Option.bind_eq_some_iff.mp h
    refine ⟨t, ht, ?_⟩
    split at h
    · rename_i hr
      exact .ret hi hr (placeReturn_rules (by rw [isReturn_rebase, hr]) h)
    · split at h
      · rename_i offset ho
        split at h
        · rename_i hb
          rw [Bool.and_eq_true, Option.isNone_iff_eq_none] at hb
          obtain ⟨u, hu, hf⟩ := ih h
          obtain rfl := Option.some.inj hu
          exact .branch hi hb.1 ho hb.2 hf
        · exact skipTo_rules hi h
      · exact skipTo_rules hi h

theorem placeEffect_rules {i : Inst} (h : placeEffect s i pc d = some (d', next)) :
    Affects s i pc d d' next := by
  cases i with
  | jump offset =>
    obtain ⟨t, ht, hf⟩ := placeJump_rules h
    exact .jump rfl ht hf
  | branch c offset l r =>
    obtain ⟨rfl, rfl⟩ := Prod.mk.inj (Option.some.inj h)
    exact .branch rfl rfl
  | branchConst c offset l x =>
    obtain ⟨rfl, rfl⟩ := Prod.mk.inj (Option.some.inj h)
    exact .branch rfl rfl
  | ret r => exact .ret rfl (placeReturn_rules rfl h)
  | retConst x => exact .ret rfl (placeReturn_rules rfl h)
  | _ =>
    obtain ⟨rfl, rfl⟩ := Prod.mk.inj (Option.some.inj h)
    exact .other rfl rfl

theorem peephole_rules {fuel : Nat} {i : Inst} (h : peephole s fuel i pc d = some (d', next)) :
    Rewrites s i pc d d' next := by
  induction fuel generalizing i pc d with
  | zero => exact absurd h (by simp [peephole])
  | succ fuel ih =>
    unfold peephole at h
    obtain ⟨r, hr, h⟩ := Option.bind_eq_some_iff.mp h
    cases r with
    | none =>
      obtain ⟨rfl, rfl⟩ := Prod.mk.inj (Option.some.inj h)
      exact .dropped hr
    | some j =>
      simp only at h
      split at h
      · exact .effect hr (placeEffect_rules h)
      · rename_i hj
        have hj : isStraight j = true := by simpa using hj
        split at h
        · obtain ⟨rfl, rfl⟩ := Prod.mk.inj (Option.some.inj h)
          exact .kept hr hj
        · rename_i ht
          rw [Bool.not_eq_true] at ht
          obtain ⟨n, hn, h⟩ := Option.bind_eq_some_iff.mp h
          obtain ⟨y, hy, h⟩ := Option.bind_eq_some_iff.mp h
          cases y with
          | into k => exact .into hr hj ht hn hy (ih h)
          | split k l => exact .split hr hj ht hn hy (ih h)
          | vanish =>
            obtain ⟨rfl, rfl⟩ := Prod.mk.inj (Option.some.inj h)
            exact .vanish hr hj ht hn hy
          | apart =>
            obtain ⟨rfl, rfl⟩ := Prod.mk.inj (Option.some.inj h)
            exact .kept hr hj

theorem walk_rules {inline : Inliner} {fuel : Nat} (h : walk inline s fuel pc d = some d') :
    Walks inline s pc d d' := by
  induction fuel generalizing pc d with
  | zero => exact absurd h (by simp [walk])
  | succ fuel ih =>
    unfold walk at h
    obtain ⟨i, hi, h⟩ := Option.bind_eq_some_iff.mp h
    split at h
    · obtain rfl := Option.some.inj h
      exact .stop hi
    · obtain ⟨r, hr, h⟩ := Option.bind_eq_some_iff.mp h
      cases r with
      | none => exact .keep hi (ih h)
      | some d₁ => exact .copy hi hr (ih h)
    · rename_i hstop hcall
      obtain ⟨⟨d₁, n⟩, hp, h⟩ := Option.bind_eq_some_iff.mp h
      unfold place at hp
      split at hp
      · rename_i hs
        exact .straight hi hs (peephole_rules hp) (ih h)
      · exact .effect hi hstop (placeEffect_rules hp) (ih h)

end ForkLisp.Optimize
