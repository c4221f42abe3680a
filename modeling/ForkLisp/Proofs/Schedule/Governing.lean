/-
Systems of workers.

`System.census` lists all tasks of a system with their roles. A system is `Governed` if what it
keeps is kept (`Kept`) and no worker is lost. Whatever happens next, it stays governed, and what
happens is an event that the books allow (`Governed.moves`).
-/
import ForkLisp.Proofs.Schedule.Handing

namespace ForkLisp.Schedule

open ForkLisp.Code ForkLisp.Machine ForkLisp.Behaviour ForkLisp.Reference

/-! ### All tasks of a system -/

/-- The tasks in the hands of a worker. -/
def Hand.census : Hand → List (Task × Role)
  | idle | lost => []
  | running t | joining t _ _ | suspending t => [(t, .active)]
  | starting t child => [(t, .active), (child, .active)]
  | joined t _ _ child outcome => [(t, .active), (child, .collected outcome)]
  | ending t outcome => [(t, .ending outcome)]
  | discarding t outcome child => [(t, .ending outcome), (child, .dismissed)]
  | releasing t => [(t, .dismissed)]

/-- The tasks that the pool holds. -/
def poolCensus (p : Pool) : List (Task × Role) :=
  p.free.map (·, .free) ++ p.parked.map fun e => (e.1, .parked e.2)

/-- The tasks that neither the pool nor one of the workers has. -/
def System.elsewhere (s : System) (left right : List Hand) : List (Task × Role) :=
  s.queued.map (·, .ready) ++ (left ++ right).flatMap Hand.census

/-- All tasks of a system: the pool has some, some are runnable, and workers have the others. -/
def System.census (s : System) : List (Task × Role) :=
  poolCensus s.world.pool ++ (s.queued.map (·, .ready) ++ s.hands.flatMap Hand.census)

theorem append_rotate {α : Type} (p q l h r : List α) :
    (p ++ (q ++ (l ++ (h ++ r)))).Perm (h ++ (p ++ (q ++ (l ++ r)))) := by
  rw [← List.append_assoc q l, ← List.append_assoc p, ← List.append_assoc q l,
    ← List.append_assoc p (q ++ l)]
  exact List.perm_append_comm_assoc _ _ _

theorem census_perm {s : System} {left right : List Hand} {hand : Hand}
    (h : s.hands = left ++ hand :: right) :
    s.census.Perm (hand.census ++ (poolCensus s.world.pool ++ s.elsewhere left right)) := by
  unfold System.census System.elsewhere
  rw [h]
  simp only [List.flatMap_append, List.flatMap_cons]
  exact append_rotate _ _ _ _ _

/-- All tasks after a deed. -/
theorem census_after (s : System) (left right : List Hand) (d : Deed) :
    (s.after left right d).census.Perm (d.hand.census ++ (d.ready.toList.map (·, .ready) ++
      (poolCensus d.world.pool ++ s.elsewhere left right))) := by
  refine (census_perm (s := s.after left right d) rfl).trans (.append_left _ ?_)
  unfold System.elsewhere
  show (poolCensus d.world.pool ++ ((s.queued ++ d.ready.toList).map (·, Role.ready) ++ _)).Perm _
  rw [List.map_append, List.append_assoc, ← List.append_assoc (poolCensus _)]
  refine (List.perm_append_comm_assoc _ _ _).trans ?_
  rw [List.append_assoc]

theorem poolCensus_take {p q : Pool} {c : Task} (h : p.free = c :: q.free)
    (hp : q.parked = p.parked) :
    (poolCensus p).Perm ((c, .free) :: poolCensus q) := by
  unfold poolCensus
  rw [h, hp]
  exact .refl _

theorem poolCensus_release (p : Pool) (t : Task) :
    (poolCensus (p.release t)).Perm ((t.reset, .free) :: poolCensus p) := by
  have hparked : (p.release t).parked = p.parked := by
    unfold Pool.release
    cases t.id with
    | none => rfl
    | some id => exact Pool.parked_setStage
  unfold poolCensus
  rw [Pool.free_release, hparked, List.map_append, List.append_assoc]
  exact List.perm_middle

theorem poolCensus_unpark {p : Pool} {id : TaskId} {t : Task} {outcome : Outcome}
    (h : p.parked? id = some (t, outcome)) :
    (poolCensus p).Perm ((t, .parked outcome) :: poolCensus (p.setParked id none)) :=
  ((Pool.parked_unpark h).map _).append_left _ |>.trans List.perm_middle

theorem poolCensus_park {p : Pool} {id : TaskId} {t : Task} {outcome : Outcome}
    (hlt : id < p.capacity) (h : p.parked? id = none) :
    (poolCensus (p.setParked id (some (t, outcome)))).Perm ((t, .parked outcome) :: poolCensus p) :=
  ((Pool.parked_park hlt h).map _).append_left _ |>.trans List.perm_middle

/-! ### What is kept -/

section

variable {H : Type}

/-- A worker is not lost, and what it waits for is what its task waits for. -/
def Hand.Sensible : Hand → Prop
  | joining t r id => t.awaits? = some (r, id)
  | joined t r id child _ => t.awaits? = some (r, id) ∧ child.id = some id
  | lost => False
  | _ => True

/-- A system in which everything is as it should be. -/
structure Governed (R : Regime H) (b : Books H) (size : Nat) (s : System) : Prop where
  kept : Kept R b size s.world s.waiting s.census
  sensible : ∀ hand ∈ s.hands, hand.Sensible
  answer : ∀ outcome, s.outcome = some outcome → R.wanted outcome

/-- What happens is allowed by the books, which then say `b'`. -/
inductive Books.Follows (b : Books H) : Option Event → Books H → Prop where
  | quiet : b.Follows none b
  | spawned {id : TaskId} {lease : Lease H} (hfree : b.leases id = none) :
      b.Follows (some (.spawned lease.owner lease.slot id)) (b.start id lease)
  | finished {id : TaskId} {outcome : Outcome} (hresult : b.results id = none)
      (howner : ∀ other lease, b.leases other = some lease → lease.owner ≠ some id) :
      b.Follows (some (.finished (some id) outcome)) (b.settle id outcome)
  | answered {outcome : Outcome}
      (howner : ∀ other lease, b.leases other = some lease → lease.owner ≠ none) :
      b.Follows (some (.finished none outcome)) b
  | joined {id : TaskId} {lease : Lease H} {outcome : Outcome} (hl : b.leases id = some lease)
      (hresult : b.results id = some outcome) :
      b.Follows (some (.joined lease.owner lease.slot id outcome)) (b.drop id)
  | detached {id : TaskId} {lease : Lease H} (hl : b.leases id = some lease) :
      b.Follows (some (.detached lease.owner id)) (b.drop id)

variable {R : Regime H} {b b' : Books H} {size : Nat} {s : System} {left right : List Hand}
  {hand : Hand} {d : Deed}

/-- The worker in question, and everybody else. -/
theorem Governed.split (h : Governed R b size s) (hs : s.hands = left ++ hand :: right) :
    Kept R b size s.world s.waiting
      (hand.census ++ (poolCensus s.world.pool ++ s.elsewhere left right)) ∧ hand.Sensible :=
  ⟨h.kept.perm (census_perm hs), h.sensible hand (by simp [hs])⟩

/-- The system after a deed is governed if what is kept then is. -/
theorem Governed.after (h : Governed R b size s) (hs : s.hands = left ++ hand :: right)
    (hkept : Kept R b' size d.world (s.waiting && d.answer.isNone)
      (d.hand.census ++ (d.ready.toList.map (·, .ready) ++
        (poolCensus d.world.pool ++ s.elsewhere left right))))
    (hsensible : d.hand.Sensible) (hanswer : ∀ o, d.answer = some o → R.wanted o) :
    Governed R b' size (s.after left right d) where
  kept := hkept.perm (census_after s left right d).symm
  sensible hand' hmem := by
    rcases List.mem_append.mp hmem with hmem | hmem
    · exact h.sensible _ (by simp [hs, hmem])
    · rcases List.mem_cons.mp hmem with rfl | hmem
      · exact hsensible
      · exact h.sensible _ (by simp [hs, hmem])
  answer o ho := by
    have ho : d.answer.or s.outcome = some o := ho
    cases hd : d.answer with
    | none =>
      rw [hd, Option.none_or] at ho
      exact h.answer o ho
    | some o' =>
      rw [hd, Option.some_or] at ho
      exact hanswer o (hd.trans ho)

/-- A worker that has no answer for whoever waits. -/
theorem Governed.unanswered (h : Governed R b size s) (hs : s.hands = left ++ hand :: right)
    (hnone : d.answer = none) (hsensible : d.hand.Sensible)
    (hkept : Kept R b' size d.world s.waiting (d.hand.census ++ (d.ready.toList.map (·, .ready) ++
      (poolCensus d.world.pool ++ s.elsewhere left right)))) :
    Governed R b' size (s.after left right d) := by
  refine h.after hs ?_ hsensible fun o ho => by cases hnone.symm.trans ho
  rw [hnone, Option.isNone_none, Bool.and_true]
  exact hkept

/-! ### One deed -/

/-- A worker takes a task. -/
theorem Governed.take (h : Governed R b size s) {before after : List Task} {t : Task}
    (hs : s.hands = left ++ .idle :: right) (hq : s.queued = before ++ t :: after) :
    Governed R b size { s with queued := before ++ after, hands := left ++ .take t :: right } := by
  have hperm : s.census.Perm ((t, .ready) :: (poolCensus s.world.pool ++
      ((before ++ after).map (·, .ready) ++ (left ++ right).flatMap Hand.census))) := by
    refine (census_perm hs).trans ?_
    unfold System.elsewhere
    rw [hq]
    simp only [List.map_append, List.map_cons, List.append_assoc, List.cons_append]
    exact append_rotate _ _ [] [_] _ |>.trans (.refl _)
  have hkept := h.kept.perm hperm
  have hnew : (System.census { s with
      queued := before ++ after, hands := left ++ .take t :: right }).Perm ((Hand.take t).census ++
        (poolCensus s.world.pool ++ ((before ++ after).map (·, .ready) ++
          (left ++ right).flatMap Hand.census))) :=
    census_perm rfl
  obtain ⟨hsize, hworking, hfits, hover⟩ := hkept.keeps _ List.mem_cons_self
  refine ⟨?_, fun hand hmem => ?_, h.answer⟩
  · refine Kept.perm ?_ hnew.symm
    by_cases hf : t.fits = true
    · unfold Hand.take
      rw [if_pos hf]
      exact hkept.revise rfl ⟨hsize, hworking, hfits hf⟩ hkept.holds rfl id (by simp)
    · unfold Hand.take
      rw [if_neg hf]
      exact hkept.revise rfl ⟨hsize, hworking, hover (by simpa using hf)⟩
        hkept.holds rfl id (by simp)
  · rcases List.mem_append.mp hmem with hmem | hmem
    · exact h.sensible _ (by simp [hs, hmem])
    · rcases List.mem_cons.mp hmem with rfl | hmem
      · unfold Hand.take
        split <;> trivial
      · exact h.sensible _ (by simp [hs, hmem])

variable {t : Task}

/-- A task at work that moves on is still at work. -/
theorem Kept.move {rest : List (Task × Role)}
    (h : Kept R b size s.world s.waiting ((t, .active) :: rest)) {t' : Task} {w' : World}
    (hsame : t.Continues t') (hc : t'.children = t.children) {now : Role} (hnow : now.Works)
    (hw : R.holds w') (hp : w'.pool = s.world.pool)
    (hk : Working b s.world.pool t' → t'.stack.size = size →
      Keeps R b s.world.pool size (t', now)) :
    Kept R b size w' s.waiting ((t', now) :: rest) := by
  obtain ⟨hsize, hworking, -⟩ := h.keeps (t, .active) List.mem_cons_self
  exact h.revise hsame.id (hk (hworking.congr hsame.id hc) (hsame.size.trans hsize)) hw hp
    (fun _ => hnow) (by simp)

theorem mem_census_free {c : Task} (hc : c ∈ s.world.pool.free) (e : List (Task × Role)) :
    (c, Role.free) ∈ e ++ (poolCensus s.world.pool ++ s.elsewhere left right) := by
  refine List.mem_append_right _ (List.mem_append_left _ (List.mem_append_left _ ?_))
  exact List.mem_map.mpr ⟨c, hc, rfl⟩

/-- A task at work takes a step as its program means it. -/
theorem Governed.advance (hR : R.Sound) (h : Governed R b size s)
    (hs : s.hands = left ++ .running t :: right) : ∃ m, R.Means t.program m ∧
      Advance m (fun w _ => R.holds w) (R.Wanted b.leases t.id) b.leases t s.world ()
        (step t s.world) := by
  obtain ⟨hkept, -⟩ := h.split hs
  obtain ⟨hsize, -, m, hm, hconducts⟩ := hkept.keeps (t, .active) List.mem_cons_self
  have hfurnished : Furnished m b.leases t s.world.pool :=
    hkept.furnished hR (fun c hc => mem_census_free hc _) hsize hm
  exact ⟨m, hm, hconducts.step (hR.describes _ _ hm) (hR.fulfils _ _ hm) hfurnished hkept.holds⟩

/-- A task runs an instruction that does not wait for another one. -/
theorem Governed.run (hR : R.Sound) (h : Governed R b size s)
    (hs : s.hands = left ++ .running t :: right) (hawaits : t.awaits? = none) :
    ∃ b', b.Follows (eventOf t (step t s.world)) b' ∧
      Governed R b' size
        (s.after left right (.ofStep (eventOf t (step t s.world)) (step t s.world))) := by
  obtain ⟨hkept, -⟩ := h.split hs
  obtain ⟨hsize, hworking, -⟩ := hkept.keeps (t, .active) List.mem_cons_self
  obtain ⟨m, hm, hstep⟩ := h.advance hR hs
  generalize step t s.world = result at hstep ⊢
  cases hstep with
  | @next t' w' _ _ hsame hmove hc hp hw _ _ h' =>
    refine ⟨b, .quiet, h.unanswered hs rfl trivial ?_⟩
    show Kept R b size w' s.waiting ([(t', .active)] ++ (poolCensus w'.pool ++ _))
    rw [hp]
    exact hkept.move hsame hc trivial hw hp fun hwork hsize =>
      ⟨hsize, hwork, m, hsame.program ▸ hm, hsame.id.symm ▸ h'⟩
  | @ended t' w' outcome hsame hc hp hw hpost =>
    refine ⟨b, .quiet, h.unanswered hs rfl trivial ?_⟩
    show Kept R b size w' s.waiting ([(t', .ending outcome)] ++ (poolCensus w'.pool ++ _))
    rw [hp]
    exact hkept.move hsame hc trivial hw hp fun hwork hsize => ⟨hsize, hwork, hsame.id.symm ▸ hpost⟩
  -- the stack comes from the free ones: the census only changes its order
  | @spawned c t' id lease n args pool hspawn hsame htake hid ho hslot hc h' hchild =>
    obtain ⟨hfree, hberths⟩ := Pool.take?_eq_some htake hid
    have hparked : pool.parked = s.world.pool.parked :=
      (Pool.parked_eq_of_berths hberths).trans Pool.parked_setStage
    have hperm := ((poolCensus_take hfree hparked).append_right (s.elsewhere left right)).cons
      (t, Role.active)
    have hkept' := (hkept.perm hperm).spawn hR hm htake hid ho hsame hc h' hchild
    obtain ⟨-, ⟨id', hid', -, hnone⟩, -⟩ := (hkept.perm hperm).keeps (c, .free) (by simp)
    obtain rfl := Option.some.inj (hid.symm.trans hid')
    refine ⟨b.start id lease, ?_, h.unanswered hs rfl trivial ?_⟩
    · have hevent : eventOf t (.spawned t' (c.start t.program n (args.map Datum.slot))
          { s.world with pool }) = some (.spawned lease.owner lease.slot id) := by
        have hid : (c.start t.program n (args.map Datum.slot)).id = some id := hid
        simp only [eventOf, hslot, hid, ho]
      rw [hevent]
      exact .spawned hnone
    · show Kept R _ size { s.world with pool } s.waiting
        ([(t', .active), (c.start t.program n (args.map Datum.slot), .active)] ++ _)
      exact hkept'
  | joined ha | failed ha | suspended ha => cases hawaits.symm.trans ha

/-- A task sees whether the one that it waits for has ended. -/
theorem Governed.check (h : Governed R b size s) (hs : s.hands = left ++ .running t :: right)
    {r : Reg} {id : TaskId} (hawaits : t.awaits? = some (r, id)) (ended : Bool) :
    Governed R b size (s.after left right
      (.quiet (if ended then .joining t r id else .suspending t) s.world)) := by
  obtain ⟨hkept, -⟩ := h.split hs
  cases ended with
  | false => exact h.unanswered hs rfl trivial hkept
  | true => exact h.unanswered hs rfl hawaits hkept

/-- A task that was started becomes runnable. -/
theorem Governed.enqueue (h : Governed R b size s) {child : Task}
    (hs : s.hands = left ++ .starting t child :: right) :
    Governed R b size (s.after left right ⟨.running t, s.world, some child, none, none⟩) := by
  obtain ⟨hkept, -⟩ := h.split hs
  have hkept := hkept.perm (List.Perm.swap (child, Role.active) (t, Role.active) _)
  obtain ⟨hsize, hworking, m, hm, hconducts⟩ := hkept.keeps (child, .active) List.mem_cons_self
  refine h.unanswered hs rfl trivial ?_
  show Kept R b size s.world s.waiting ((t, .active) :: (child, .ready) :: _)
  refine Kept.perm ?_ (List.Perm.swap (t, Role.active) (child, Role.ready) _)
  refine hkept.revise rfl ⟨hsize, hworking, fun _ => ⟨m, hm, hconducts⟩, fun hf => ?_⟩
    hkept.holds rfl (fun _ => trivial) (by simp)
  cases hconducts.fits.symm.trans hf

/-- A task that waits becomes runnable again. -/
theorem Governed.suspend (h : Governed R b size s) (hs : s.hands = left ++ .suspending t :: right) :
    Governed R b size (s.after left right ⟨.idle, s.world, some t, none, none⟩) := by
  obtain ⟨hkept, -⟩ := h.split hs
  obtain ⟨hsize, hworking, m, hm, hconducts⟩ := hkept.keeps (t, .active) List.mem_cons_self
  refine h.unanswered hs rfl trivial ?_
  show Kept R b size s.world s.waiting ((t, .ready) :: _)
  refine hkept.revise rfl ⟨hsize, hworking, fun _ => ⟨m, hm, hconducts⟩, fun hf => ?_⟩
    hkept.holds rfl (fun _ => trivial) (by simp)
  cases hconducts.fits.symm.trans hf

/-- A task that has ended is picked up by the one that waits for it. -/
theorem Governed.collect (hR : R.Sound) (h : Governed R b size s) {r : Reg} {id : TaskId}
    {child : Task} {outcome : Outcome} (hs : s.hands = left ++ .joining t r id :: right)
    (hp : s.world.pool.parked? id = some (child, outcome)) :
    Governed R b size (s.after left right (.quiet (.joined t r id child outcome)
      { s.world with pool := s.world.pool.setParked id none })) := by
  obtain ⟨hkept, hawaits⟩ := h.split hs
  obtain ⟨hid, -⟩ := hkept.berthed id child outcome hp
  refine h.unanswered hs rfl ⟨hawaits, hid⟩ ?_
  have hperm := ((poolCensus_unpark hp).append_right (s.elsewhere left right)).cons (t, Role.active)
  have hkept' := ((hkept.perm hperm).perm (List.Perm.swap _ _ _)).collect hR hid
  show Kept R b size _ s.waiting ((t, .active) :: (child, .collected outcome) :: _)
  exact hkept'.perm (List.Perm.swap _ _ _)

/-- A task that waits and finds nothing goes on waiting. -/
theorem Governed.miss (h : Governed R b size s) {r : Reg} {id : TaskId}
    (hs : s.hands = left ++ .joining t r id :: right) :
    Governed R b size (s.after left right (.quiet (.suspending t) s.world)) := by
  obtain ⟨hkept, -⟩ := h.split hs
  exact h.unanswered hs rfl trivial hkept

/-- A task goes on with the outcome of the one that it waited for, which becomes free. -/
theorem Governed.resume (hR : R.Sound) (h : Governed R b size s) {r : Reg} {id : TaskId}
    {child : Task} {outcome : Outcome}
    (hs : s.hands = left ++ .joined t r id child outcome :: right) :
    ∃ b', b.Follows (some (.joined t.id (t.base + r) id outcome)) b' ∧
      Governed R b' size (s.after left right (.ofStep (some (.joined t.id (t.base + r) id outcome))
        (Step.resume r id outcome t { s.world with pool := s.world.pool.release child }))) := by
  obtain ⟨hkept, hawaits, hid⟩ := h.split hs
  obtain ⟨hsize, hworking, m, hm, hconducts⟩ := hkept.keeps (t, .active) List.mem_cons_self
  obtain ⟨hcsize, k, lease, hk, hparked, hlease, hdelivers, hresult, -⟩ :=
    hkept.keeps (child, .collected outcome) (by simp [Hand.census])
  obtain rfl := Option.some.inj (hid.symm.trans hk)
  obtain ⟨p, hl, hresume⟩ := hconducts.resume (hR.fulfils _ _ hm) hawaits
  obtain rfl := Option.some.inj (hl.symm.trans hlease)
  -- the lease that is dropped is not one that the parent itself runs under
  have hne := hkept.ne_child hid
  have hwanted : R.Wanted (b.drop id).leases t.id = R.Wanted b.leases t.id := wanted_drop_of_ne hne
  have hperm : ∀ e : Task × Role, (e :: (child.reset, .free) :: (poolCensus s.world.pool ++
      s.elsewhere left right)).Perm ([e] ++ (poolCensus (s.world.pool.release child) ++
        s.elsewhere left right)) := fun e =>
    (((poolCensus_release s.world.pool child).append_right (s.elsewhere left right)).cons e).symm
  refine ⟨b.drop id, .joined hl hresult, ?_⟩
  have hresumed := hresume outcome { s.world with pool := s.world.pool.release child }
    ((hR.delivers_iff _ _ _ _ hm).mpr hdelivers)
  generalize Step.resume r id outcome t _ = result at hresumed ⊢
  cases hresumed with
  | @next t' hsame hc h' =>
    refine h.unanswered hs rfl trivial ?_
    show Kept R _ size _ s.waiting ([(t', .active)] ++ _)
    refine Kept.perm ?_ (hperm _)
    refine hkept.resume hR hid hl rfl hsame hc trivial fun hwork hsize =>
      ⟨hsize, hwork, m, hsame.program ▸ hm, ?_⟩
    show Conducts m (R.Wanted _ t'.id) _ t' ()
    rw [hsame.id, hwanted]
    exact h'
  | @ended t' e hsame hc hpost =>
    refine h.unanswered hs rfl trivial ?_
    show Kept R _ size _ s.waiting ([(t', .ending e)] ++ _)
    refine Kept.perm ?_ (hperm _)
    refine hkept.resume hR hid hl rfl hsame hc trivial fun hwork hsize => ⟨hsize, hwork, ?_⟩
    show R.Wanted _ t'.id e ()
    rw [hsame.id, hwanted]
    exact hpost

/-- A task that is over gives up one that has ended. -/
theorem Governed.discard (hR : R.Sound) (h : Governed R b size s) {id : TaskId} {child : Task}
    {children : List TaskId} {outcome given : Outcome}
    (hs : s.hands = left ++ .ending t outcome :: right) (hc : t.children = id :: children)
    (hp : s.world.pool.parked? id = some (child, given)) :
    ∃ b', b.Follows (some (.detached t.id id)) b' ∧
      Governed R b' size (s.after left right ⟨.discarding { t with children } outcome child,
        { s.world with pool := s.world.pool.setParked id none }, none, none,
        some (.detached t.id id)⟩) := by
  obtain ⟨hkept, -⟩ := h.split hs
  obtain ⟨hid, -⟩ := hkept.berthed id child given hp
  obtain ⟨-, hworking, -⟩ := hkept.keeps (t, .ending outcome) List.mem_cons_self
  obtain ⟨lease, hl, howner⟩ := (hworking.children id).mp (hc ▸ List.mem_cons_self)
  refine ⟨b.drop id, howner ▸ .detached hl, h.unanswered hs rfl trivial ?_⟩
  have hperm := ((poolCensus_unpark hp).append_right (s.elsewhere left right)).cons
    (t, Role.ending outcome)
  show Kept R _ size _ s.waiting _
  exact (hkept.perm hperm).discard hR hid hc

/-- A task that was collected is in the hands of the one that waited for it. -/
theorem Governed.collector (hR : R.Sound) (h : Governed R b size s) {child : Task} {o : Outcome}
    (hmem : (child, Role.collected o) ∈ s.census) {id : TaskId} (hid : child.id = some id) :
    ∃ t lease, (t, Role.active) ∈ s.census ∧ b.leases id = some lease ∧ lease.owner = t.id := by
  unfold System.census at hmem
  have hhand : ∃ hand ∈ s.hands, (child, Role.collected o) ∈ hand.census := by
    rcases List.mem_append.mp hmem with hmem | hmem
    · unfold poolCensus at hmem
      simp at hmem
    · rcases List.mem_append.mp hmem with hmem | hmem
      · simp at hmem
      · exact List.mem_flatMap.mp hmem
  obtain ⟨hand, hhands, hin⟩ := hhand
  have hsensible := h.sensible hand hhands
  cases hand with
  | joined t r id' c o' =>
    have hactive : (t, Role.active) ∈ s.census :=
      List.mem_append_right _ (List.mem_append_right _
        (List.mem_flatMap.mpr ⟨_, hhands, List.mem_cons_self⟩))
    have hcin : (c, Role.collected o') ∈ s.census :=
      List.mem_append_right _ (List.mem_append_right _
        (List.mem_flatMap.mpr ⟨_, hhands, List.mem_cons_of_mem _ List.mem_cons_self⟩))
    obtain ⟨rfl, -⟩ : child = c ∧ o = o' := by simpa [Hand.census] using hin
    obtain rfl := Option.some.inj (hid.symm.trans hsensible.2)
    obtain ⟨-, -, m, hm, hconducts⟩ := h.kept.keeps _ hactive
    obtain ⟨p, hl, -⟩ := hconducts.resume (hR.fulfils _ _ hm) hsensible.1
    exact ⟨t, _, hactive, hl, rfl⟩
  | _ => simp [Hand.census] at hin

/-- A task that is over gives up one that is still at work. -/
theorem Governed.detach (hR : R.Sound) (h : Governed R b size s) {id : TaskId}
    {children : List TaskId} {outcome : Outcome} (hs : s.hands = left ++ .ending t outcome :: right)
    (hc : t.children = id :: children) (hp : s.world.pool.parked? id = none) :
    ∃ b', b.Follows (some (.detached t.id id)) b' ∧
      Governed R b' size (s.after left right ⟨.ending { t with children } outcome,
        { s.world with pool := s.world.pool.setStage id .detached }, none, none,
        some (.detached t.id id)⟩) := by
  obtain ⟨hkept, -⟩ := h.split hs
  obtain ⟨-, hworking, -⟩ := hkept.keeps (t, .ending outcome) List.mem_cons_self
  obtain ⟨lease, hl, howner⟩ := (hworking.children id).mp (hc ▸ List.mem_cons_self)
  refine ⟨b.drop id, howner ▸ .detached hl, h.unanswered hs rfl trivial ?_⟩
  have hcensus : poolCensus (s.world.pool.setStage id .detached) = poolCensus s.world.pool := by
    unfold poolCensus
    rw [Pool.parked_setStage]
    rfl
  show Kept R _ size _ s.waiting ((_, _) :: (poolCensus (s.world.pool.setStage id .detached) ++ _))
  rw [hcensus]
  refine hkept.detach hR hp (fun c o hmem hid => ?_) hc
  -- the task that collected it would be this one, which is over
  obtain ⟨t', lease', hactive, hl', howner'⟩ := h.collector hR
    ((census_perm hs).mem_iff.mpr (List.mem_cons_of_mem _ hmem)) hid
  obtain rfl := Option.some.inj (hl.symm.trans hl')
  have heq := hkept.unique ((census_perm hs).mem_iff.mp hactive) List.mem_cons_self
    (howner'.symm.trans howner)
  cases (Prod.mk.inj heq).2

/-- The task of a form is over. -/
theorem Governed.conclude (h : Governed R b size s) {outcome : Outcome}
    (hs : s.hands = left ++ .ending t outcome :: right) (hc : t.children = []) (hid : t.id = none) :
    ∃ b', b.Follows (some (.finished none outcome)) b' ∧
      Governed R b' size (s.after left right
        ⟨.idle, s.world, none, some outcome, some (.finished none outcome)⟩) := by
  obtain ⟨hkept, -⟩ := h.split hs
  obtain ⟨-, hworking, -⟩ := hkept.keeps (t, .ending outcome) List.mem_cons_self
  obtain ⟨hwaiting, hwanted, hkept'⟩ := hkept.answer hid hc
  refine ⟨b, .answered fun other lease hl => hid ▸ hworking.owner_ne hc hl,
    h.after hs ?_ trivial fun o ho => ?_⟩
  · show Kept R b size s.world (s.waiting && false) _
    rw [Bool.and_false]
    exact hkept'
  · obtain rfl := Option.some.inj ho
    exact hwanted

/-- A pooled task is over. It waits for the one that started it, or is released if there is none. -/
theorem Governed.finish (hR : R.Sound) (h : Governed R b size s) {outcome : Outcome} {id : TaskId}
    (hs : s.hands = left ++ .ending t outcome :: right) (hc : t.children = [])
    (hid : t.id = some id) :
    ∃ b', b.Follows (some (.finished (some id) outcome)) b' ∧
      (s.world.pool.stage? id = some .detached → Governed R b' size (s.after left right
        ⟨.releasing t, s.world, none, none, some (.finished (some id) outcome)⟩)) ∧
      (s.world.pool.stage? id ≠ some .detached → Governed R b' size (s.after left right
        ⟨.idle, { s.world with pool := s.world.pool.finish id t outcome }, none, none,
          some (.finished (some id) outcome)⟩)) := by
  obtain ⟨hkept, -⟩ := h.split hs
  obtain ⟨hsize, hworking, hwanted⟩ := hkept.keeps (t, .ending outcome) List.mem_cons_self
  obtain ⟨hparked, hresult, hstage⟩ := hworking.berth id hid
  have hlt : id < s.world.pool.capacity :=
    hkept.lt_capacity (e := (t, .ending outcome)) (by simp [Hand.census]) hid
  refine ⟨b.settle id outcome, .finished hresult fun other lease hl =>
    hid ▸ hworking.owner_ne hc hl, fun hdetached => ?_, fun hwaited => ?_⟩
  -- nobody waits for a detached task: its stack goes back to the pool
  · refine h.unanswered hs rfl trivial ?_
    show Kept R _ size s.world s.waiting ((t, .dismissed) :: _)
    have hsame : ∀ j, id ≠ j → s.world.pool.parked? j = s.world.pool.parked? j := fun _ _ => rfl
    refine hkept.settle hid hc hR hsame (fun _ _ => rfl) rfl (fun t₀ o hp => ?_)
      ⟨hsize, id, hid, hparked, hstage.mp hdetached⟩
    rw [hparked] at hp
    cases hp
  -- a task that is waited for is parked with its outcome, under the lease of its parent
  · obtain ⟨lease, hl⟩ := Option.ne_none_iff_exists'.mp (mt hstage.mpr hwaited)
    have hself : ((s.world.pool.setParked id (some (t, outcome))).setStage id .ended).parked? id =
        some (t, outcome) := Pool.parked?_setStage.trans (Pool.parked?_setParked_self hlt)
    have hcensus :
      (poolCensus ((s.world.pool.setParked id (some (t, outcome))).setStage id .ended)).Perm
        ((t, .parked outcome) :: poolCensus s.world.pool) := by
      refine .trans ?_ (poolCensus_park hlt hparked)
      unfold poolCensus
      rw [Pool.parked_setStage]
      exact .refl _
    refine h.unanswered hs rfl trivial ?_
    show Kept R _ size { s.world with pool := s.world.pool.finish id t outcome } s.waiting
      (poolCensus (s.world.pool.finish id t outcome) ++ _)
    rw [Pool.finish_eq hwaited]
    refine Kept.perm ?_ (hcensus.append_right _).symm
    refine hkept.settle hid hc hR (fun j hj => Pool.parked?_setStage.trans
      (Pool.parked?_setParked_of_ne hj)) (fun j hj => (Pool.stage?_setStage_of_ne hj).trans
      Pool.stage?_setParked) ?_ (fun t₀ o hp => ?_)
      ⟨hsize, id, lease, hid, hself, hl, ?_, if_pos rfl, ?_⟩
    · exact (Pool.capacity_setStage _ _ _).trans Pool.capacity_setParked
    · rw [hself] at hp
      obtain ⟨rfl, rfl⟩ := Prod.mk.inj (Option.some.inj hp)
      exact ⟨rfl, rfl⟩
    · have hwanted : R.Wanted b.leases t.id outcome () := hwanted
      rw [hid] at hwanted
      exact hwanted lease hl
    · refine Pool.stage?_setStage_self ?_
      rwa [Pool.capacity_setParked]

/-- A task that was given up after its end becomes free. -/
theorem Governed.drop (hR : R.Sound) (h : Governed R b size s) {child : Task} {outcome : Outcome}
    (hs : s.hands = left ++ .discarding t outcome child :: right) :
    Governed R b size (s.after left right (.quiet (.ending t outcome)
      { s.world with pool := s.world.pool.release child })) := by
  obtain ⟨hkept, -⟩ := h.split hs
  refine h.unanswered hs rfl trivial ?_
  show Kept R b size _ s.waiting ((t, .ending outcome) :: _)
  have hkept' :=
    (hkept.perm (List.Perm.swap (child, Role.dismissed) (t, Role.ending outcome) _)).release hR
  refine (hkept'.perm (List.Perm.swap _ _ _)).perm ?_
  exact (((poolCensus_release s.world.pool child).append_right
    (s.elsewhere left right)).cons _).symm

/-- A task that was given up before its end becomes free. -/
theorem Governed.release (hR : R.Sound) (h : Governed R b size s)
    (hs : s.hands = left ++ .releasing t :: right) :
    Governed R b size (s.after left right (.quiet .idle
      { s.world with pool := s.world.pool.release t })) := by
  obtain ⟨hkept, -⟩ := h.split hs
  refine h.unanswered hs rfl trivial ?_
  show Kept R b size _ s.waiting _
  exact (hkept.release hR).perm
    ((poolCensus_release s.world.pool t).append_right (s.elsewhere left right)).symm

/-! ### Whatever happens next -/

/-- What a worker does with what it has in its hands keeps the system governed. -/
theorem Governed.act (hR : R.Sound) (h : Governed R b size s) (hs : s.hands = left ++ hand :: right)
    (hact : hand.act? s.world = some d) :
    ∃ b', b.Follows d.event b' ∧ Governed R b' size (s.after left right d) := by
  cases Hand.acts_of_act? hact with
  | step hawaits =>
    rw [Deed.event_ofStep]
    exact h.run hR hs hawaits
  | check hawaits => exact ⟨b, .quiet, h.check hs hawaits _⟩
  | start => exact ⟨b, .quiet, h.enqueue hs⟩
  | miss => exact ⟨b, .quiet, h.miss hs⟩
  | collect hp => exact ⟨b, .quiet, h.collect hR hs hp⟩
  | resume =>
    rw [Deed.event_ofStep]
    exact h.resume hR hs
  | suspend => exact ⟨b, .quiet, h.suspend hs⟩
  | discard hc hp => exact h.discard hR hs hc hp
  | detach hc hp => exact h.detach hR hs hc hp
  | conclude hc hid => exact h.conclude hs hc hid
  | abandon hc hid hdetached =>
    obtain ⟨b', hfollows, hreleasing, -⟩ := h.finish hR hs hc hid
    exact ⟨b', hfollows, hreleasing hdetached⟩
  | park hc hid hwaited =>
    obtain ⟨b', hfollows, -, hparking⟩ := h.finish hR hs hc hid
    exact ⟨b', hfollows, hparking hwaited⟩
  | drop => exact ⟨b, .quiet, h.drop hR hs⟩
  | release => exact ⟨b, .quiet, h.release hR hs⟩

/-- Whatever happens next, a system stays governed. -/
theorem Governed.moves (hR : R.Sound) (h : Governed R b size s) {e : Option Event} {s' : System}
    (hm : s.Moves e s') : ∃ b', b.Follows e b' ∧ Governed R b' size s' := by
  cases hm with
  | take hs hq => exact ⟨b, .quiet, h.take hs hq⟩
  | act hs hact => exact h.act hR hs hact

/-! ### Between programs -/

/-- A regime that asks the same of tasks, and gives programs their meanings and more. -/
structure Regime.Extends (R R' : Regime H) : Prop where
  capacity : R'.capacity = R.capacity
  means : ∀ p m, R.Means p m → R'.Means p m
  delivers : R'.delivers = R.delivers
  wanted : R'.wanted = R.wanted

theorem Regime.Extends.wanted_eq {R' : Regime H} (h : R.Extends R') : R'.Wanted = R.Wanted := by
  funext leases id outcome u
  unfold Regime.Wanted
  rw [h.delivers, h.wanted]

theorem Keeps.extend {R' : Regime H} (h : R.Extends R') {pool : Pool} {e : Task × Role}
    (hk : Keeps R b pool size e) : Keeps R' b pool size e := by
  have hruns : ∀ {t : Task}, Runs R b t → Runs R' b t := by
    rintro t ⟨m, hm, hconducts⟩
    refine ⟨m, h.means _ _ hm, ?_⟩
    rw [h.wanted_eq]
    exact hconducts
  have hdue : ∀ {t : Task} {o : Outcome} {parked : Option (Task × Outcome)},
      Due R b pool t o parked → Due R' b pool t o parked := by
    rintro t o parked ⟨id, lease, hid, hp, hl, hd, hr⟩
    refine ⟨id, lease, hid, hp, hl, ?_, hr⟩
    rw [h.delivers]
    exact hd
  obtain ⟨t, role⟩ := e
  refine ⟨hk.1, ?_⟩
  have hk := hk.2
  cases role with
  | free => exact hk
  | ready =>
    refine ⟨hk.1, fun hf => hruns (hk.2.1 hf), fun hf => ?_⟩
    rw [h.wanted_eq]
    exact hk.2.2 hf
  | active => exact ⟨hk.1, hruns hk.2⟩
  | ending o =>
    refine ⟨hk.1, ?_⟩
    rw [h.wanted_eq]
    exact hk.2
  | parked o => exact hdue hk
  | collected o => exact hdue hk
  | dismissed => exact hk

/-- The globals change, and what is known of programs. -/
theorem Governed.share {R' : Regime H} (h : Governed R b size s) (hR : R.Extends R')
    {globals : Array Slot} (hw : R'.holds { s.world with globals }) :
    Governed R' b size { s with world := { s.world with globals } } where
  kept :=
    { holds := hw
      capacity := h.kept.capacity.trans hR.capacity.symm
      complete := h.kept.complete
      keeps := fun e he => (h.kept.keeps e he).extend hR
      owned := h.kept.owned
      berthed := h.kept.berthed }
  sensible := h.sensible
  answer := by
    rw [hR.wanted]
    exact h.answer

/-- A program is submitted, whose task runs as is wanted. -/
theorem Governed.submit (h : Governed R b size s) (hwaiting : s.waiting = false) (hid : t.id = none)
    (hchildren : t.children = []) (hsize : t.stack.size = size)
    (hruns : t.fits = true → Runs R b t) (hover : R.wanted (.error .stackOverflow)) :
    Governed R b size (s.submit t) := by
  have hperm : (s.submit t).census.Perm ((t, .ready) :: s.census) := by
    unfold System.census System.submit
    simp only [List.map_append, List.append_assoc]
    exact (append_rotate [] (poolCensus s.world.pool) (s.queued.map (·, Role.ready))
      [(t, Role.ready)] (s.hands.flatMap Hand.census))
  -- no task has started others on behalf of a form
  have hnone : ∀ id lease, b.leases id = some lease → lease.owner ≠ none := by
    intro id lease hl ho
    obtain ⟨e, he, -, heid⟩ := h.kept.owned id lease hl
    have hmem : none ∈ everyone s.waiting s.world.pool.capacity :=
      h.kept.complete.mem_iff.mp (List.mem_map.mpr ⟨e, he, heid.trans ho⟩)
    rw [hwaiting] at hmem
    simp [everyone] at hmem
  refine ⟨Kept.perm ?_ hperm.symm, h.sensible, fun o ho => by cases ho⟩
  refine ⟨h.kept.holds, h.kept.capacity, ?_, fun e he => ?_, fun id lease hl => ?_,
    fun id t₀ o hp => ?_⟩
  · have hcomplete := h.kept.complete
    rw [hwaiting] at hcomplete
    rw [List.map_cons, hid]
    exact hcomplete.cons none
  · rcases List.mem_cons.mp he with rfl | he
    · refine ⟨hsize, ⟨?_, fun id => ?_, fun id hid' => ?_⟩, hruns, fun _ => ?_⟩
      · rw [hchildren]
        exact List.nodup_nil
      · show id ∈ t.children ↔ ∃ lease, b.leases id = some lease ∧ lease.owner = t.id
        rw [hchildren, hid]
        exact ⟨fun hm => absurd hm List.not_mem_nil, fun ⟨l, hl, ho⟩ => absurd ho (hnone id l hl)⟩
      · cases hid.symm.trans hid'
      · show R.Wanted b.leases t.id _ ()
        rw [hid]
        exact hover
    · exact h.kept.keeps e he
  · obtain ⟨e, he, hw⟩ := h.kept.owned id lease hl
    exact ⟨e, List.mem_cons_of_mem _ he, hw⟩
  · obtain ⟨ht₀, hmem⟩ := h.kept.berthed id t₀ o hp
    exact ⟨ht₀, List.mem_cons_of_mem _ hmem⟩

/-- Nobody waits for anything. -/
def Books.empty : Books H := ⟨fun _ => none, fun _ => none⟩

/-- Workers that have nothing to do, with a pool of free tasks. -/
theorem governed_new {workers count : Nat} {globals : Array Slot} {printed : Array String}
    (hR : R.holds ⟨globals, printed, .ofSize count size⟩) (hcount : R.capacity = count) :
    Governed R Books.empty size (.new workers ⟨globals, printed, .ofSize count size⟩) := by
  have hparked : ∀ id, (Pool.ofSize count size).parked? id = none := by
    intro id
    simp only [Pool.ofSize, Pool.parked?, Array.getElem?_replicate]
    split <;> rfl
  have hhands : (List.replicate workers Hand.idle).flatMap Hand.census = [] :=
    List.flatMap_eq_nil_iff.mpr fun hand hmem => by
      rw [List.eq_of_mem_replicate hmem]
      rfl
  have hberths : (Pool.ofSize count size).parked = [] := by
    simp [Pool.parked, Pool.ofSize, List.filterMap_replicate_of_none]
  have hcensus : (System.new workers ⟨globals, printed, .ofSize count size⟩).census =
      ((List.range count).map fun id => (Task.idle (some id) size, Role.free)) := by
    unfold System.census System.new poolCensus
    dsimp only
    rw [hhands, hberths]
    simp [Pool.ofSize]
  refine ⟨?_, fun hand hmem => ?_, fun o ho => by cases ho⟩
  · rw [hcensus]
    refine ⟨hR, (Pool.capacity_ofSize _ _).trans hcount.symm, ?_, fun e he => ?_,
      fun id lease hl => absurd hl (by simp [Books.empty]), fun id t o hp => ?_⟩
    · rw [List.map_map]
      show List.Perm _ (everyone false (Pool.ofSize count size).capacity)
      rw [Pool.capacity_ofSize]
      exact .refl _
    · obtain ⟨id, -, rfl⟩ := List.mem_map.mp he
      exact ⟨Array.size_replicate, ⟨id, rfl, hparked id, rfl⟩, rfl⟩
    · cases (hparked id).symm.trans hp
  · rw [List.eq_of_mem_replicate hmem]
    trivial

/-- When nobody waits for a program and all pooled tasks are free, there are no other tasks. -/
theorem Governed.census_of_free (h : Governed R b size s) (hwaiting : s.waiting = false)
    (hfree : s.world.pool.available = s.world.pool.capacity) :
    s.census = s.world.pool.free.map (·, Role.free) := by
  have hlength := h.kept.complete.length_eq
  unfold System.census poolCensus at hlength ⊢
  rw [hwaiting] at hlength
  unfold Pool.available at hfree
  simp only [everyone, Bool.false_eq_true, if_false, List.nil_append, List.length_map,
    List.length_append, List.length_range] at hlength
  have hparked : s.world.pool.parked = [] := List.eq_nil_of_length_eq_zero (by omega)
  have hqueued : s.queued = [] := List.eq_nil_of_length_eq_zero (by omega)
  have hhands : s.hands.flatMap Hand.census = [] := List.eq_nil_of_length_eq_zero (by omega)
  rw [hparked, hqueued, hhands]
  simp

/-- Workers that have nothing to do go on in any regime. -/
theorem Governed.restart {H' : Type} {R' : Regime H'} (h : Governed R b size s)
    (hwaiting : s.waiting = false) (hfree : s.world.pool.available = s.world.pool.capacity)
    (hcapacity : R'.capacity = R.capacity) {globals : Array Slot}
    (hw : R'.holds { s.world with globals }) :
    Governed R' Books.empty size
      { s with world := { s.world with globals }, outcome := none } := by
  have hcensus := h.census_of_free hwaiting hfree
  refine ⟨⟨hw, h.kept.capacity.trans hcapacity.symm, h.kept.complete, fun e he => ?_,
    fun id lease hl => absurd hl (by simp [Books.empty]), fun id t outcome hp => ?_⟩, h.sensible,
    fun o ho => by cases ho⟩
  · have he : e ∈ s.census := he
    have hkeeps := h.kept.keeps e he
    rw [hcensus] at he
    obtain ⟨c, -, rfl⟩ := List.mem_map.mp he
    obtain ⟨hsize, ⟨id, hid, hparked, -⟩, hchildren⟩ := hkeeps
    exact ⟨hsize, ⟨id, hid, hparked, rfl⟩, hchildren⟩
  · obtain ⟨-, hmem⟩ := h.kept.berthed id t outcome hp
    rw [hcensus] at hmem
    obtain ⟨c, -, heq⟩ := List.mem_map.mp hmem
    cases heq

end

end ForkLisp.Schedule
