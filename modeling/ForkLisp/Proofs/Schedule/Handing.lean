/-
Tasks that change hands.

For each thing that a worker can do, what was kept is kept. A task that moves on by itself is
revised in its place (`Kept.revise`). A lease begins when a task is started (`Kept.spawn`), and it
is over when the task that has it joins the other one (`Kept.resume`) or gives it up
(`Kept.discard`, `Kept.detach`).
-/
import ForkLisp.Proofs.Schedule.Custody

namespace ForkLisp.Schedule

open ForkLisp.Code ForkLisp.Machine ForkLisp.Behaviour ForkLisp.Reference

variable {H : Type}

/-! ### Books -/

namespace Books

variable (b : Books H) (id : TaskId)

/-- A lease begins, on a task that has come to nothing yet. -/
def start (lease : Lease H) : Books H :=
  ⟨b.leases.start id lease, fun other => if other = id then none else b.results other⟩

/-- A lease is over. -/
def drop : Books H := ⟨b.leases.drop id, b.results⟩

/-- A task has come to its end. -/
def settle (outcome : Outcome) : Books H :=
  ⟨b.leases, fun other => if other = id then some outcome else b.results other⟩

end Books

variable {R : Regime H} {b b' b'' : Books H} {pool pool' pool'' : Pool} {size : Nat} {w w' : World}
  {waiting : Bool} {rest : List (Task × Role)} {ids : List (Option TaskId)} {t t' c : Task}
  {id : TaskId} {outcome : Outcome} {role role' : Role}

namespace Untouched

theorem trans (h : Untouched ids b b' pool pool') (h' : Untouched ids b' b'' pool' pool'') :
    Untouched ids b b'' pool pool'' where
  parked j hj := (h'.parked j hj).trans (h.parked j hj)
  stage j hj := (h'.stage j hj).trans (h.stage j hj)
  leases j hj := (h'.leases j hj).trans (h.leases j hj)
  results j hj := (h'.results j hj).trans (h.results j hj)
  owned j lease hj := (h'.owned j lease hj).trans (h.owned j lease hj)

theorem start {lease : Lease H} (hfree : b.leases id = none) (howner : lease.owner ∈ ids)
    (hid : some id ∈ ids) : Untouched ids b (b.start id lease) pool pool where
  parked _ _ := rfl
  stage _ _ := rfl
  leases j hj := Leases.start_of_ne fun h => hj (h ▸ hid)
  results j hj := if_neg fun h : j = id => hj (h ▸ hid)
  owned j lease' ho := by
    by_cases hj : j = id
    · show b.leases.start id lease j = _ ↔ _
      rw [hj, Leases.start_self, hfree]
      constructor
      · intro h
        obtain rfl := Option.some.inj h
        exact absurd howner ho
      · intro h
        cases h
    · show b.leases.start id lease j = _ ↔ _
      rw [Leases.start_of_ne hj]

theorem drop {lease : Lease H} (hl : b.leases id = some lease) (howner : lease.owner ∈ ids)
    (hid : some id ∈ ids) : Untouched ids b (b.drop id) pool pool where
  parked _ _ := rfl
  stage _ _ := rfl
  leases j hj := Leases.drop_of_ne fun h => hj (h ▸ hid)
  results _ _ := rfl
  owned j lease' ho := by
    by_cases hj : j = id
    · show b.leases.drop id j = _ ↔ _
      rw [hj, Leases.drop_self, hl]
      constructor
      · intro h
        cases h
      · intro h
        obtain rfl := Option.some.inj h
        exact absurd howner ho
    · show b.leases.drop id j = _ ↔ _
      rw [Leases.drop_of_ne hj]

theorem settle (hid : some id ∈ ids) : Untouched ids b (b.settle id outcome) pool pool where
  parked _ _ := rfl
  stage _ _ := rfl
  leases _ _ := rfl
  results j hj := if_neg fun h : j = id => hj (h ▸ hid)
  owned _ _ _ := Iff.rfl

/-- An operation of the pool that changes one berth. -/
theorem ofPool (hparked : ∀ j, id ≠ j → pool'.parked? j = pool.parked? j)
    (hstage : ∀ j, id ≠ j → pool'.stage? j = pool.stage? j) (hid : some id ∈ ids) :
    Untouched ids b b pool pool' where
  parked j hj := hparked j fun h => hj (h ▸ hid)
  stage j hj := hstage j fun h => hj (h ▸ hid)
  leases _ _ := rfl
  results _ _ := rfl
  owned _ _ _ := Iff.rfl

end Untouched

/-! ### Tasks at work -/

theorem wanted_start_of_ne {lease : Lease H} {k : Option TaskId} (h : k ≠ some id) :
    R.Wanted (b.start id lease).leases k = R.Wanted b.leases k := by
  unfold Regime.Wanted
  cases k with
  | none => rfl
  | some k =>
    have hk : (b.start id lease).leases k = b.leases k := Leases.start_of_ne fun hk => h (hk ▸ rfl)
    simp only [hk]

theorem wanted_drop_of_ne {k : Option TaskId} (h : k ≠ some id) :
    R.Wanted (b.drop id).leases k = R.Wanted b.leases k := by
  unfold Regime.Wanted
  cases k with
  | none => rfl
  | some k =>
    have hk : (b.drop id).leases k = b.leases k := Leases.drop_of_ne fun hk => h (hk ▸ rfl)
    simp only [hk]

/-- Nothing is wanted of a task that was given up. -/
theorem wanted_drop_self (outcome : Outcome) :
    R.Wanted (b.drop id).leases (some id) outcome () := by
  intro lease hl
  rw [show (b.drop id).leases id = none from Leases.drop_self _ _] at hl
  cases hl

namespace Working

theorem congr (h : Working b pool t) (hid : t'.id = t.id) (hc : t'.children = t.children) :
    Working b pool t' where
  nodup := hc ▸ h.nodup
  children id := by
    rw [hc, hid]
    exact h.children id
  berth id hid' := h.berth id (hid ▸ hid')

/-- A task without children has no leases. -/
theorem owner_ne (h : Working b pool t) (hc : t.children = []) {j : TaskId} {lease : Lease H}
    (hl : b.leases j = some lease) : lease.owner ≠ t.id := by
  intro ho
  have hmem := (h.children j).mpr ⟨lease, hl, ho⟩
  rw [hc] at hmem
  cases hmem

/-- The other children of a task that gives up the first one. -/
theorem tail (h : Working b pool t) {children : List TaskId} (hc : t.children = id :: children) :
    children.Nodup ∧ ∀ j, j ∈ children ↔ j ∈ t.children ∧ j ≠ id := by
  have hnodup := h.nodup
  rw [hc, List.nodup_cons] at hnodup
  refine ⟨hnodup.2, fun j => ?_⟩
  rw [hc, List.mem_cons]
  constructor
  · intro hj
    exact ⟨.inr hj, fun heq => hnodup.1 (heq ▸ hj)⟩
  · rintro ⟨hj, hjid⟩
    exact hj.resolve_left hjid

theorem children_drop (h : Working b pool t) (hid : t'.id = t.id)
    (hc : ∀ j, j ∈ t'.children ↔ j ∈ t.children ∧ j ≠ id) (j : TaskId) :
    j ∈ t'.children ↔ ∃ lease, (b.drop id).leases j = some lease ∧ lease.owner = t'.id := by
  rw [hc, h.children, hid]
  constructor
  · rintro ⟨⟨lease, hl, ho⟩, hj⟩
    exact ⟨lease, (Leases.drop_of_ne hj).trans hl, ho⟩
  · rintro ⟨lease, hl, ho⟩
    obtain ⟨hj, hl⟩ := Leases.of_drop hl
    exact ⟨⟨lease, hl, ho⟩, hj⟩

/-- A task that does not wait for the task `id` any more. -/
theorem drop (h : Working b pool t) (hid : t'.id = t.id) (hne : t.id ≠ some id)
    (hnodup : t'.children.Nodup) (hc : ∀ j, j ∈ t'.children ↔ j ∈ t.children ∧ j ≠ id)
    (hparked : ∀ j, id ≠ j → pool'.parked? j = pool.parked? j)
    (hstage : ∀ j, id ≠ j → pool'.stage? j = pool.stage? j) : Working (b.drop id) pool' t' where
  nodup := hnodup
  children := h.children_drop hid hc
  berth k hk := by
    have hk : t.id = some k := hid.symm.trans hk
    have hkid : id ≠ k := fun heq => hne (heq ▸ hk)
    rw [hparked k hkid, hstage k hkid, show (b.drop id).leases k = b.leases k from
      Leases.drop_of_ne (Ne.symm hkid)]
    exact h.berth k hk

/-- A task at work is given up. The task may be the one that is given up, or the one
that gives it up. -/
theorem detach (h : Working b pool t) (hid : t'.id = t.id) (hnodup : t'.children.Nodup)
    (hc : ∀ j, j ∈ t'.children ↔ j ∈ t.children ∧ j ≠ id) (hparked : pool.parked? id = none)
    (hlt : t.id = some id → id < pool.capacity) :
    Working (b.drop id) (pool.setStage id .detached) t' := by
  by_cases heq : t.id = some id
  · refine ⟨hnodup, h.children_drop hid hc, fun k hk => ?_⟩
    obtain rfl := Option.some.inj (heq.symm.trans (hid.symm.trans hk))
    refine ⟨Pool.parked?_setStage.trans hparked, (h.berth id heq).2.1, ?_⟩
    rw [Pool.stage?_setStage_self (hlt heq)]
    simp [Books.drop]
  · exact h.drop hid heq hnodup hc (fun j _ => Pool.parked?_setStage)
      fun j hj => Pool.stage?_setStage_of_ne hj

/-- A task starts the task `id`. -/
theorem start (h : Working b pool t) (hid : t'.id = t.id) (hne : t.id ≠ some id)
    (hc : t'.children = t.children ++ [id]) (hfree : b.leases id = none) {lease : Lease H}
    (howner : lease.owner = t.id) (hparked : ∀ j, pool'.parked? j = pool.parked? j)
    (hstage : ∀ j, id ≠ j → pool'.stage? j = pool.stage? j) :
    Working (b.start id lease) pool' t' where
  nodup := by
    rw [hc]
    refine List.nodup_append.mpr ⟨h.nodup, List.nodup_singleton id, ?_⟩
    intro j hj j' hj' heq
    obtain ⟨l, hl, -⟩ := (h.children j).mp hj
    rw [heq, List.mem_singleton.mp hj', hfree] at hl
    cases hl
  children j := by
    show j ∈ t'.children ↔ ∃ l, b.leases.start id lease j = some l ∧ l.owner = t'.id
    rw [hc, List.mem_append, List.mem_singleton, hid]
    by_cases hj : j = id
    · rw [hj, Leases.start_self]
      exact ⟨fun _ => ⟨lease, rfl, howner⟩, fun _ => .inr rfl⟩
    · rw [Leases.start_of_ne hj, h.children j]
      exact ⟨fun h => h.resolve_right hj, .inl⟩
  berth k hk := by
    have hk : t.id = some k := hid.symm.trans hk
    have hkid : k ≠ id := fun heq => hne (heq ▸ hk)
    obtain ⟨hp, hr, hs⟩ := h.berth k hk
    refine ⟨(hparked k).trans hp, (if_neg hkid).trans hr, ?_⟩
    show pool'.stage? k = _ ↔ b.leases.start id lease k = none
    rw [hstage k (Ne.symm hkid), Leases.start_of_ne hkid]
    exact hs

/-- A task that was started has no leases yet. -/
theorem started {lease : Lease H} (hid : t.id = some id) (hc : t.children = [])
    (hnew : ∀ j l, (b.start id lease).leases j = some l → l.owner ≠ some id)
    (hparked : pool.parked? id = none) (hstage : pool.stage? id = some .running) :
    Working (b.start id lease) pool t where
  nodup := hc ▸ List.nodup_nil
  children j := by
    rw [hc, hid]
    exact ⟨fun hj => absurd hj List.not_mem_nil, fun ⟨l, hl, ho⟩ => absurd ho (hnew j l hl)⟩
  berth k hk := by
    obtain rfl := Option.some.inj (hid.symm.trans hk)
    refine ⟨hparked, if_pos rfl, ?_⟩
    show pool.stage? id = _ ↔ b.leases.start id lease id = none
    rw [hstage, Leases.start_self]
    simp

end Working

/-- A task that is given up goes on as it did. -/
theorem Runs.drop (h : Runs R b t) (hid : t.id = some id) {lease : Lease H}
    (hl : b.leases id = some lease) (howner : lease.owner ≠ t.id) : Runs R (b.drop id) t := by
  obtain ⟨m, hm, hconducts⟩ := h
  refine ⟨m, hm, ?_⟩
  refine (hconducts.weaken fun o _ _ => ?_).ofLeases fun j i p hj => ?_
  · rw [hid]
    exact wanted_drop_self o
  · refine (Leases.drop_of_ne ?_).trans hj
    rintro rfl
    rw [hl] at hj
    rw [Option.some.inj hj] at howner
    exact howner rfl

/-- A task that is given up is at work, and stays so. -/
theorem Keeps.detach (h : Keeps R b pool size (c, role)) (hid : c.id = some id) {lease : Lease H}
    (hl : b.leases id = some lease) (howner : lease.owner ≠ c.id) (hparked : pool.parked? id = none)
    (hcollected : ∀ o, role ≠ .collected o) (hlt : id < pool.capacity) :
    Keeps R (b.drop id) (pool.setStage id .detached) size (c, role) := by
  have hunowned : ¬ Unowned b pool c := by
    rintro ⟨k, hk, -, hnone⟩
    obtain rfl := Option.some.inj (hid.symm.trans hk)
    rw [hl] at hnone
    cases hnone
  have hworking : Working b pool c → Working (b.drop id) (pool.setStage id .detached) c := by
    intro hwork
    refine hwork.detach rfl hwork.nodup (fun j => ⟨fun hj => ⟨hj, ?_⟩, fun hj => hj.1⟩)
      hparked fun _ => hlt
    -- it has not started itself
    rintro rfl
    obtain ⟨l, hl', ho⟩ := (hwork.children j).mp hj
    rw [hl] at hl'
    rw [Option.some.inj hl'] at howner
    exact howner ho
  refine ⟨h.1, ?_⟩
  have hkeeps := h.2
  cases role with
  | free => exact absurd hkeeps.1 hunowned
  | ready =>
    refine ⟨hworking hkeeps.1, fun hf => (hkeeps.2.1 hf).drop hid hl howner, fun _ => ?_⟩
    rw [hid]
    exact wanted_drop_self _
  | active => exact ⟨hworking hkeeps.1, hkeeps.2.drop hid hl howner⟩
  | ending o =>
    refine ⟨hworking hkeeps.1, ?_⟩
    rw [hid]
    exact wanted_drop_self o
  | parked o =>
    obtain ⟨k, -, hk, hp, -⟩ := hkeeps
    obtain rfl := Option.some.inj (hid.symm.trans hk)
    rw [hparked] at hp
    cases hp
  | collected o => exact absurd rfl (hcollected o)
  | dismissed => exact absurd hkeeps hunowned

/-- Only tasks at work have leases. -/
theorem Kept.owner_ne {census : List (Task × Role)} (h : Kept R b size w waiting census)
    {e : Task × Role} (he : e ∈ census) (hidle : ¬ e.2.Works) {j : TaskId} {lease : Lease H}
    (hl : b.leases j = some lease) :
    lease.owner ≠ e.1.id := by
  obtain ⟨e', he', hworks, hid⟩ := h.owned j lease hl
  intro ho
  rw [h.unique he' he (hid.trans ho)] at hworks
  exact hidle hworks

/-- What a task finds in the pool. -/
theorem Kept.furnished (hR : R.Sound) {census : List (Task × Role)}
    (h : Kept R b size w waiting census) (hfree : ∀ c ∈ w.pool.free, (c, Role.free) ∈ census)
    (ht : t.stack.size = size) {m : Meaning Datum H Unit} (hm : R.Means t.program m) :
    Furnished m b.leases t w.pool where
  taken c q n args a htake hs := by
    obtain ⟨hsize, ⟨id, hid, -, hl⟩, -⟩ := h.keeps _ (hfree c (Pool.mem_free_of_take? htake))
    exact ⟨hR.detachable _ _ n args hm hs, hsize.trans ht.symm, id, hid, hl⟩
  joined id i p outcome q hl hj a := by
    unfold Pool.join? Pool.collect? at hj
    split at hj
    · split at hj
      · rename_i child o hp
        obtain ⟨rfl, -⟩ := Prod.mk.inj (Option.some.inj hj)
        obtain ⟨hid, hmem⟩ := h.berthed id child o hp
        obtain ⟨-, k, lease, hk, -, hlease, hd, -⟩ := h.keeps _ hmem
        obtain rfl := Option.some.inj (hid.symm.trans hk)
        obtain rfl := Option.some.inj (hl.symm.trans hlease)
        exact (hR.delivers_iff _ _ _ _ hm).mpr hd
      · cases hj
    · cases hj

/-! ### One task -/

/-- A task moves on, and nothing changes for others. -/
theorem Kept.revise (h : Kept R b size w waiting ((t, role) :: rest)) (hid : t'.id = t.id)
    (hk : Keeps R b w.pool size (t', role')) (hw : R.holds w') (hp : w'.pool = w.pool)
    (hworks : role.Works → role'.Works) (hrole : ∀ o, role ≠ .parked o) :
    Kept R b size w' waiting ((t', role') :: rest) where
  holds := hw
  capacity := by
    rw [hp]
    exact h.capacity
  complete := by
    rw [List.map_cons, hp, hid]
    exact h.complete
  keeps e he := by
    rw [hp]
    rcases List.mem_cons.mp he with rfl | he
    · exact hk
    · exact h.keeps e (List.mem_cons_of_mem _ he)
  owned j lease hl := by
    obtain ⟨e, he, hw, ho⟩ := h.owned j lease hl
    rcases List.mem_cons.mp he with rfl | he
    · exact ⟨_, List.mem_cons_self, hworks hw, hid.trans ho⟩
    · exact ⟨e, List.mem_cons_of_mem _ he, hw, ho⟩
  berthed j t₀ o hj := by
    rw [hp] at hj
    obtain ⟨ht₀, hmem⟩ := h.berthed j t₀ o hj
    rcases List.mem_cons.mp hmem with heq | hmem
    · exact absurd (Prod.mk.inj heq).2.symm (hrole o)
    · exact ⟨ht₀, List.mem_cons_of_mem _ hmem⟩

/-! ### Starting a task -/

/-- No other task has the index of a task. -/
theorem Kept.ne_child (h : Kept R b size w waiting ((t, role) :: (c, role') :: rest))
    (hid : c.id = some id) : t.id ≠ some id := by
  have hnodup := h.nodup
  rw [List.map_cons, List.map_cons] at hnodup
  intro heq
  exact (List.nodup_cons.mp hnodup).1 (by simp [heq, hid])

/-- A task that is started has started nothing yet. -/
theorem Kept.owner_ne_start (h : Kept R b size w waiting ((t, .active) :: (c, .free) :: rest))
    (hid : c.id = some id) {lease : Lease H} (howner : lease.owner = t.id) {j : TaskId}
    {lease' : Lease H} (hl : (b.start id lease).leases j = some lease') :
    lease'.owner ≠ some id := by
  have hl : b.leases.start id lease j = some lease' := hl
  by_cases hj : j = id
  · rw [hj, Leases.start_self] at hl
    obtain rfl := Option.some.inj hl
    exact fun ho => h.ne_child hid (howner.symm.trans ho)
  · rw [Leases.start_of_ne hj] at hl
    have hother := h.owner_ne (e := (c, .free)) (by simp) (by simp [Role.Works]) hl
    exact fun ho => hother (ho.trans hid.symm)

theorem Kept.spawn (hR : R.Sound) (h : Kept R b size w waiting ((t, .active) :: (c, .free) :: rest))
    {m : Meaning Datum H Unit} (hm : R.Means t.program m) (htake : w.pool.take? = some (c, pool))
    (hid : c.id = some id) {lease : Lease H} (howner : lease.owner = t.id) {t' : Task}
    (hsame : t.Continues t') (hc : t'.children = t.children ++ [id])
    (hconducts : Conducts m (R.Wanted b.leases t.id) (b.leases.start id lease) t' ()) {n : FuncId}
    {args : List Slot} (hchild : ∀ leases,
      Conducts m (Delivers m lease.handle) leases (c.start t.program n args) ()) :
    Kept R (b.start id lease) size { w with pool } waiting
      ((t', .active) :: (c.start t.program n args, .active) :: rest) := by
  obtain ⟨hsize, hworking, -⟩ := h.keeps (t, .active) (by simp)
  obtain ⟨hcsize, ⟨id', hid', hparked, hnone⟩, hcchildren⟩ := h.keeps (c, .free) (by simp)
  obtain rfl := Option.some.inj (hid.symm.trans hid')
  obtain ⟨hfree, hberths⟩ := Pool.take?_eq_some htake hid
  have hlt : id < w.pool.capacity := h.lt_capacity (e := (c, .free)) (by simp) hid
  have hne := h.ne_child hid
  have hpool : ∀ j, pool.parked? j = w.pool.parked? j := fun j =>
    (Pool.parked?_eq_of_berths hberths j).trans Pool.parked?_setStage
  have hstage : ∀ j, id ≠ j → pool.stage? j = w.pool.stage? j := fun j hj =>
    (Pool.stage?_eq_of_berths hberths j).trans (Pool.stage?_setStage_of_ne hj)
  have hrunning : pool.stage? id = some .running :=
    (Pool.stage?_eq_of_berths hberths id).trans (Pool.stage?_setStage_self hlt)
  refine h.replace [(t, .active), (c, .free)] [(t', .active), (c.start t.program n args, .active)]
    [t.id, some id] (by simp [hid]) ?_ (hR.pool w _ h.holds) ?_ ?_ ?_ ?_ ?_
  · exact (Untouched.start hnone (howner ▸ List.mem_cons_self) (by simp)).trans
      (.ofPool (fun j _ => hpool j) hstage (by simp))
  · show pool.berths.size = w.pool.berths.size
    rw [hberths]
    exact Pool.capacity_setStage _ _ _
  · show [t'.id, c.id] = [t.id, c.id]
    rw [hsame.id]
  · intro e he
    rcases List.mem_pair.mp he with rfl | rfl
    · refine ⟨hsame.size.trans hsize, hworking.start hsame.id hne hc hnone howner hpool hstage, m,
        hsame.program ▸ hm, ?_⟩
      show Conducts m (R.Wanted _ t'.id) _ t' ()
      rw [hsame.id, wanted_start_of_ne hne]
      exact hconducts
    · refine ⟨(size_writeAll _ _ _).trans hcsize,
        Working.started hid hcchildren (fun j lease' hl => h.owner_ne_start hid howner hl)
          ((hpool id).trans hparked) hrunning, m, hm, ?_⟩
      -- what the new task delivers is wanted of it by the lease that begins
      refine (hchild _).weaken fun o _ ho => ?_
      show R.Wanted _ c.id o ()
      rw [hid]
      intro lease' hl
      have hl : b.leases.start id lease id = some lease' := hl
      rw [Leases.start_self] at hl
      obtain rfl := Option.some.inj hl
      exact (hR.delivers_iff _ _ _ _ hm).mp ho
  · intro j lease' hl ho
    rcases List.mem_pair.mp ho with ho | ho
    · exact ⟨_, List.mem_cons_self, trivial, hsame.id.trans ho.symm⟩
    · exact absurd ho (h.owner_ne_start hid howner hl)
  · intro j t₀ o hj hp
    rw [show ({ w with pool } : World).pool.parked? j = w.pool.parked? j from hpool j] at hp
    rcases List.mem_pair.mp hj with hj | hj
    · rw [(hworking.berth j hj.symm).1] at hp
      cases hp
    · rw [Option.some.inj hj, hparked] at hp
      cases hp

/-! ### Waiting for a task -/

/-- A task that has ended is picked up. -/
theorem Kept.collect (hR : R.Sound)
    (h : Kept R b size w waiting ((c, .parked outcome) :: rest)) (hid : c.id = some id) :
    Kept R b size { w with pool := w.pool.setParked id none } waiting
      ((c, .collected outcome) :: rest) := by
  obtain ⟨hsize, k, lease, hk, hp, hl, hd, hr, hs⟩ := h.keeps (c, .parked outcome) (by simp)
  obtain rfl := Option.some.inj (hid.symm.trans hk)
  have hnone : (w.pool.setParked id none).parked? id = none := Pool.parked?_setParked_none
  refine h.replace [(c, .parked outcome)] [(c, .collected outcome)] [some id] (by simp [hid]) ?_
    (hR.pool w _ h.holds) ?_ ?_ ?_ ?_ ?_
  · exact .ofPool (fun j hj => Pool.parked?_setParked_of_ne hj) (fun j _ => Pool.stage?_setParked)
      (by simp)
  · exact Pool.capacity_setParked
  · rfl
  · intro e he
    obtain rfl := List.mem_singleton.mp he
    exact ⟨hsize, id, lease, hid, hnone, hl, hd, hr, Pool.stage?_setParked.trans hs⟩
  · intro j lease' hl' ho
    obtain ⟨e, he, hworks, heid⟩ := h.owned j lease' hl'
    rcases List.mem_cons.mp he with rfl | he
    · exact absurd hworks (by simp [Role.Works])
    · exact ⟨e, by simp [he], hworks, heid⟩
  · intro j t₀ o hj hp'
    rw [Option.some.inj (List.mem_singleton.mp hj)] at hp'
    cases hnone.symm.trans hp'

/-- A task whose child was collected, or dismissed, goes on without it. -/
theorem Kept.part (hR : R.Sound)
    (h : Kept R b size w waiting ((t, role) :: (c, role') :: rest)) (hne : t.id ≠ some id)
    (hid : c.id = some id) {lease : Lease H} (hl : b.leases id = some lease)
    (howner : lease.owner = t.id) (hrole : ∀ o, role ≠ .parked o) (hwork : ¬ role'.Works)
    (hparked : pool.parked? id = none)
    (hpool : ∀ j, id ≠ j → pool.parked? j = w.pool.parked? j)
    (hstage : ∀ j, id ≠ j → pool.stage? j = w.pool.stage? j)
    (hcapacity : pool.capacity = w.pool.capacity) {t' c' : Task} {now now' : Role}
    (ht' : t'.id = t.id) (hc' : c'.id = c.id) (hworks : now.Works)
    (hkeeps : Keeps R (b.drop id) pool size (t', now))
    (hkeeps' : Keeps R (b.drop id) pool size (c', now')) :
    Kept R (b.drop id) size { w with pool } waiting ((t', now) :: (c', now') :: rest) := by
  refine h.replace [(t, role), (c, role')] [(t', now), (c', now')]
    [t.id, some id] (by simp [hid]) ?_ (hR.pool w _ h.holds) ?_ ?_ ?_ ?_ ?_
  · exact (Untouched.drop hl (howner ▸ List.mem_cons_self) (by simp)).trans
      (.ofPool hpool hstage (by simp))
  · exact hcapacity
  · show [t'.id, c'.id] = [t.id, c.id]
    rw [ht', hc']
  · intro e he
    rcases List.mem_pair.mp he with rfl | rfl
    · exact hkeeps
    · exact hkeeps'
  · intro j lease' hl' ho
    rcases List.mem_pair.mp ho with ho | ho
    · exact ⟨_, List.mem_cons_self, hworks, ht'.trans ho.symm⟩
    · -- the other task is not at work, so that it has no leases
      have hother := h.owner_ne (e := (c, role')) (by simp) hwork (Leases.of_drop hl').2
      exact absurd (ho.trans hid.symm) hother
  · intro j t₀ o hj hp
    have hp : pool.parked? j = some (t₀, o) := hp
    rcases List.mem_pair.mp hj with hj | hj
    · rw [hpool j fun heq => hne (heq ▸ hj.symm)] at hp
      obtain ⟨ht₀, hmem⟩ := h.berthed j t₀ o hp
      have heq := h.unique hmem List.mem_cons_self (ht₀.trans hj)
      exact absurd (Prod.mk.inj heq).2.symm (hrole o)
    · rw [Option.some.inj hj, hparked] at hp
      cases hp

/-- A task that was waited for becomes free, and the task that waited for it goes on. -/
theorem Kept.resume (hR : R.Sound)
    (h : Kept R b size w waiting ((t, .active) :: (c, .collected outcome) :: rest))
    (hid : c.id = some id) {lease : Lease H} (hl : b.leases id = some lease)
    (howner : lease.owner = t.id) {t' : Task} {now : Role} (hsame : t.Continues t')
    (hc : t'.children = t.children.filter (· != id)) (hnow : now.Works)
    (hkeeps : Working (b.drop id) (w.pool.release c) t' → t'.stack.size = size →
      Keeps R (b.drop id) (w.pool.release c) size (t', now)) :
    Kept R (b.drop id) size { w with pool := w.pool.release c } waiting
      ((t', now) :: (c.reset, .free) :: rest) := by
  obtain ⟨hsize, hworking, -⟩ := h.keeps (t, .active) (by simp)
  obtain ⟨hcsize, k, lease', hk, hparked, -⟩ := h.keeps (c, .collected outcome) (by simp)
  obtain rfl := Option.some.inj (hid.symm.trans hk)
  have hne := h.ne_child hid
  have hstage : ∀ j, id ≠ j → (w.pool.release c).stage? j = w.pool.stage? j := fun j hj =>
    Pool.stage?_release_of_ne fun heq => hj (Option.some.inj (hid.symm.trans heq))
  have hworking' : Working (b.drop id) (w.pool.release c) t' := by
    refine hworking.drop hsame.id hne (hc ▸ hworking.nodup.filter _) (fun j => ?_)
      (fun j _ => Pool.parked?_release) hstage
    rw [hc, List.mem_filter]
    simp
  refine h.part hR hne hid hl howner (by simp) (by simp [Role.Works])
    (Pool.parked?_release.trans hparked)
    (fun j _ => Pool.parked?_release) hstage Pool.capacity_release hsame.id rfl hnow
    (hkeeps hworking' (hsame.size.trans hsize)) ⟨hcsize, ⟨id, hid, ?_, ?_⟩, rfl⟩
  · exact Pool.parked?_release.trans hparked
  · exact Leases.drop_self _ _

/-! ### Giving up tasks -/

/-- A task that is over gives up one that has ended. -/
theorem Kept.discard (hR : R.Sound) {given : Outcome}
    (h : Kept R b size w waiting ((t, .ending outcome) :: (c, .parked given) :: rest))
    (hid : c.id = some id) {children : List TaskId} (hc : t.children = id :: children) :
    Kept R (b.drop id) size { w with pool := w.pool.setParked id none } waiting
      (({ t with children }, .ending outcome) :: (c, .dismissed) :: rest) := by
  obtain ⟨hsize, hworking, hwanted⟩ := h.keeps (t, .ending outcome) (by simp)
  obtain ⟨hcsize, k, lease', hk, hparked, hl', -⟩ := h.keeps (c, .parked given) (by simp)
  obtain rfl := Option.some.inj (hid.symm.trans hk)
  obtain ⟨lease, hl, howner⟩ := (hworking.children id).mp (hc ▸ List.mem_cons_self)
  have hne := h.ne_child hid
  obtain ⟨hnodup, hothers⟩ := hworking.tail hc
  have hpool : ∀ j, id ≠ j → (w.pool.setParked id none).parked? j = w.pool.parked? j := fun j hj =>
    Pool.parked?_setParked_of_ne hj
  have hworking' : Working (b.drop id) (w.pool.setParked id none) { t with children } :=
    hworking.drop rfl hne hnodup hothers hpool fun j _ => Pool.stage?_setParked
  refine h.part hR hne hid hl howner (by simp) (by simp [Role.Works])
    Pool.parked?_setParked_none hpool (fun j _ => Pool.stage?_setParked)
      Pool.capacity_setParked rfl rfl trivial
    ⟨hsize, hworking', ?_⟩ ⟨hcsize, id, hid, Pool.parked?_setParked_none, Leases.drop_self _ _⟩
  show R.Wanted (b.drop id).leases t.id outcome ()
  rw [wanted_drop_of_ne hne]
  exact hwanted

/-- A task that is over gives up one that is still at work. -/
theorem Kept.detach (hR : R.Sound)
    (h : Kept R b size w waiting ((t, .ending outcome) :: rest))
    (hparked : w.pool.parked? id = none)
    (hcollected : ∀ c o, (c, Role.collected o) ∈ rest → c.id ≠ some id) {children : List TaskId}
    (hc : t.children = id :: children) :
    Kept R (b.drop id) size { w with pool := w.pool.setStage id .detached } waiting
      (({ t with children }, .ending outcome) :: rest) := by
  obtain ⟨hsize, hworking, hwanted⟩ := h.keeps (t, .ending outcome) (by simp)
  obtain ⟨lease, hl, howner⟩ := (hworking.children id).mp (hc ▸ List.mem_cons_self)
  obtain ⟨hnodup, hothers⟩ := hworking.tail hc
  refine h.exchange [(t, .ending outcome)] [({ t with children }, .ending outcome)] [t.id, some id]
    ?_ ?_ ?_ ?_ ?_ ?_ ?_ ?_ ?_
  · intro e he
    obtain rfl := List.mem_singleton.mp he
    exact List.mem_cons_self
  · exact (Untouched.drop hl (howner ▸ List.mem_cons_self) (by simp)).trans
      (.ofPool (fun j _ => Pool.parked?_setStage)
        (fun j hj => Pool.stage?_setStage_of_ne hj) (by simp))
  · exact hR.pool w _ h.holds
  · exact Pool.capacity_setStage _ _ _
  · rfl
  · intro e he
    obtain rfl := List.mem_singleton.mp he
    refine ⟨hsize, hworking.detach rfl hnodup hothers hparked fun heq =>
      h.lt_capacity (by simp) heq, ?_⟩
    show R.Wanted (b.drop id).leases t.id outcome ()
    by_cases hne : t.id = some id
    · rw [hne]
      exact wanted_drop_self outcome
    · rw [wanted_drop_of_ne hne]
      exact hwanted
  · intro e he hmem
    -- the task that is given up is among the others
    have hapart : e.1.id ∉ [(t, Role.ending outcome)].map (·.1.id) := h.apart he
    have hid : e.1.id = some id := by
      rcases List.mem_pair.mp hmem with hmem | hmem
      · exact absurd (List.mem_singleton.mpr hmem) hapart
      · exact hmem
    have hne : lease.owner ≠ e.1.id := fun ho =>
      hapart (List.mem_singleton.mpr (ho.symm.trans howner))
    have hmem : e ∈ (t, .ending outcome) :: rest := List.mem_cons_of_mem _ he
    refine (h.keeps e hmem).detach hid hl hne hparked (fun o hrole => ?_) (h.lt_capacity hmem hid)
    exact hcollected e.1 o (hrole ▸ he) hid
  · intro j lease' hl' ho
    obtain ⟨e, he, hworks, heid⟩ := h.owned j lease' (Leases.of_drop hl').2
    rcases List.mem_cons.mp he with rfl | he
    · exact ⟨_, List.mem_cons_self, trivial, heid⟩
    · exact ⟨e, List.mem_cons_of_mem _ he, hworks, heid⟩
  · intro j t₀ o hj hp
    have hp : w.pool.parked? j = some (t₀, o) := Pool.parked?_setStage.symm.trans hp
    obtain ⟨ht₀, hmem⟩ := h.berthed j t₀ o hp
    rcases List.mem_cons.mp hmem with heq | hmem
    · cases (Prod.mk.inj heq).2
    · exact ⟨ht₀, List.mem_cons_of_mem _ hmem⟩

/-- A task that nobody waits for becomes free. -/
theorem Kept.release (hR : R.Sound)
    (h : Kept R b size w waiting ((c, .dismissed) :: rest)) :
    Kept R b size { w with pool := w.pool.release c } waiting ((c.reset, .free) :: rest) := by
  obtain ⟨hsize, id, hid, hparked, hl⟩ := h.keeps (c, .dismissed) (by simp)
  have hid : c.id = some id := hid
  refine h.replace [(c, .dismissed)] [(c.reset, .free)] [some id] (by simp [hid]) ?_
    (hR.pool w _ h.holds) ?_ ?_ ?_ ?_ ?_
  · exact .ofPool (fun j _ => Pool.parked?_release)
      (fun j hj => Pool.stage?_release_of_ne fun heq =>
      hj (Option.some.inj (hid.symm.trans heq))) (by simp)
  · exact Pool.capacity_release
  · rfl
  · intro e he
    obtain rfl := List.mem_singleton.mp he
    exact ⟨hsize, ⟨id, hid, Pool.parked?_release.trans hparked, hl⟩, rfl⟩
  · intro j lease' hl' ho
    obtain ⟨e, he, hworks, heid⟩ := h.owned j lease' hl'
    rcases List.mem_cons.mp he with rfl | he
    · exact absurd hworks (by simp [Role.Works])
    · exact ⟨e, List.mem_cons_of_mem _ he, hworks, heid⟩
  · intro j t₀ o hj hp
    have hp : w.pool.parked? j = some (t₀, o) := Pool.parked?_release.symm.trans hp
    rw [Option.some.inj (List.mem_singleton.mp hj), hparked] at hp
    cases hp

/-! ### Coming to an end -/

/-- The task of a form is over. -/
theorem Kept.answer (h : Kept R b size w waiting ((t, .ending outcome) :: rest)) (hid : t.id = none)
    (hc : t.children = []) : waiting = true ∧ R.wanted outcome ∧
      Kept R b size w false rest := by
  obtain ⟨-, hworking, hwanted⟩ := h.keeps (t, .ending outcome) (by simp)
  have hwaiting : waiting = true := by
    have hmem : none ∈ everyone waiting w.pool.capacity :=
      h.complete.mem_iff.mp (List.mem_map.mpr ⟨_, List.mem_cons_self, hid⟩)
    unfold everyone at hmem
    cases waiting with
    | true => rfl
    | false => simp at hmem
  refine ⟨hwaiting, ?_, h.holds, h.capacity, ?_, fun e he =>
    h.keeps e (List.mem_cons_of_mem _ he), ?_, ?_⟩
  · have hwanted : R.Wanted b.leases t.id outcome () := hwanted
    rw [hid] at hwanted
    exact hwanted
  · have hperm := h.complete
    rw [hwaiting, List.map_cons, hid] at hperm
    exact (List.perm_cons none).mp hperm
  · intro j lease hl
    obtain ⟨e, he, hworks, heid⟩ := h.owned j lease hl
    rcases List.mem_cons.mp he with rfl | he
    · exact absurd heid.symm (hworking.owner_ne hc hl)
    · exact ⟨e, he, hworks, heid⟩
  · intro j t₀ o hp
    obtain ⟨ht₀, hmem⟩ := h.berthed j t₀ o hp
    rcases List.mem_cons.mp hmem with heq | hmem
    · cases (Prod.mk.inj heq).2
    · exact ⟨ht₀, hmem⟩

/-- A pooled task is over: it is dismissed, or parked for the one that waits for it. -/
theorem Kept.settle (h : Kept R b size w waiting ((t, .ending outcome) :: rest))
    (hid : t.id = some id) (hc : t.children = []) {now : Role} (hR : R.Sound)
    (hpool : ∀ j, id ≠ j → pool.parked? j = w.pool.parked? j)
    (hstage : ∀ j, id ≠ j → pool.stage? j = w.pool.stage? j)
    (hcapacity : pool.capacity = w.pool.capacity)
    (hparked : ∀ t₀ o, pool.parked? id = some (t₀, o) → t₀ = t ∧ now = .parked o)
    (hkeeps : Keeps R (b.settle id outcome) pool size (t, now)) :
    Kept R (b.settle id outcome) size { w with pool } waiting ((t, now) :: rest) := by
  obtain ⟨-, hworking, -⟩ := h.keeps (t, .ending outcome) (by simp)
  refine h.replace [(t, .ending outcome)] [(t, now)] [some id] (by simp [hid])
    ?_ (hR.pool w _ h.holds) ?_ ?_ ?_ ?_ ?_
  · exact (Untouched.settle (by simp)).trans (.ofPool hpool hstage (by simp))
  · exact hcapacity
  · rfl
  · intro e he
    obtain rfl := List.mem_singleton.mp he
    exact hkeeps
  · intro j lease hl ho
    rw [List.mem_singleton, ← hid] at ho
    exact absurd ho (hworking.owner_ne hc hl)
  · intro j t₀ o hj hp
    obtain rfl := Option.some.inj (List.mem_singleton.mp hj)
    obtain ⟨rfl, rfl⟩ := hparked t₀ o hp
    exact ⟨hid, by simp⟩

end ForkLisp.Schedule
