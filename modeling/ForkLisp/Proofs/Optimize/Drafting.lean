/-
Drafts and what becomes of them.

A draft is written front to back, and the jumps in it get their targets later.

* `Draft.Valid` holds of every draft on the way: each open jump is in the code, each settled one
  goes forward and not past the next instruction to come, and the end has not been written.
* `Draft.Reading` adds that all open jumps go to places that are still to be read.
* `Settles` looks back from the final code: it has all the instructions of the draft, and each open
  jump of the draft has been made to go to a place from which running does what running from its
  target would do. Each way of extending a draft carries this back to the shorter draft.
-/
import Mathlib.Data.List.Nodup
import ForkLisp.Optimize.Draft
import ForkLisp.Proofs.Behaviour.Meaning

namespace ForkLisp.Optimize

open ForkLisp.Code ForkLisp.Behaviour

theorem withOffset_withOffset (i : Inst) (a b : Int) :
    (i.withOffset a).withOffset b = i.withOffset b := by
  cases i <;> rfl

theorem offset?_withOffset {i : Inst} {a : Int} (h : i.offset?.isSome = true) :
    (i.withOffset a).offset? = some a := by
  cases i <;> first | rfl | exact absurd h (by simp [Inst.offset?])

theorem withOffset_ne_stop {i : Inst} {a : Int} (h : i.offset?.isSome = true) :
    i.withOffset a ≠ .stop := by
  intro hs
  have := offset?_withOffset (a := a) h
  rw [hs] at this
  exact absurd this (by simp [Inst.offset?])

/-! ### Placing labels -/

theorem Builder.place_getElem? (b : Builder) (l n : Nat) :
    (b.place l).code[n]? =
      if l = n then (b.code[n]?).map (Inst.withOffset (b.size - n)) else b.code[n]? := by
  unfold Builder.place
  rw [Array.getElem?_modify]
  split
  · rename_i h
    subst h
    rfl
  · rfl

/-- Placing labels changes the instructions at the labels only. -/
theorem foldl_place (ps : List Pending) (b : Builder) :
    (ps.foldl (fun b p => b.place p.label) b).size = b.size ∧
      ∀ n, (ps.foldl (fun b p => b.place p.label) b).code[n]? =
        if ∃ p ∈ ps, p.label = n then (b.code[n]?).map (Inst.withOffset (b.size - n))
        else b.code[n]? := by
  induction ps generalizing b with
  | nil => simp
  | cons p ps ih =>
    obtain ⟨hsize, hcode⟩ := ih (b.place p.label)
    refine ⟨by rw [List.foldl_cons, hsize, Builder.size_place], fun n => ?_⟩
    rw [List.foldl_cons, hcode n, Builder.place_getElem?, Builder.size_place]
    by_cases hp : p.label = n
    · by_cases hps : ∃ q ∈ ps, q.label = n
      · rw [if_pos hps, if_pos hp, if_pos ⟨p, List.mem_cons_self, hp⟩, Option.map_map]
        congr 1
        funext i
        exact withOffset_withOffset i _ _
      · rw [if_neg hps, if_pos hp, if_pos ⟨p, List.mem_cons_self, hp⟩]
    · by_cases hps : ∃ q ∈ ps, q.label = n
      · obtain ⟨q, hq, hqn⟩ := hps
        rw [if_pos ⟨q, hq, hqn⟩, if_neg hp, if_pos ⟨q, List.mem_cons_of_mem p hq, hqn⟩]
      · rw [if_neg hps, if_neg hp, if_neg]
        rintro ⟨q, hq, hqn⟩
        rcases List.mem_cons.mp hq with rfl | hq
        · exact hp hqn
        · exact hps ⟨q, hq, hqn⟩

namespace Draft

/-- How many instructions a draft has. -/
abbrev size (d : Draft) : Nat := d.builder.size

theorem mem_arrive {d : Draft} {copy pc : Nat} {p : Pending} :
    p ∈ (d.arrive copy pc).pending ↔ p ∈ d.pending ∧ p.goesTo copy pc = false := by
  show p ∈ d.pending.filter _ ↔ _
  rw [List.mem_filter, Bool.not_eq_true']

theorem size_arrive (d : Draft) (copy pc : Nat) : (d.arrive copy pc).size = d.size :=
  (foldl_place _ _).1

theorem arrive_getElem? (d : Draft) (copy pc n : Nat) :
    (d.arrive copy pc).builder.code[n]? =
      if ∃ p ∈ d.pending, p.goesTo copy pc = true ∧ p.label = n then
        (d.builder.code[n]?).map (Inst.withOffset (d.size - n))
      else d.builder.code[n]? := by
  have h := (foldl_place (d.pending.filter (·.goesTo copy pc)) d.builder).2 n
  simp only [List.mem_filter, and_assoc] at h
  exact h

@[simp] theorem size_emit (d : Draft) (i : Inst) : (d.emit i).size = d.size + 1 :=
  Builder.size_emit _ _

@[simp] theorem pending_emit (d : Draft) (i : Inst) : (d.emit i).pending = d.pending := rfl

@[simp] theorem size_emitJump (d : Draft) (i : Inst) (copy : Nat) (t : Option Nat) :
    (d.emitJump i copy t).size = d.size + 1 := Builder.size_emit _ _

@[simp] theorem pending_emitJump (d : Draft) (i : Inst) (copy : Nat) (t : Option Nat) :
    (d.emitJump i copy t).pending = d.pending ++ [⟨d.size, copy, t⟩] := rfl

theorem emit_getElem? (d : Draft) (i : Inst) (n : Nat) :
    (d.emit i).builder.code[n]? = if n = d.size then some i else d.builder.code[n]? := by
  show (d.builder.code.push i)[n]? = _
  rw [Array.getElem?_push]
  rfl

theorem emitJump_getElem? (d : Draft) (i : Inst) (copy : Nat) (t : Option Nat) (n : Nat) :
    (d.emitJump i copy t).builder.code[n]? =
      if n = d.size then some (i.withOffset 0) else d.builder.code[n]? :=
  emit_getElem? d (i.withOffset 0) n

/-! ### Valid drafts -/

/-- A draft on the way. -/
structure Valid (d : Draft) : Prop where
  label_lt : ∀ p ∈ d.pending, d.size > p.label
  nodup : (d.pending.map (·.label)).Nodup
  isJump : ∀ p ∈ d.pending, ∃ i, d.builder.code[p.label]? = some i ∧ i.offset?.isSome = true
  forward : ∀ (n : Nat) (i : Inst) (offset : Int), d.builder.code[n]? = some i →
    i.offset? = some offset → (∃ p ∈ d.pending, p.label = n) ∨ (0 < offset ∧ n + offset ≤ d.size)
  no_stop : ∀ n : Nat, d.builder.code[n]? ≠ some .stop

theorem valid_empty : Valid .empty where
  label_lt _ h := absurd h List.not_mem_nil
  nodup := List.nodup_nil
  isJump _ h := absurd h List.not_mem_nil
  forward n i _ h := absurd h (by simp [Draft.empty, Builder.empty])
  no_stop n := by simp [Draft.empty, Builder.empty]

theorem Valid.emit {d : Draft} (h : d.Valid) {i : Inst} (ho : i.offset? = none) (hs : i ≠ .stop) :
    (d.emit i).Valid where
  label_lt p hp := by
    have := h.label_lt p hp
    rw [size_emit]
    omega
  nodup := h.nodup
  isJump p hp := by
    have := h.label_lt p hp
    rw [emit_getElem?, if_neg (by omega)]
    exact h.isJump p hp
  forward n j offset hj hoff := by
    rw [emit_getElem?] at hj
    split at hj
    · rw [Option.some_inj] at hj
      rw [← hj, ho] at hoff
      exact absurd hoff (by simp)
    · refine (h.forward n j offset hj hoff).imp id fun hf => ⟨hf.1, ?_⟩
      rw [size_emit]
      omega
  no_stop n := by
    rw [emit_getElem?]
    split
    · rw [ne_eq, Option.some_inj]
      exact hs
    · exact h.no_stop n

theorem Valid.emitJump {d : Draft} (h : d.Valid) {i : Inst} (ho : i.offset?.isSome = true)
    (copy : Nat) (t : Option Nat) : (d.emitJump i copy t).Valid where
  label_lt p hp := by
    rw [pending_emitJump, List.mem_append, List.mem_singleton] at hp
    rw [size_emitJump]
    rcases hp with hp | rfl
    · have := h.label_lt p hp
      omega
    · exact Nat.lt_succ_self _
  nodup := by
    rw [pending_emitJump, List.map_append, List.nodup_append]
    -- all labels so far are places in the draft, and the new one is behind it
    refine ⟨h.nodup, by simp, fun a ha b hb => ?_⟩
    obtain ⟨p, hp, rfl⟩ := List.mem_map.mp ha
    obtain rfl : b = d.size := by simpa using hb
    exact Nat.ne_of_lt (h.label_lt p hp)
  isJump p hp := by
    rw [pending_emitJump, List.mem_append, List.mem_singleton] at hp
    rw [emitJump_getElem?]
    rcases hp with hp | rfl
    · have := h.label_lt p hp
      rw [if_neg (by omega)]
      exact h.isJump p hp
    · rw [if_pos rfl]
      exact ⟨_, rfl, by rw [offset?_withOffset ho]; rfl⟩
  forward n j offset hj hoff := by
    rw [emitJump_getElem?] at hj
    rw [pending_emitJump]
    split at hj
    · rename_i hn
      exact .inl ⟨_, List.mem_append_right _ (List.mem_singleton_self _), hn.symm⟩
    · rcases h.forward n j offset hj hoff with ⟨p, hp, hpn⟩ | hf
      · exact .inl ⟨p, List.mem_append_left _ hp, hpn⟩
      · refine .inr ⟨hf.1, ?_⟩
        rw [size_emitJump]
        omega
  no_stop n := by
    rw [emitJump_getElem?]
    split
    · rw [ne_eq, Option.some_inj]
      exact withOffset_ne_stop ho
    · exact h.no_stop n

theorem Valid.arrive {d : Draft} (h : d.Valid) (copy pc : Nat) : (d.arrive copy pc).Valid where
  label_lt p hp := by
    rw [size_arrive]
    exact h.label_lt p (mem_arrive.mp hp).1
  nodup := h.nodup.sublist (List.filter_sublist.map _)
  isJump p hp := by
    obtain ⟨i, hi, ho⟩ := h.isJump p (mem_arrive.mp hp).1
    rw [arrive_getElem?, hi]
    split
    · exact ⟨_, rfl, by rw [offset?_withOffset ho]; rfl⟩
    · exact ⟨i, rfl, ho⟩
  forward n j offset hj hoff := by
    rw [arrive_getElem?] at hj
    split at hj
    -- a jump that arrives goes from its label to the end of the draft
    · rename_i hn
      obtain ⟨p, hp, -, rfl⟩ := hn
      obtain ⟨i, hi, ho⟩ := h.isJump p hp
      rw [hi, Option.map_some, Option.some_inj] at hj
      rw [← hj, offset?_withOffset ho, Option.some_inj] at hoff
      have := h.label_lt p hp
      rw [size_arrive]
      exact .inr ⟨by omega, by omega⟩
    · rename_i hn
      rcases h.forward n j offset hj hoff with ⟨p, hp, hpn⟩ | hf
      · refine .inl ⟨p, mem_arrive.mpr ⟨hp, ?_⟩, hpn⟩
        rw [← Bool.not_eq_true]
        exact fun hg => hn ⟨p, hp, hg, hpn⟩
      · rw [size_arrive]
        exact .inr hf
  no_stop n := by
    rw [arrive_getElem?]
    split
    · rename_i hn
      obtain ⟨p, hp, -, rfl⟩ := hn
      obtain ⟨i, hi, ho⟩ := h.isJump p hp
      rw [hi, Option.map_some, ne_eq, Option.some_inj]
      exact withOffset_ne_stop ho
    · exact h.no_stop n

/-! ### Reading a site -/

/-- The open jumps of a draft go to places of a site from `pc` on, and in other copies to places
that are allowed. -/
def Leads (d : Draft) (s : Site) (others : Place → Prop) (pc : Nat) : Prop :=
  ∀ p ∈ d.pending, ∃ t, p.target = some t ∧
    (p.copy = s.copy → pc ≤ t ∧ t < s.code.size) ∧ (p.copy ≠ s.copy → others ⟨p.copy, t⟩)

/-- A draft while a site is read at `pc`. -/
structure Reading (d : Draft) (s : Site) (others : Place → Prop) (pc : Nat) : Prop where
  valid : d.Valid
  leads : d.Leads s others pc

variable {d : Draft} {s : Site} {others : Place → Prop} {pc : Nat}

theorem goesTo_iff {p : Pending} {copy t : Nat} :
    p.goesTo copy t = true ↔ p.copy = copy ∧ p.target = some t := by
  unfold Pending.goesTo
  rw [Bool.and_eq_true, beq_iff_eq, beq_iff_eq]

/-- If no open jump goes to a place, they all go to places behind it. -/
theorem Leads.step (h : d.Leads s others pc) (hn : ∀ p ∈ d.pending, p.goesTo s.copy pc = false) :
    d.Leads s others (pc + 1) := by
  intro p hp
  obtain ⟨t, ht, hown, hother⟩ := h p hp
  refine ⟨t, ht, fun hc => ?_, hother⟩
  have hne : t ≠ pc := by
    rintro rfl
    have := hn p hp
    rw [goesTo_iff.mpr ⟨hc, ht⟩] at this
    exact absurd this (by simp)
  have := hown hc
  omega

theorem isTarget_eq_false {copy t : Nat} :
    d.isTarget copy t = false ↔ ∀ p ∈ d.pending, p.goesTo copy t = false := by
  unfold isTarget
  simp only [List.any_eq_false, Bool.not_eq_true]

namespace Reading

theorem emit (h : d.Reading s others pc) {i : Inst} (ho : i.offset? = none) (hs : i ≠ .stop) :
    (d.emit i).Reading s others pc :=
  ⟨h.valid.emit ho hs, h.leads⟩

theorem emitJump (h : d.Reading s others pc) {i : Inst} (ho : i.offset?.isSome = true)
    {copy t : Nat} (hown : copy = s.copy → pc ≤ t ∧ t < s.code.size)
    (hother : copy ≠ s.copy → others ⟨copy, t⟩) :
    (d.emitJump i copy (some t)).Reading s others pc := by
  refine ⟨h.valid.emitJump ho copy (some t), fun p hp => ?_⟩
  rw [pending_emitJump, List.mem_append, List.mem_singleton] at hp
  rcases hp with hp | rfl
  · exact h.leads p hp
  · exact ⟨t, rfl, hown, hother⟩

/-- Arriving at a place leaves only jumps to places behind it. -/
theorem arrive (h : d.Reading s others pc) : (d.arrive s.copy pc).Reading s others (pc + 1) := by
  refine ⟨h.valid.arrive s.copy pc, Leads.step (fun p hp => ?_) fun p hp => (mem_arrive.mp hp).2⟩
  exact h.leads p (mem_arrive.mp hp).1

theorem not_target (h : d.Reading s others pc) (ht : d.isTarget s.copy pc = false) :
    d.Reading s others (pc + 1) :=
  ⟨h.valid, h.leads.step (isTarget_eq_false.mp ht)⟩

/-- Nothing that is skipped is the target of an open jump. -/
theorem nextReachable {start next : Nat} {stop : Option Nat} (h : d.Reading s others start)
    (hn : d.nextReachable? s start stop = some next) :
    start ≤ next ∧ d.Reading s others next := by
  obtain ⟨hle, -, -, hskip⟩ := firstFrom?_eq_some.mp hn
  refine ⟨hle, h.valid, fun p hp => ?_⟩
  obtain ⟨t, htp, hown, hother⟩ := h.leads p hp
  refine ⟨t, htp, fun hc => ⟨Nat.le_of_not_lt fun hlt => ?_, (hown hc).2⟩, hother⟩
  have hno := hskip t (hown hc).1 hlt
  simp only [Bool.or_eq_false_iff] at hno
  have := isTarget_eq_false.mp hno.2 p hp
  rw [goesTo_iff.mpr ⟨hc, htp⟩] at this
  exact absurd this (by simp)

end Reading

end Draft

/-! ### Looking back from the final code -/

variable {V H W : Type}

/-- The final code has what a draft has, and running from where an open jump goes does what running
from its target does, according to `runs`. -/
structure Settles (m : Meaning V H W) (out : Code)
    (runs : Nat → Nat → Frame V H → W → Ending V W → Prop) (d : Draft) : Prop where
  fixed : ∀ n, n < d.size → (∀ p ∈ d.pending, p.label ≠ n) → out[n]? = d.builder.code[n]?
  landed : ∀ p ∈ d.pending, ∃ i t q, d.builder.code[p.label]? = some i ∧ p.target = some t ∧
    p.label < q ∧ out[p.label]? = some (i.withOffset (q - p.label)) ∧
    ∀ f w o, m.Runs Meaning.done out q f w o → runs p.copy t f w o

namespace Settles

variable {m : Meaning V H W} {out : Code} {runs : Nat → Nat → Frame V H → W → Ending V W → Prop}
  {d : Draft}

theorem of_emit (hd : d.Valid) {i : Inst} (h : Settles m out runs (d.emit i)) :
    Settles m out runs d ∧ out[d.size]? = some i := by
  refine ⟨⟨fun n hn hp => ?_, fun p hp => ?_⟩, ?_⟩
  · rw [h.fixed n (by rw [Draft.size_emit]; omega) hp, Draft.emit_getElem?, if_neg (by omega)]
  · have hlt := hd.label_lt p hp
    obtain ⟨j, t, q, hj, hrest⟩ := h.landed p hp
    rw [Draft.emit_getElem?, if_neg (by omega)] at hj
    exact ⟨j, t, q, hj, hrest⟩
  · rw [h.fixed d.size (by rw [Draft.size_emit]; omega), Draft.emit_getElem?, if_pos rfl]
    intro p hp
    exact Nat.ne_of_lt (hd.label_lt p hp)

theorem of_emitJump (hd : d.Valid) {i : Inst} {copy : Nat} {t : Option Nat}
    (h : Settles m out runs (d.emitJump i copy t)) :
    Settles m out runs d ∧ ∃ u q, t = some u ∧ d.size < q ∧
      out[d.size]? = some (i.withOffset (q - d.size)) ∧
      ∀ f w o, m.Runs Meaning.done out q f w o → runs copy u f w o := by
  refine ⟨⟨fun n hn hp => ?_, fun p hp => ?_⟩, ?_⟩
  · rw [h.fixed n (by rw [Draft.size_emitJump]; omega), Draft.emitJump_getElem?, if_neg (by omega)]
    intro p hpm
    rw [Draft.pending_emitJump, List.mem_append, List.mem_singleton] at hpm
    rcases hpm with hpm | rfl
    · exact hp p hpm
    · exact (Nat.ne_of_lt hn).symm
  · have hlt := hd.label_lt p hp
    obtain ⟨j, u, q, hj, hrest⟩ := h.landed p (List.mem_append_left _ hp)
    rw [Draft.emitJump_getElem?, if_neg (by omega)] at hj
    exact ⟨j, u, q, hj, hrest⟩
  · obtain ⟨j, u, q, hj, hu, hq, hout, hrun⟩ :=
      h.landed ⟨d.size, copy, t⟩ (List.mem_append_right _ (List.mem_singleton_self _))
    rw [Draft.emitJump_getElem?, if_pos rfl, Option.some_inj] at hj
    subst hj
    rw [withOffset_withOffset] at hout
    exact ⟨u, q, hu, hq, hout, hrun⟩

/-- Arriving settles the jumps that go to a place, if running from here does what running from that
place does. -/
theorem of_arrive (hd : d.Valid) {copy pc : Nat} (h : Settles m out runs (d.arrive copy pc))
    (hrun : ∀ f w o, m.Runs Meaning.done out d.size f w o → runs copy pc f w o) :
    Settles m out runs d := by
  -- an open jump that arrives shares its label with no other one
  have hlabel : ∀ p ∈ d.pending, p.goesTo copy pc = true →
      ∀ q ∈ (d.arrive copy pc).pending, q.label ≠ p.label := by
    intro p hp hg q hq hqp
    obtain ⟨hqd, hqg⟩ := Draft.mem_arrive.mp hq
    have : q = p := List.inj_on_of_nodup_map hd.nodup hqd hp hqp
    rw [this, hg] at hqg
    exact absurd hqg (by simp)
  refine ⟨fun n hn hp => ?_, fun p hp => ?_⟩
  · rw [h.fixed n (by rw [Draft.size_arrive]; exact hn) fun p hpm =>
      hp p (Draft.mem_arrive.mp hpm).1, Draft.arrive_getElem?, if_neg]
    rintro ⟨p, hpm, -, hpn⟩
    exact hp p hpm hpn
  · obtain ⟨i, hi, ho⟩ := hd.isJump p hp
    have hlt := hd.label_lt p hp
    by_cases hg : p.goesTo copy pc = true
    · have hg' := Draft.goesTo_iff.mp hg
      refine ⟨i, pc, d.size, hi, hg'.2, hlt, ?_, ?_⟩
      · rw [h.fixed p.label (by rw [Draft.size_arrive]; exact hlt) (hlabel p hp hg),
          Draft.arrive_getElem?, if_pos ⟨p, hp, hg, rfl⟩, hi, Option.map_some]
      · rw [hg'.1]
        exact hrun
    · rw [Bool.not_eq_true] at hg
      obtain ⟨j, t, q, hj, ht, hq, hout, hland⟩ := h.landed p (Draft.mem_arrive.mpr ⟨hp, hg⟩)
      refine ⟨i, t, q, hi, ht, hq, ?_, hland⟩
      rw [Draft.arrive_getElem?, hi] at hj
      split at hj
      · rw [Option.map_some, Option.some_inj] at hj
        rw [hout, ← hj, withOffset_withOffset]
      · rw [Option.some_inj] at hj
        rw [hout, hj]

/-- Only what `runs` says of the copies with open jumps matters. -/
theorem of_runs {runs' : Nat → Nat → Frame V H → W → Ending V W → Prop} (h : Settles m out runs' d)
    (hr : ∀ p ∈ d.pending, ∀ t f w o, runs' p.copy t f w o → runs p.copy t f w o) :
    Settles m out runs d := by
  refine ⟨h.fixed, fun p hp => ?_⟩
  obtain ⟨i, t, q, hi, ht, hq, hout, hland⟩ := h.landed p hp
  exact ⟨i, t, q, hi, ht, hq, hout, fun f w o hw => hr p hp t f w o (hland f w o hw)⟩

end Settles

end ForkLisp.Optimize
