/-
Lists whose members go together, one by one.

Where two lists are related member by member, a member of the one has a partner at the same place of
the other (`getElem?_of_forall₂`), and a part of the one has a part of the other for its partner
(`exists_of_forall₂_append`). What is said of the members of one list is carried over to the other.
-/
import Mathlib.Data.List.Forall2

namespace ForkLisp

variable {α β : Type} {R : α → β → Prop} {as : List α} {bs : List β}

/-! ### Members -/

/-- What stands on the left is related to what stands at the same place on the right. -/
theorem getElem?_of_forall₂ (h : List.Forall₂ R as bs) {k : Nat} {a : α} (ha : as[k]? = some a) :
    ∃ b, bs[k]? = some b ∧ R a b := by
  induction h generalizing k with
  | nil => cases ha
  | cons hab _ ih =>
    cases k with
    | zero =>
      obtain rfl := Option.some.inj ha
      exact ⟨_, rfl, hab⟩
    | succ k => exact ih ha

theorem exists_of_mem_left (h : List.Forall₂ R as bs) {a : α} (ha : a ∈ as) : ∃ b ∈ bs, R a b := by
  obtain ⟨k, hk⟩ := List.mem_iff_getElem?.mp ha
  obtain ⟨b, hb, hab⟩ := getElem?_of_forall₂ h hk
  exact ⟨b, List.mem_of_getElem? hb, hab⟩

theorem exists_of_mem_right (h : List.Forall₂ R as bs) {b : β} (hb : b ∈ bs) : ∃ a ∈ as, R a b :=
  exists_of_mem_left h.flip hb

/-! ### Parts -/

/-- What is related to two lists is in two parts, too. -/
theorem exists_of_forall₂_append {cs : List β} (h : List.Forall₂ R as (bs ++ cs)) :
    ∃ as₁ as₂, as = as₁ ++ as₂ ∧ List.Forall₂ R as₁ bs ∧ List.Forall₂ R as₂ cs :=
  ⟨_, _, (List.take_append_drop bs.length as).symm, List.forall₂_take_append as bs cs h,
    List.forall₂_drop_append as bs cs h⟩

/-- What is related to a list around one of its members is around a partner of that. -/
theorem exists_of_append_forall₂ {left right : List α} {a : α}
    (h : List.Forall₂ R (left ++ a :: right) bs) :
    ∃ left' b right', bs = left' ++ b :: right' ∧ List.Forall₂ R left left' ∧ R a b ∧
      List.Forall₂ R right right' := by
  obtain ⟨left', rest, rfl, hleft, hrest⟩ := exists_of_forall₂_append h.flip
  obtain ⟨b, right', hab, hright, rfl⟩ := List.forall₂_cons_right_iff.mp hrest
  exact ⟨left', b, right', rfl, hleft.flip, hab, hright.flip⟩

/-! ### What is carried over -/

/-- What is related to ordered things is ordered. -/
theorem pairwise_of_forall₂ {P : α → α → Prop} {Q : β → β → Prop} (h : List.Forall₂ R as bs)
    (hp : as.Pairwise P) (hq : ∀ a a' b b', R a b → R a' b' → P a a' → Q b b') : bs.Pairwise Q := by
  induction h with
  | nil => exact .nil
  | @cons a b as bs hab hrest ih =>
    obtain ⟨hfirst, hp⟩ := List.pairwise_cons.mp hp
    refine List.pairwise_cons.mpr ⟨fun b' hb' => ?_, ih hp⟩
    obtain ⟨a', ha', hab'⟩ := exists_of_mem_right hrest hb'
    exact hq a a' b b' hab hab' (hfirst a' ha')

/-- Lists whose members come to the same come to the same. -/
theorem map_eq_of_forall₂ {γ : Type} {R : α → α → Prop} {g : α → γ} {l l' : List α}
    (h : List.Forall₂ R l l') (hg : ∀ a a', R a a' → g a' = g a) : l'.map g = l.map g := by
  induction h with
  | nil => rfl
  | cons ha _ ih => rw [List.map_cons, List.map_cons, hg _ _ ha, ih]

/-! ### Results one by one -/

/-- Whatever gives results for a list gives one for each of its members. -/
theorem mapM_eq_ok {ε : Type} {f : α → Except ε β} :
    as.mapM f = .ok bs ↔ List.Forall₂ (fun a b => f a = .ok b) as bs := by
  induction as generalizing bs with
  | nil =>
    rw [List.mapM_nil, List.forall₂_nil_left_iff]
    exact ⟨fun h => (Except.ok.inj h).symm, fun h => h ▸ rfl⟩
  | cons a as ih =>
    rw [List.mapM_cons, List.forall₂_cons_left_iff]
    constructor
    · intro h
      cases ha : f a with
      | error e =>
        rw [ha] at h
        cases h
      | ok b =>
        cases has : as.mapM f with
        | error e =>
          rw [ha, has] at h
          cases h
        | ok bs' =>
          rw [ha, has] at h
          exact ⟨b, bs', rfl, ih.mp has, (Except.ok.inj h).symm⟩
    · rintro ⟨b, bs', hb, hbs, rfl⟩
      rw [hb, ih.mpr hbs]
      rfl

/-- Results are refused for the first member that is refused. -/
theorem mapM_eq_error {ε : Type} {f : α → Except ε β} {e : ε} (h : as.mapM f = .error e) :
    ∃ front a back, as = front ++ a :: back ∧ (∀ a' ∈ front, ∃ b, f a' = .ok b) ∧
      f a = .error e := by
  induction as with
  | nil => cases h
  | cons a as ih =>
    rw [List.mapM_cons] at h
    cases ha : f a with
    | error e' =>
      rw [ha] at h
      obtain rfl := Except.error.inj h
      exact ⟨[], a, as, rfl, fun _ hm => absurd hm List.not_mem_nil, ha⟩
    | ok b =>
      cases has : as.mapM f with
      | ok bs =>
        rw [ha, has] at h
        cases h
      | error e' =>
        rw [ha, has] at h
        obtain rfl := Except.error.inj h
        obtain ⟨front, a', back, rfl, hfront, ha'⟩ := ih has
        refine ⟨a :: front, a', back, rfl, fun x hx => ?_, ha'⟩
        rcases List.mem_cons.mp hx with rfl | hx
        · exact ⟨b, ha⟩
        · exact hfront x hx

end ForkLisp
