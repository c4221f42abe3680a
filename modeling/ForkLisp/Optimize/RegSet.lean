/-
Sets of registers.

A set is a row of machine words with one bit for each register, and it grows by as many words as the
highest register that is put in needs. Only which bits are set counts, not how long the row is: the
members of what each operation makes are given by `mem_insert`, `mem_erase` and `mem_union`.
-/
import ForkLisp.Code.Inst

namespace ForkLisp.Optimize

open ForkLisp.Code

/-- A finite set of registers. -/
structure RegSet where
  words : Array UInt64
  deriving DecidableEq

namespace RegSet

/-- The set without registers. -/
def empty : RegSet := ⟨#[]⟩

/-- The word that holds the bit of a register. -/
def wordOf (r : Reg) : Nat := r / 64

/-- The bit of a register in its word. -/
def bitOf (r : Reg) : UInt64 := 1 <<< (r % 64).toUInt64

/-- Whether a register is in a set. -/
def contains (s : RegSet) (r : Reg) : Bool :=
  match s.words[wordOf r]? with
  | some w => w &&& bitOf r != 0
  | none => false

instance : Membership Reg RegSet := ⟨fun s r => s.contains r = true⟩

/-- The same set in a row of at least so many words. -/
def grow (s : RegSet) (size : Nat) : RegSet :=
  ⟨s.words ++ Array.replicate (size - s.words.size) 0⟩

/-- Adds a register. -/
def insert (s : RegSet) (r : Reg) : RegSet :=
  ⟨(s.grow (wordOf r + 1)).words.modify (wordOf r) (· ||| bitOf r)⟩

/-- Takes a register out. -/
def erase (s : RegSet) (r : Reg) : RegSet :=
  ⟨s.words.modify (wordOf r) (· &&& ~~~bitOf r)⟩

/-- The registers of two sets. -/
def union (s t : RegSet) : RegSet :=
  ⟨(s.grow t.words.size).words.mapIdx fun n w => w ||| t.words.getD n 0⟩

/-- Adds registers. -/
def insertAll (s : RegSet) (rs : List Reg) : RegSet := rs.foldl insert s

/-- Takes registers out. -/
def eraseAll (s : RegSet) (rs : List Reg) : RegSet := rs.foldl erase s

/-! ### Words and bits -/

/-- The word of a set at a place, which has no bits behind the row. -/
def word (s : RegSet) (n : Nat) : UInt64 := s.words[n]?.getD 0

/-- A register is found by its word and its place in there. -/
theorem eq_iff_wordOf {r x : Reg} : r = x ↔ wordOf r = wordOf x ∧ r % 64 = x % 64 := by
  unfold wordOf Reg at *
  omega

theorem getLsbD_bitOf (r : Reg) {k : Nat} (hk : k < 64) :
    (bitOf r).toBitVec.getLsbD k = decide (k = r % 64) := by
  have hr : r % 64 < 64 := Nat.mod_lt r (by decide)
  unfold bitOf
  rw [UInt64.toBitVec_shiftLeft]
  simp
  grind

/-- A word and the bit of a register have that bit in common or none. -/
theorem and_bitOf_ne_zero (w : UInt64) (r : Reg) :
    (w &&& bitOf r != 0) = w.toBitVec.getLsbD (r % 64) := by
  have hr : r % 64 < 64 := Nat.mod_lt r (by decide)
  rw [Bool.eq_iff_iff, bne_iff_ne, ne_eq, ← UInt64.toBitVec_inj, UInt64.toBitVec_and]
  constructor
  · intro hne
    refine Decidable.by_contra fun hbit => hne (BitVec.eq_of_getLsbD_eq fun k hk => ?_)
    rw [BitVec.getLsbD_and, getLsbD_bitOf r hk]
    by_cases h : k = r % 64 <;> simp_all
  · intro hbit hzero
    have hand := congrArg (·.getLsbD (r % 64)) hzero
    simp [getLsbD_bitOf r hr, hbit] at hand

theorem mem_iff {s : RegSet} {r : Reg} :
    r ∈ s ↔ (s.word (wordOf r)).toBitVec.getLsbD (r % 64) = true := by
  show s.contains r = true ↔ _
  unfold contains word
  cases s.words[wordOf r]? with
  | none => simp
  | some w => exact Bool.eq_iff_iff.mp (and_bitOf_ne_zero w r)

theorem word_grow (s : RegSet) (size n : Nat) : (s.grow size).word n = s.word n := by
  unfold grow word
  rw [Array.getElem?_append, Array.getElem?_replicate]
  grind

theorem size_grow (s : RegSet) (size : Nat) : size ≤ (s.grow size).words.size := by
  unfold grow
  rw [Array.size_append, Array.size_replicate]
  omega

theorem word_insert (s : RegSet) (r : Reg) (n : Nat) :
    (s.insert r).word n = if wordOf r = n then s.word n ||| bitOf r else s.word n := by
  rw [← word_grow s (wordOf r + 1) n]
  have hsize := size_grow s (wordOf r + 1)
  unfold insert word
  dsimp only
  rw [Array.getElem?_modify]
  split
  · rw [Array.getElem?_eq_getElem (by omega), Option.map_some, Option.getD_some, Option.getD_some]
  · rfl

theorem word_erase (s : RegSet) (r : Reg) (n : Nat) :
    (s.erase r).word n = if wordOf r = n then s.word n &&& ~~~bitOf r else s.word n := by
  unfold erase word
  dsimp only
  rw [Array.getElem?_modify]
  split
  · cases s.words[n]? with
    | none => simp
    | some w => rfl
  · rfl

theorem word_union (s t : RegSet) (n : Nat) : (s.union t).word n = s.word n ||| t.word n := by
  rw [← word_grow s t.words.size n]
  have hsize := size_grow s t.words.size
  unfold union word
  dsimp only
  rw [Array.getElem?_mapIdx, Array.getD_eq_getD_getElem?]
  cases hw : (s.grow t.words.size).words[n]? with
  | none =>
    have hle := Array.getElem?_eq_none_iff.mp hw
    rw [Array.getElem?_eq_none (by omega)]
    simp
  | some w => rfl

/-! ### Members -/

theorem contains_iff {s : RegSet} {r : Reg} : s.contains r = true ↔ r ∈ s := .rfl

theorem not_mem_empty {r : Reg} : r ∉ empty := by
  rw [mem_iff]
  simp [empty, word]

theorem mem_insert {s : RegSet} {r x : Reg} : x ∈ s.insert r ↔ x = r ∨ x ∈ s := by
  have hx : x % 64 < 64 := Nat.mod_lt x (by decide)
  rw [mem_iff, mem_iff, word_insert, eq_iff_wordOf (r := x) (x := r)]
  split
  · rw [UInt64.toBitVec_or, BitVec.getLsbD_or, getLsbD_bitOf r hx]
    grind
  · grind

theorem mem_erase {s : RegSet} {r x : Reg} : x ∈ s.erase r ↔ x ∈ s ∧ x ≠ r := by
  have hx : x % 64 < 64 := Nat.mod_lt x (by decide)
  rw [mem_iff, mem_iff, word_erase, ne_eq, eq_iff_wordOf (r := x) (x := r)]
  split
  · rw [UInt64.toBitVec_and, UInt64.toBitVec_not, BitVec.getLsbD_and, BitVec.getLsbD_not,
      getLsbD_bitOf r hx]
    grind
  · grind

theorem mem_union {s t : RegSet} {x : Reg} : x ∈ s.union t ↔ x ∈ s ∨ x ∈ t := by
  rw [mem_iff, mem_iff, mem_iff, word_union, UInt64.toBitVec_or, BitVec.getLsbD_or,
    Bool.or_eq_true]

theorem mem_insertAll {s : RegSet} {rs : List Reg} {x : Reg} :
    x ∈ s.insertAll rs ↔ x ∈ rs ∨ x ∈ s := by
  induction rs generalizing s with
  | nil => simp [insertAll]
  | cons r rs ih =>
    have := ih (s := s.insert r)
    have := mem_insert (s := s) (r := r) (x := x)
    simp_all [insertAll]
    grind

theorem mem_eraseAll {s : RegSet} {rs : List Reg} {x : Reg} :
    x ∈ s.eraseAll rs ↔ x ∈ s ∧ x ∉ rs := by
  induction rs generalizing s with
  | nil => simp [eraseAll]
  | cons r rs ih =>
    have := ih (s := s.erase r)
    have := mem_erase (s := s) (r := r) (x := x)
    simp_all [eraseAll]
    grind

end RegSet

end ForkLisp.Optimize
