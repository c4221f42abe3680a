/-
Bindings of names.

A finite map from names that lists its entries in increasing order of the names. What an insertion
changes, an insertion of the old value or an erasure changes back (`insert_insert`,
`erase_insert`).
-/

namespace ForkLisp.Compile

/-- What some names are bound to, in increasing order of the names. -/
structure Bindings (α : Type) where
  entries : List (String × α)
  deriving DecidableEq

namespace Bindings

variable {α : Type}

/-- Nothing is bound. -/
def empty : Bindings α := ⟨[]⟩

/-- What a name is bound to. -/
def find? (b : Bindings α) (name : String) : Option α :=
  b.entries.lookup name

/-- Binds a name in entries that are in order. -/
def insertEntry (name : String) (a : α) : List (String × α) → List (String × α)
  | [] => [(name, a)]
  | e :: es =>
    if name = e.1 then (name, a) :: es
    else if name < e.1 then (name, a) :: e :: es
    else e :: insertEntry name a es

/-- Binds a name, whether it was bound before or not. -/
def insert (b : Bindings α) (name : String) (a : α) : Bindings α :=
  ⟨insertEntry name a b.entries⟩

/-- Drops the first entry of a name. -/
def eraseEntry (name : String) : List (String × α) → List (String × α)
  | [] => []
  | e :: es => if name = e.1 then es else e :: eraseEntry name es

/-- Unbinds a name. -/
def erase (b : Bindings α) (name : String) : Bindings α :=
  ⟨eraseEntry name b.entries⟩

/-- The names in increasing order. -/
def names (b : Bindings α) : List String :=
  b.entries.map (·.1)

@[simp] theorem find?_empty (name : String) : (empty : Bindings α).find? name = none := rfl

theorem lookup_insertEntry (name other : String) (a : α) (es : List (String × α)) :
    (insertEntry name a es).lookup other = if other = name then some a else es.lookup other := by
  induction es with
  | nil => grind [insertEntry]
  | cons e es ih =>
    unfold insertEntry
    split
    · grind
    · split <;> grind

theorem find?_insert (b : Bindings α) (name other : String) (a : α) :
    (b.insert name a).find? other = if other = name then some a else b.find? other :=
  lookup_insertEntry name other a b.entries

theorem eraseEntry_insertEntry {name : String} {es : List (String × α)} (a : α)
    (h : es.lookup name = none) : eraseEntry name (insertEntry name a es) = es := by
  induction es with
  | nil => simp [insertEntry, eraseEntry]
  | cons e es ih =>
    obtain ⟨k, v⟩ := e
    by_cases hk : name = k
    · subst hk
      simp at h
    · simp only [List.lookup_cons, beq_eq_false_iff_ne.2 hk] at h
      by_cases hlt : name < k <;> simp [insertEntry, eraseEntry, hk, hlt, ih h]

theorem erase_insert {b : Bindings α} {name : String} (a : α) (h : b.find? name = none) :
    (b.insert name a).erase name = b := by
  simp [erase, insert, eraseEntry_insertEntry a h]

theorem insertEntry_insertEntry (name : String) (a c : α) (es : List (String × α)) :
    insertEntry name c (insertEntry name a es) = insertEntry name c es := by
  induction es with
  | nil => simp [insertEntry]
  | cons e es ih =>
    obtain ⟨k, v⟩ := e
    by_cases hk : name = k
    · simp [insertEntry, hk]
    · by_cases hlt : name < k <;> simp [insertEntry, hk, hlt, ih]

theorem insert_insert (b : Bindings α) (name : String) (a c : α) :
    (b.insert name a).insert name c = b.insert name c := by
  simp [insert, insertEntry_insertEntry]

end Bindings

end ForkLisp.Compile
