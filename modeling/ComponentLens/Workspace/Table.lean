/-
# Tables

A table holds one value for each of its keys. It is read through `get?`; the three laws `get?_empty`,
`get?_insert` and `get?_erase` say all there is to say about it, and `length_keys` ties the size to the
keys, which are distinct (`nodup_keys`).
-/

namespace ComponentLens

/-- A finite map. -/
structure Table (κ ν : Type) where
  entries : List (κ × ν) := []
  /-- No key has two values. -/
  nodup : (entries.map (·.1)).Nodup := by simp
  deriving Repr

namespace Table

variable {κ ν : Type}

/-! ## 1. Operations -/

/-- The table without keys. -/
def empty : Table κ ν := {}

instance : EmptyCollection (Table κ ν) := ⟨empty⟩

/-- The keys, in no order that means anything. -/
def keys (t : Table κ ν) : List κ := t.entries.map (·.1)

/-- The values, in the order of the keys. -/
def values (t : Table κ ν) : List ν := t.entries.map (·.2)

/-- The number of keys. -/
def size (t : Table κ ν) : Nat := t.entries.length

variable [DecidableEq κ]

/-- The first value of a key in a list of pairs. -/
def find? (key : κ) : List (κ × ν) → Option ν
  | [] => none
  | (k, v) :: rest => if k = key then some v else find? key rest

/-- The value of a key. -/
def get? (t : Table κ ν) (key : κ) : Option ν := find? key t.entries

/-- Whether a key has a value. -/
def contains (t : Table κ ν) (key : κ) : Bool := (t.get? key).isSome

/-- The table without a key. -/
def erase (t : Table κ ν) (key : κ) : Table κ ν where
  entries := t.entries.filter (·.1 ≠ key)
  nodup := t.nodup.sublist (List.filter_sublist.map _)

/-- The table in which a key has the given value, whatever it had before. -/
def insert (t : Table κ ν) (key : κ) (value : ν) : Table κ ν where
  entries := (key, value) :: (t.erase key).entries
  nodup := by
    simp only [List.map_cons, List.nodup_cons]
    exact ⟨by simp [erase], (t.erase key).nodup⟩

/-! ## 2. Laws -/

@[simp] theorem get?_empty (key : κ) : (∅ : Table κ ν).get? key = none := rfl

theorem find?_filter_ne (entries : List (κ × ν)) (key other : κ) :
    find? other (entries.filter (·.1 ≠ key)) = if other = key then none else find? other entries := by
  induction entries with
  | nil => simp [find?]
  | cons entry rest ih =>
    obtain ⟨k, v⟩ := entry
    rw [List.filter_cons]
    split
    · simp only [find?, ih]
      grind
    · simp only [find?, ih]
      grind

/-- Erasing a key takes its value and no other. -/
theorem get?_erase (t : Table κ ν) (key other : κ) :
    (t.erase key).get? other = if other = key then none else t.get? other :=
  find?_filter_ne t.entries key other

/-- Inserting a key sets its value and no other. -/
theorem get?_insert (t : Table κ ν) (key other : κ) (value : ν) :
    (t.insert key value).get? other = if other = key then some value else t.get? other := by
  by_cases h : key = other
  · simp [get?, insert, find?, h]
  · have h' : ¬other = key := fun e => h e.symm
    have := t.get?_erase key other
    simp_all [get?, insert, find?]

@[simp] theorem get?_insert_self (t : Table κ ν) (key : κ) (value : ν) :
    (t.insert key value).get? key = some value := by simp [get?_insert]

@[simp] theorem get?_erase_self (t : Table κ ν) (key : κ) : (t.erase key).get? key = none := by
  simp [get?_erase]

omit [DecidableEq κ] in
theorem nodup_keys (t : Table κ ν) : t.keys.Nodup := t.nodup

omit [DecidableEq κ] in
@[simp] theorem length_keys (t : Table κ ν) : t.keys.length = t.size := by simp [keys, size]

/-- A pair is in the table exactly when its key has its value. -/
theorem get?_eq_some_iff (t : Table κ ν) (key : κ) (value : ν) :
    t.get? key = some value ↔ (key, value) ∈ t.entries := by
  obtain ⟨entries, nodup⟩ := t
  simp only [get?]
  induction entries with
  | nil => simp [find?]
  | cons entry rest ih =>
    obtain ⟨k, v⟩ := entry
    simp only [List.map_cons, List.nodup_cons, List.mem_map] at nodup
    have ih := ih nodup.2
    have fresh := nodup.1
    simp only [find?, List.mem_cons, Prod.mk.injEq]
    split
    · next h =>
      subst h
      constructor
      · intro e; exact Or.inl ⟨rfl, (Option.some.inj e).symm⟩
      · rintro (⟨_, rfl⟩ | h)
        · rfl
        · exact absurd ⟨_, h, rfl⟩ fresh
    · next h => rw [ih]; grind

end Table

end ComponentLens
