/-!
# Tables

A finite map that keeps its keys in the order in which they were first inserted. Inserting at a key
that is present replaces its value and leaves its place.
-/

namespace P16

structure Table (κ α : Type) where
  entries : List (κ × α)

namespace Table

variable {κ α : Type}

def empty : Table κ α := ⟨[]⟩

instance : Inhabited (Table κ α) := ⟨empty⟩

instance [DecidableEq κ] [DecidableEq α] : DecidableEq (Table κ α) := fun s t =>
  decidable_of_iff (s.entries = t.entries) ⟨fun h => by cases s; cases t; exact congrArg _ h,
    fun h => congrArg _ h⟩

variable [DecidableEq κ]

def findIn? (key : κ) : List (κ × α) → Option α
  | [] => none
  | (k, a) :: rest => if k = key then some a else findIn? key rest

def insertIn (key : κ) (value : α) : List (κ × α) → List (κ × α)
  | [] => [(key, value)]
  | (k, a) :: rest => if k = key then (k, value) :: rest else (k, a) :: insertIn key value rest

def find? (t : Table κ α) (key : κ) : Option α := findIn? key t.entries

def contains (t : Table κ α) (key : κ) : Bool := (t.find? key).isSome

def insert (t : Table κ α) (key : κ) (value : α) : Table κ α := ⟨insertIn key value t.entries⟩

def ofList (entries : List (κ × α)) : Table κ α :=
  entries.foldl (fun t entry => t.insert entry.1 entry.2) empty

@[simp] theorem find?_empty (key : κ) : (empty : Table κ α).find? key = none := rfl

theorem findIn?_insertIn (key other : κ) (value : α) (entries : List (κ × α)) :
    findIn? other (insertIn key value entries) =
      if key = other then some value else findIn? other entries := by
  induction entries with
  | nil => simp [insertIn, findIn?]
  | cons entry rest ih =>
    obtain ⟨k, a⟩ := entry
    by_cases hk : k = key
    · subst hk
      by_cases ho : k = other <;> simp [insertIn, findIn?, ho]
    · by_cases ho : k = other
      · subst ho
        simp [insertIn, findIn?, hk, Ne.symm hk]
      · simp [insertIn, findIn?, hk, ho, ih]

theorem find?_insert (t : Table κ α) (key other : κ) (value : α) :
    (t.insert key value).find? other = if key = other then some value else t.find? other :=
  findIn?_insertIn key other value t.entries

@[simp] theorem find?_insert_self (t : Table κ α) (key : κ) (value : α) :
    (t.insert key value).find? key = some value := by
  simp [find?_insert]

theorem find?_insert_of_ne (t : Table κ α) {key other : κ} (value : α) (h : key ≠ other) :
    (t.insert key value).find? other = t.find? other := by
  simp [find?_insert, h]

end Table

end P16
