/-! Values by name: each name has at most one, the last that was given to it. -/
namespace Script

structure Bindings (α : Type) where
  entries : List (String × α)
deriving Repr, Inhabited

namespace Bindings

def empty : Bindings α := ⟨[]⟩

/-- The value of the first entry under a name. -/
def find? (name : String) : List (String × α) → Option α
  | [] => none
  | (k, v) :: rest => if k = name then some v else find? name rest

def get? (b : Bindings α) (name : String) : Option α := find? name b.entries

def binds (b : Bindings α) (name : String) : Bool := (b.get? name).isSome

/-- Puts a value in the place of the first entry under a name, or at the end. -/
def put (name : String) (value : α) : List (String × α) → List (String × α)
  | [] => [(name, value)]
  | (k, v) :: rest => if k = name then (k, value) :: rest else (k, v) :: put name value rest

def insert (b : Bindings α) (name : String) (value : α) : Bindings α :=
  ⟨put name value b.entries⟩

def erase (b : Bindings α) (name : String) : Bindings α :=
  ⟨b.entries.filter fun e => e.1 ≠ name⟩

/-- The names, in the order in which they were first bound. -/
def names (b : Bindings α) : List String := b.entries.map Prod.fst

/-- The names in the order of their code points. -/
def sortedNames (b : Bindings α) : List String := b.names.mergeSort fun s t => s ≤ t

theorem find?_put (name other : String) (value : α) (entries : List (String × α)) :
    find? other (put name value entries) =
      if name = other then some value else find? other entries := by
  induction entries with
  | nil => simp [put, find?]
  | cons e rest ih =>
    obtain ⟨k, v⟩ := e
    by_cases hk : k = name
    · subst hk
      by_cases ho : k = other <;> simp [put, find?, ho]
    · by_cases ho : k = other
      · subst ho
        simp [put, find?, hk, Ne.symm hk]
      · simp [put, find?, hk, ho, ih]

@[simp] theorem get?_insert (b : Bindings α) (name other : String) (value : α) :
    (b.insert name value).get? other = if name = other then some value else b.get? other :=
  find?_put name other value b.entries

end Bindings

end Script
