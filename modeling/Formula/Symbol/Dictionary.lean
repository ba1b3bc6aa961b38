/-!
# Dictionaries — values under names

A **dictionary** keeps one value under each of its names, in the order in which the names were first
added. Adding under a name that is there replaces the value and keeps the place. `find?_put` is its law:
after adding, a name finds what was added under it, and every other name what it found before.
-/

namespace Formula

/-- **Values under names**, each name once. -/
structure Dictionary (α : Type) where
  /-- The names and their values, in the order of the names' first addition. -/
  entries : List (String × α)
deriving Inhabited

namespace Dictionary

variable {α : Type}

def empty : Dictionary α := ⟨[]⟩

def findIn (name : String) : List (String × α) → Option α
  | [] => none
  | (n, a) :: es => if n = name then some a else findIn name es

def putIn (name : String) (a : α) : List (String × α) → List (String × α)
  | [] => [(name, a)]
  | (n, b) :: es => if n = name then (n, a) :: es else (n, b) :: putIn name a es

/-- The value under a name. -/
def find? (d : Dictionary α) (name : String) : Option α := findIn name d.entries

/-- **The dictionary with a value added or replaced** under a name. -/
def put (d : Dictionary α) (name : String) (a : α) : Dictionary α := ⟨putIn name a d.entries⟩

def size (d : Dictionary α) : Nat := d.entries.length

@[simp] theorem find?_empty (name : String) : (empty : Dictionary α).find? name = none := rfl

theorem findIn_putIn (name other : String) (a : α) : ∀ es : List (String × α),
    findIn other (putIn name a es) = if name = other then some a else findIn other es
  | [] => rfl
  | (n, b) :: es => by
    unfold putIn
    split
    · rename_i h
      subst h
      simp only [findIn]
      split <;> rfl
    · rename_i h
      simp only [findIn, findIn_putIn name other a es]
      split
      · rename_i hn
        rw [if_neg (fun e => h (hn.trans e.symm))]
      · rfl

/-- **After adding, a name finds what was added under it, every other name what it found before.** -/
theorem find?_put (d : Dictionary α) (name other : String) (a : α) :
    (d.put name a).find? other = if name = other then some a else d.find? other :=
  findIn_putIn name other a d.entries

end Dictionary

end Formula
