/-!
# Flag sets — sets of a small enumeration, one bit a member

The kinds of tokens that a place allows, and the kinds of errors that a parse met, are sets of a small
enumeration. A **flag set** keeps such a set as one number: each value of the enumeration owns the bit
at its index, and membership is that bit. What a set lists, and in which order, is fixed by the
enumeration (`Flag.members`), so a set has one text however it was filled.

The main law is `contains_insert`: inserting a value adds that value and no other. It holds because
distinct values have distinct indices, which `Flag` asks for.
-/

namespace Formula

/-- **An enumeration whose values own one bit each.** -/
class Flag (α : Type) where
  index : α → Nat
  /-- The values that a set lists, in order. -/
  members : List α
  /-- Distinct values have distinct bits. -/
  index_inj : ∀ a b, index a = index b → a = b

/-- **A set of values of an enumeration**, as a bit mask. -/
structure FlagSet (α : Type) where
  mask : Nat
deriving DecidableEq, Repr, Inhabited

namespace FlagSet

variable {α : Type} [Flag α]

/-- The number whose only bit is that of `a`. -/
def bit (a : α) : Nat := 1 <<< Flag.index a

def empty : FlagSet α := ⟨0⟩

def insert (s : FlagSet α) (a : α) : FlagSet α := ⟨s.mask ||| bit a⟩

def single (a : α) : FlagSet α := ⟨bit a⟩

def ofList (as : List α) : FlagSet α := as.foldl insert empty

def contains (s : FlagSet α) (a : α) : Bool := s.mask.testBit (Flag.index a)

/-- The members that the enumeration lists, in its order. -/
def toList (s : FlagSet α) : List α := Flag.members.filter s.contains

def size (s : FlagSet α) : Nat := s.toList.length

def isEmpty (s : FlagSet α) : Bool := s.mask == 0

/-- The texts of the members, in order, with `separator` between them. -/
def text (s : FlagSet α) (separator : String) (name : α → String) : String :=
  separator.intercalate (s.toList.map name)

theorem contains_empty (a : α) : (empty : FlagSet α).contains a = false := by
  simp only [contains, empty, Nat.zero_testBit]

/-- **Inserting a value adds that value and no other.** -/
theorem contains_insert (s : FlagSet α) (a b : α) :
    (s.insert a).contains b = true ↔ s.contains b = true ∨ b = a := by
  simp only [contains, insert, bit, Nat.one_shiftLeft, Nat.testBit_or, Nat.testBit_two_pow, Bool.or_eq_true,
    decide_eq_true_eq]
  exact or_congr_right ⟨fun h => (Flag.index_inj _ _ h).symm, fun h => h ▸ rfl⟩

theorem contains_single (a b : α) : (single a).contains b = true ↔ b = a := by
  simp only [contains, single, bit, Nat.one_shiftLeft, Nat.testBit_two_pow, decide_eq_true_eq]
  exact ⟨fun h => (Flag.index_inj _ _ h).symm, fun h => h ▸ rfl⟩

/-- Filling a set from a list adds the list's values to it. -/
theorem contains_foldl_insert (as : List α) (s : FlagSet α) (b : α) :
    (as.foldl insert s).contains b = true ↔ s.contains b = true ∨ b ∈ as := by
  induction as generalizing s with
  | nil => simp only [List.foldl_nil, List.not_mem_nil, or_false]
  | cons a as ih => rw [List.foldl_cons, ih, contains_insert, List.mem_cons, or_assoc]

/-- **The set of a list has the list's values for members.** -/
theorem contains_ofList (as : List α) (b : α) : (ofList as).contains b = true ↔ b ∈ as := by
  rw [ofList, contains_foldl_insert, contains_empty]
  simp only [Bool.false_eq_true, false_or]

end FlagSet

end Formula
