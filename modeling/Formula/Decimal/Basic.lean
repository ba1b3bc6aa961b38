/-!
# Decimal digits — reading and writing natural numbers in tens

What the decimal forms of a number share: the digits of a natural number, their count, the power of ten
just below a quotient, and the **positional** text of some digits around a point.

A positional text is `whole`, or `whole.fraction` when the fraction is not empty. `place` splits digits
at the point: digits that end before the point are filled up with zeros, digits that begin after it have
the zeros between in front, and a whole part without digits is `0`.
-/

namespace Formula.Decimal

def digits (n : Nat) : List Char := Nat.toDigits 10 n

def width (n : Nat) : Nat := (digits n).length

def tens (k : Nat) : Nat := Nat.pow 10 k

def ofDigits (cs : List Char) : Nat := cs.foldl (fun n c => 10 * n + (c.toNat - '0'.toNat)) 0

/-- **The exponent of a positive quotient**: the greatest `x` with `10 ^ x ≤ num / den`. -/
def magnitude (num den : Nat) : Int :=
  if den ≤ num then (width (num / den) : Int) - 1
  else -(width ((den - 1) / num) : Int)

def zeros (n : Nat) : List Char := List.replicate n '0'

/-- A positional number: the digits before the point and those after it. -/
structure Positional where
  whole : List Char
  fraction : List Char
deriving DecidableEq, Repr

/-- **Digits with the point after the first `point` of them**, which may lie to either side of all. -/
def place (ds : List Char) (point : Int) : Positional :=
  if point ≤ 0 then ⟨['0'], zeros (-point).toNat ++ ds⟩
  else
    let n := point.toNat
    ⟨ds.take n ++ zeros (n - ds.length), ds.drop n⟩

namespace Positional

/-- The number without the zeros that end its fraction. -/
def trimmed (p : Positional) : Positional :=
  { p with fraction := (p.fraction.reverse.dropWhile (· == '0')).reverse }

/-- The text of the number; no point stands without a fraction. -/
def text (p : Positional) : List Char :=
  if p.fraction.isEmpty then p.whole else p.whole ++ '.' :: p.fraction

end Positional

/-- The sign that a text begins with. -/
def signText (negative : Bool) : List Char := if negative then ['-'] else []

end Formula.Decimal
