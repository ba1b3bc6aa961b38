import Formula.Binary64.Basic
import Formula.Decimal.Basic

/-!
# Significant digits — a double to a given number of digits

`significantText` writes a double with at most `p` significant digits. The exact value is rounded once
to `p` digits, a tie going to the even digit (`toSignificant`). With the exponent `x` after that
rounding the number is written positionally when `-4 ≤ x < p`, and otherwise as a mantissa with one
digit before the point, `e`, a sign and at least two digits of exponent. Zeros that end the fraction
are dropped, and the point with them when nothing is left. A zero keeps its sign; what is not a number
is `nan`, and an infinity `inf` or `-inf`.

A layout is laid out in full before zeros are dropped, and it has `maxPlaces` places after the point at
most. `significantText?` gives no text where a layout would need more: it asks for `p - 1` places of the
mantissa, which settles the exponent, and for `p - 1 - x` places of a number written positionally.
-/

namespace Formula.Decimal

open Binary64

/-- **A quotient rounded to `p` significant digits**: the digits as a number, and the exponent of the
first of them. A rounding that carries into one more digit moves the exponent up. -/
def toSignificant (num den p : Nat) : Nat × Int :=
  if num = 0 then (0, 0)
  else
    let x := magnitude num den
    let shift : Int := (p : Int) - 1 - x
    let d := roundHalfEven (num * tens shift.toNat) (den * tens (-shift).toNat)
    if d = tens p then (tens (p - 1), x + 1) else (d, x)

/-- Exactly `p` digits of a number, zeros in front. -/
def padded (p n : Nat) : List Char :=
  let ds := digits n
  zeros (p - ds.length) ++ ds

/-- The least exponent that is written positionally. -/
def leastPositional : Int := -4

def exponentText (x : Int) : List Char :=
  let ds := digits x.natAbs
  (if x < 0 then '-' else '+') :: (zeros (2 - ds.length) ++ ds)

/-- `p` digits with the exponent `x` of the first, in the layout that the exponent asks for. -/
def layout (p : Nat) (ds : List Char) (x : Int) : List Char :=
  if x < leastPositional ∨ (p : Int) ≤ x then (place ds 1).trimmed.text ++ 'e' :: exponentText x
  else (place ds (x + 1)).trimmed.text

/-- The text of a finite double with at most `p` significant digits. -/
def significantDigits (p rank : Nat) : List Char :=
  let (d, x) := toSignificant (quanta rank) quantaPerOne p
  layout p (padded p d) x

/-- **A double with at most `p` significant digits**; at least one is written. -/
def significantText (x : Float) (p : Nat) : String :=
  match view x with
  | .nan => "nan"
  | .infinite negative => String.ofList (signText negative ++ "inf".toList)
  | .finite negative rank => String.ofList (signText negative ++ significantDigits (max p 1) rank)

/-- The most places after the point that a layout has before zeros are dropped. -/
def maxPlaces : Nat := 65535

/-- The exponent of a finite double rounded to `p` digits. -/
def significantExponent (p rank : Nat) : Int := (toSignificant (quanta rank) quantaPerOne p).2

/-- How many places after the point a layout of `p` digits with exponent `x` asks for. -/
def placesAsked (p : Nat) (x : Int) : Nat :=
  if x < leastPositional ∨ (p : Int) ≤ x then p - 1 else ((p : Int) - 1 - x).toNat

/-- Whether a finite double has a text with at most `p` significant digits. -/
def layoutFits (p rank : Nat) : Bool :=
  p - 1 ≤ maxPlaces && placesAsked p (significantExponent p rank) ≤ maxPlaces

/-- **A double with at most `p` significant digits**, none when its layout asks for too many places. -/
def significantText? (x : Float) (p : Nat) : Option String :=
  match view x with
  | .finite _ rank => if layoutFits (max p 1) rank then some (significantText x p) else none
  | .nan | .infinite _ => some (significantText x p)

end Formula.Decimal
