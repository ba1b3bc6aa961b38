/-!
# Binary64 — doubles as ranks and quanta

The finite doubles of one sign stand in a row: zero, the least subnormal, and so on up to the greatest.
The **rank** of a double is its place in that row, which is the number its bits form without the sign.
Every finite double is a whole number of **quanta**, the least subnormal 2⁻¹⁰⁷⁴: `quanta` gives that
number from the rank. Up to rank 2⁵³ the quanta are the rank itself; from there on each further block of
2⁵² ranks is spaced twice as wide as the one before.

So what has to be exact about a double is arithmetic on natural numbers. The rank above the greatest
finite one belongs to infinity, and `quanta` continues through it: it is the value from which rounding
goes to infinity, as if the row went on.

`ofRatio` is the double nearest to a quotient, of two equally near the one of even rank. It rounds the
quotient, in quanta, to a multiple of the spacing where the quotient lies. Since the ranks of one
block begin where those of the block below end, a rounding that carries into the next block yields that
block's first rank by itself.
-/

namespace Formula.Binary64

/-- Ranks in one block of equal spacing. -/
def blockSize : Nat := 1 <<< 52

def infinityRank : Nat := 2047 * blockSize

def quantaPerOne : Nat := 1 <<< 1074

/-- **The value of a rank**, in quanta. -/
def quanta (rank : Nat) : Nat :=
  if rank < 2 * blockSize then rank else (blockSize + rank % blockSize) <<< (rank / blockSize - 1)

/-- The natural number nearest to `num / den`, the even one of two equally near. -/
def roundHalfEven (num den : Nat) : Nat :=
  let q := num / den
  let r := num % den
  if den < 2 * r ∨ (2 * r = den ∧ q % 2 = 1) then q + 1 else q

/-- **The rank nearest to `num / den` quanta**, the even one of two equally near. It may lie above the
rank of infinity. -/
def nearestRank (num den : Nat) : Nat :=
  let block := Nat.log2 (num / den) - 52
  block * blockSize + roundHalfEven num (den <<< block)

/-- The bit of a double that holds its sign. -/
def signBit : Nat := 1 <<< 63

inductive View
  | nan
  | infinite (negative : Bool)
  /-- A finite double, zero included, by its sign and rank. -/
  | finite (negative : Bool) (rank : Nat)
deriving DecidableEq, Repr

/-- **The parts of a double.** -/
def view (x : Float) : View :=
  let bits := x.toBits.toNat
  let negative := decide (signBit ≤ bits)
  let rank := bits % signBit
  if rank < infinityRank then .finite negative rank
  else if rank = infinityRank then .infinite negative
  else .nan

/-- The double of a sign and a rank. -/
def ofRank (negative : Bool) (rank : Nat) : Float :=
  Float.ofBits (UInt64.ofNat (rank + if negative then signBit else 0))

/-- The double of a sign and a number of quanta that is some rank's value, or the nearest to it. -/
def ofQuanta (negative : Bool) (q : Nat) : Float := ofRank negative (min infinityRank (nearestRank q 1))

/-- **The double nearest to `num / den`**, with the given sign; an infinity when the quotient is too
large. -/
def ofRatio (negative : Bool) (num den : Nat) : Float :=
  ofRank negative (min infinityRank (nearestRank (num * quantaPerOne) den))

def ofInt (i : Int) : Float := ofRatio (decide (i < 0)) i.natAbs 1

def infinity (negative : Bool) : Float := ofRank negative infinityRank

def nan : Float := Float.ofBits 0x7ff8000000000000

/-- The least and the greatest number of a signed 64-bit word. -/
def wordMin : Int := -((1 <<< 63 : Nat) : Int)
@[inherit_doc wordMin] def wordMax : Int := ((1 <<< 63 : Nat) : Int) - 1

/-- **A double cut to a whole number** of a signed 64-bit word: toward zero, the nearest end of the range
when it lies outside, and zero when it is not a number. -/
def truncate (x : Float) : Int :=
  match view x with
  | .nan => 0
  | .infinite negative => if negative then wordMin else wordMax
  | .finite negative rank =>
    let whole : Int := (quanta rank / quantaPerOne : Nat)
    max wordMin (min wordMax (if negative then -whole else whole))

/-- **The remainder of a division cut toward zero**: exact, with the sign of the dividend. It is not a
number when the divisor is zero or the dividend infinite, and the dividend when the divisor is
infinite. -/
def remainder (x y : Float) : Float :=
  match view x, view y with
  | .finite negative a, .finite _ b =>
    if b = 0 then nan else ofQuanta negative (quanta a % quanta b)
  | .finite _ _, .infinite _ => x
  | _, _ => nan

end Formula.Binary64
