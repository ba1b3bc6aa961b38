import Formula.Binary64.Basic
import Formula.Decimal.Basic

/-!
# Shortest decimals — the fewest digits that read back

The **shortest text** of a double has the fewest digits of all decimals that are nearer to it than to
any other double, and of those with that many digits it is the nearest; between two equally near the
greater is taken. It is written positionally, however large or small, with no exponent, no point for
a whole number, and a sign also for the negative zero.

The reals that round to the double of rank `r` reach half the way to the ranks beside it, the half-way
points included when `r` is even. For one digit, two digits, and so on, `search` looks at the two
decimals of that many digits around the value and takes the first that lies in this range. Seventeen
digits always suffice.
-/

namespace Formula.Decimal

open Binary64

/-- Half quanta in one, the unit in which the ends of the range of a rank are whole. -/
def halvesPerOne : Nat := 2 * quantaPerOne

/-- **A decimal near a rank**, as `coefficient · 10 ^ exponent`. -/
structure Scaled where
  coefficient : Nat
  exponent : Int
deriving DecidableEq, Repr

/-- Whether `low ≤ d ≤ high` or, when the ends do not belong to the range, `low < d < high`. -/
def between (ends : Bool) (low d high : Nat) : Bool :=
  if ends then decide (low ≤ d ∧ d ≤ high) else decide (low < d ∧ d < high)

/-- Of the two multiples of `10 ^ exponent` around the value of a rank, the one that rounds to the rank,
and the nearer one when both do. -/
def candidate? (rank : Nat) (exponent : Int) : Option Nat :=
  let scale := tens (-exponent).toNat
  let unit := halvesPerOne * tens exponent.toNat
  let value := 2 * quanta rank * scale
  let low := (quanta (rank - 1) + quanta rank) * scale
  let high := (quanta rank + quanta (rank + 1)) * scale
  let ends := rank % 2 == 0
  let below := value / unit
  match between ends low (below * unit) high, between ends low ((below + 1) * unit) high with
  | true, true => if 2 * (value % unit) < unit then some below else some (below + 1)
  | true, false => some below
  | false, true => some (below + 1)
  | false, false => none

/-- The first decimal that rounds to the rank, from the exponent given downward; the exponent falls by
one with each further digit, `more` times at most. -/
def search (rank : Nat) : (more : Nat) → (exponent : Int) → Scaled
  | 0, exponent => ⟨2 * quanta rank * tens (-exponent).toNat / (halvesPerOne * tens exponent.toNat), exponent⟩
  | more + 1, exponent =>
    match candidate? rank exponent with
    | some d => ⟨d, exponent⟩
    | none => search rank more (exponent - 1)

/-- **The shortest decimal that rounds to a rank** above zero. -/
def shortest (rank : Nat) : Scaled := search rank 17 (magnitude (quanta rank) quantaPerOne)

def shortestDigits (rank : Nat) : List Char :=
  if rank = 0 then ['0']
  else
    let d := shortest rank
    (place (digits d.coefficient) (width d.coefficient + d.exponent)).trimmed.text

/-- **The shortest text of a double.** -/
def shortestText (x : Float) : String :=
  match view x with
  | .nan => "NaN"
  | .infinite negative => String.ofList (signText negative ++ "inf".toList)
  | .finite negative rank => String.ofList (signText negative ++ shortestDigits rank)

end Formula.Decimal
