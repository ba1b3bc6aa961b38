import Formula.Binary64.Basic

/-!
# Binomial coefficients — exact while they fit, then approximate

The number of ways to choose `r` of `n`, for `0 ≤ r ≤ n`, as the product of `(n - r + i) / i` for `i`
from one to the lesser of `r` and `n - r`. The product is formed from the left, multiplying before
dividing, so every division is without remainder and every intermediate value is itself a binomial
coefficient. That goes on while the products fit a signed 128-bit word; from the first product that does
not fit, the rest is multiplied in doubles, and stops once the value is infinite.

The arguments are doubles cut to whole numbers. Outside `0 ≤ r ≤ n` the coefficient is zero.
-/

namespace Formula.Binomial

open Binary64

/-- The greatest signed 128-bit word. -/
def exactMax : Nat := (1 <<< 127) - 1

/-- **A product under way**: its value, and the number of the next factor. -/
structure Progress where
  /-- The number of the next factor. -/
  next : Nat
  /-- The product of the factors before it. -/
  value : Nat
deriving DecidableEq, Repr

/-- One more factor, when the product before the division fits. `base` is `n - r`. -/
def Progress.advance? (base : Nat) (p : Progress) : Option Progress :=
  let product := p.value * (base + p.next)
  if product ≤ exactMax then some ⟨p.next + 1, product / p.next⟩ else none

/-- **The exact part**: up to `factors` factors, as far as the products fit. -/
def exactRun (base : Nat) : (factors : Nat) → Progress → Progress
  | 0, p => p
  | factors + 1, p =>
    match p.advance? base with
    | some q => exactRun base factors q
    | none => p

/-- The number of the next factor and the value so far, in doubles. -/
structure Estimate where
  /-- The number of the next factor. -/
  next : Nat
  /-- The product of the factors before it. -/
  value : Float

/-- **The approximate part**: up to `factors` factors in doubles, while the value is finite. -/
def roughRun (base : Nat) : (factors : Nat) → Estimate → Estimate
  | 0, e => e
  | factors + 1, e =>
    if e.value.isFinite then
      roughRun base factors ⟨e.next + 1, e.value * (ofInt (base + e.next : Nat) / ofInt e.next)⟩
    else e

/-- Both parts for `r` factors over `base`. -/
def estimate (base r : Nat) : Estimate :=
  let p := exactRun base r ⟨1, 1⟩
  roughRun base (r + 1 - p.next) ⟨p.next, ofInt p.value⟩

/-- **The binomial coefficient of two whole numbers.** -/
def choose (n r : Int) : Float :=
  if r < 0 ∨ n < r then 0
  else
    let r := min r (n - r)
    (estimate (n - r).toNat r.toNat).value

end Formula.Binomial
