import Mathlib.Data.Nat.Choose.Basic
import Formula.Proofs.Binary64.Nearest
import Formula.Symbol.Builtin

/-!
# Coefficients — what the product of a binomial coefficient passes through

After `j` factors the product over `base` is the coefficient of `base + j` and `j` (`advance?_after`), so each
division is without remainder. Before the division by `i` it is `i` times the coefficient that comes out, and that
is what has to fit 128 bits (`product`). These products grow, so the exact part goes through all factors when
the last one fits, and otherwise stops at the first that does not (`exactRun_after`).

So what is computed is the double nearest to the coefficient when `min r (n - r)` times it fits 128 bits
(`coefficient_binomial`), as it does up to `n = 124` (`fits_of_le`). **That the coefficient itself fits is not
enough** (`binomial_ne_nearest`): that of `125` and `61` does, but sixty-one times it does not, and the last factor
is multiplied in doubles, which gives the double below the nearest.
-/

namespace Formula

open Binary64

namespace Binomial

variable {base i j r : Nat}

/-! ## The products -/

/-- **The product before the division by `i`**: `i` times the coefficient that comes out. -/
def product (base i : Nat) : Nat := (base + i).choose i * i

/-- **The product after `j` factors.** -/
def Progress.after (base j : Nat) : Progress := ⟨j + 1, (base + j).choose j⟩

theorem Progress.after_zero (base : Nat) : after base 0 = ⟨1, 1⟩ := by
  rw [after, Nat.choose_zero_right]

theorem Progress.value_mul_after (base j : Nat) :
    (after base j).value * (base + (after base j).next) = product base (j + 1) := by
  rw [product, ← Nat.add_assoc, ← Nat.add_one_mul_choose_eq, Nat.mul_comm]
  rfl

/-- **One more factor** leads from a coefficient to the next, if the product between them fits. -/
theorem Progress.advance?_after (base j : Nat) : (after base j).advance? base =
    if product base (j + 1) ≤ exactMax then some (after base (j + 1)) else none := by
  have quotient : product base (j + 1) / (after base j).next = (after base (j + 1)).value :=
    Nat.mul_div_cancel _ (Nat.succ_pos j)
  rw [advance?, value_mul_after, quotient]
  rfl

theorem product_zero_le (base : Nat) : product base 0 ≤ exactMax := Nat.zero_le _

theorem product_le_succ (base i : Nat) : product base i ≤ product base (i + 1) := by
  rw [product, product, ← Nat.add_assoc, ← Nat.add_one_mul_choose_eq, Nat.mul_comm]
  exact Nat.mul_le_mul_right _ (by omega)

/-- **The products grow.** -/
theorem product_mono (h : i ≤ j) : product base i ≤ product base j :=
  monotone_nat_of_le_succ (product_le_succ base) h

/-- A coefficient fits when the product that it comes from does. -/
theorem choose_le_of_product (fits : product base j ≤ exactMax) : (base + j).choose j ≤ exactMax := by
  cases j with
  | zero =>
    rw [Nat.choose_zero_right]
    decide
  | succ j => exact Nat.le_trans (Nat.le_mul_of_pos_right _ (Nat.succ_pos j)) fits

/-! ## The exact part -/

/-- **The exact part goes from coefficient to coefficient**: through all factors, or up to the first whose product does
not fit. -/
theorem exactRun_after {base j : Nat} (factors : Nat) (fits : product base j ≤ exactMax) :
    ∃ k, j ≤ k ∧ k ≤ j + factors ∧ exactRun base factors (.after base j) = .after base k ∧
      product base k ≤ exactMax ∧ (k < j + factors → exactMax < product base (k + 1)) := by
  induction factors generalizing j with
  | zero => exact ⟨j, Nat.le_refl j, Nat.le_refl j, rfl, fits, fun more => absurd more (Nat.lt_irrefl j)⟩
  | succ factors ih =>
    rw [exactRun, Progress.advance?_after]
    by_cases next : product base (j + 1) ≤ exactMax
    · obtain ⟨k, least, most, run, last, stops⟩ := ih next
      rw [if_pos next]
      exact ⟨k, by omega, by omega, run, last, fun more => stops (by omega)⟩
    · rw [if_neg next]
      exact ⟨j, Nat.le_refl j, Nat.le_add_right j _, rfl, fits, fun _ => Nat.not_le.mp next⟩

/-- **The exact part from its first state on.** -/
theorem exists_exactRun_eq (base r : Nat) :
    ∃ k ≤ r, exactRun base r ⟨1, 1⟩ = .after base k ∧ product base k ≤ exactMax ∧
      (k < r → exactMax < product base (k + 1)) := by
  obtain ⟨k, -, most, run, last, stops⟩ := exactRun_after r (product_zero_le base)
  rw [Nat.zero_add] at most stops
  rw [Progress.after_zero] at run
  exact ⟨k, most, run, last, stops⟩

/-- **Both parts**: the exact part yields a coefficient, and the rest of the factors are multiplied in doubles. -/
theorem exists_estimate_eq (base r : Nat) :
    ∃ k ≤ r, product base k ≤ exactMax ∧ (k < r → exactMax < product base (k + 1)) ∧
      estimate base r = roughRun base (r - k) ⟨k + 1, ofInt ((base + k).choose k : Nat)⟩ := by
  obtain ⟨k, most, run, last, stops⟩ := exists_exactRun_eq base r
  refine ⟨k, most, last, stops, ?_⟩
  rw [estimate, run]
  dsimp only [Progress.after]
  rw [Nat.add_sub_add_right]

/-- **A coefficient whose last product fits** is computed in whole numbers. -/
theorem estimate_of_fits (fits : product base r ≤ exactMax) :
    estimate base r = ⟨r + 1, ofInt ((base + r).choose r : Nat)⟩ := by
  obtain ⟨k, most, -, stops, run⟩ := exists_estimate_eq base r
  -- a product that does not fit would be below the last one
  obtain rfl : k = r := by
    by_contra other
    have less : k < r := by omega
    exact absurd (Nat.le_trans (product_mono less) fits) (Nat.not_le.mpr (stops less))
  rw [run, Nat.sub_self, roughRun]

/-! ## Coefficients -/

/-- The coefficient is computed for the lesser of `r` and `n - r`. -/
theorem choose_natCast {n r : Nat} (inside : r ≤ n) :
    choose n r = (estimate (n - min r (n - r)) (min r (n - r))).value := by
  have least : (min (r : Int) (n - r)).toNat = min r (n - r) := by omega
  have rest : ((n : Int) - min (r : Int) (n - r)).toNat = n - min r (n - r) := by omega
  rw [choose, if_neg (by omega)]
  dsimp only
  rw [least, rest]

/-- The coefficients of `r` and of `n - r` are the same. -/
theorem choose_lesser {n r : Nat} (inside : r ≤ n) :
    (n - min r (n - r) + min r (n - r)).choose (min r (n - r)) = n.choose r := by
  have whole : n - min r (n - r) + min r (n - r) = n := by omega
  rw [whole]
  rcases Nat.le_total r (n - r) with low | high
  · rw [Nat.min_eq_left low]
  · rw [Nat.min_eq_right high, Nat.choose_symm inside]

/-- **The last product** is the coefficient times the lesser of `r` and `n - r`. -/
theorem product_last {n r : Nat} (inside : r ≤ n) :
    product (n - min r (n - r)) (min r (n - r)) = n.choose r * min r (n - r) :=
  congrArg (· * min r (n - r)) (choose_lesser inside)

/-- A coefficient fits when its last product does. -/
theorem choose_le_exactMax {n r : Nat} (inside : r ≤ n) (fits : n.choose r * min r (n - r) ≤ exactMax) :
    n.choose r ≤ exactMax := by
  rw [← product_last inside] at fits
  rw [← choose_lesser inside]
  exact choose_le_of_product fits

/-- The greatest coefficient of `124`. -/
theorem choose_124_62 : Nat.choose 124 62 = 1520803477811874490019821888415218656 := by
  rw [Nat.choose_eq_factorial_div_factorial (by decide)]
  decide +kernel

/-- **Up to `124` every product fits.** -/
theorem fits_of_le {n r : Nat} (small : n ≤ 124) : n.choose r * min r (n - r) ≤ exactMax := by
  have greatest : n.choose r ≤ Nat.choose 124 62 :=
    Nat.le_trans (Nat.choose_le_choose r small) (Nat.choose_le_middle r 124)
  rw [choose_124_62] at greatest
  have half : min r (n - r) ≤ 62 := by omega
  exact Nat.le_trans (Nat.mul_le_mul greatest half) (by decide)

/-- A number that fits 128 bits is below the greatest double. -/
theorem small_of_fits {n : Nat} (fits : n ≤ exactMax) : n * quantaPerOne < quanta (infinityRank - 1) := by
  have greatest : exactMax * quantaPerOne < quanta (infinityRank - 1) := by decide +kernel
  exact Nat.lt_of_le_of_lt (Nat.mul_le_mul_right _ fits) greatest

/-- **A number that fits 128 bits** is turned into the nearest double. -/
theorem exists_ofInt_of_fits {n : Nat} (fits : n ≤ exactMax) :
    ∃ rank < infinityRank, RoundsTo rank (n * quantaPerOne) ∧ ofInt n = ofRank false rank :=
  exists_ofInt_eq (small_of_fits fits)

end Binomial

namespace Builtin

open Binomial

/-- **The binomial coefficient of two doubles**, cut to whole numbers `n` and `r`. -/
structure Coefficient (x y : Float) : Prop where
  /-- Outside `0 ≤ r ≤ n` it is zero. -/
  outside : truncate y < 0 ∨ truncate x < truncate y → binomial x y = 0
  /-- It is the double nearest to the exact coefficient when the last product fits. -/
  exact : ∀ n r : Nat, truncate x = n → truncate y = r → r ≤ n → n.choose r * min r (n - r) ≤ exactMax →
    binomial x y = ofInt (n.choose r : Nat) ∧
      ∃ rank < infinityRank, RoundsTo rank (n.choose r * quantaPerOne) ∧ binomial x y = ofRank false rank
  /-- Otherwise the factors are multiplied in doubles from the first product on that does not fit. -/
  beyond : ∀ n r : Nat, truncate x = n → truncate y = r → r ≤ n → exactMax < n.choose r * min r (n - r) →
    ∃ base k, base + min r (n - r) = n ∧ k < min r (n - r) ∧ product base k ≤ exactMax ∧
      exactMax < product base (k + 1) ∧
      binomial x y = (roughRun base (min r (n - r) - k) ⟨k + 1, ofInt ((base + k).choose k : Nat)⟩).value

/-- **What the binomial coefficient of two doubles is.** -/
theorem coefficient_binomial (x y : Float) : Coefficient x y where
  outside zero := if_pos zero
  exact n r hn hr inside fits := by
    have last : product (n - min r (n - r)) (min r (n - r)) ≤ exactMax := product_last inside ▸ fits
    have value : binomial x y = ofInt (n.choose r : Nat) := by
      rw [binomial, hn, hr, choose_natCast inside, estimate_of_fits last, choose_lesser inside]
    exact ⟨value, value ▸ exists_ofInt_of_fits (choose_le_exactMax inside fits)⟩
  beyond n r hn hr inside large := by
    obtain ⟨k, most, fits, stops, run⟩ := exists_estimate_eq (n - min r (n - r)) (min r (n - r))
    have less : k < min r (n - r) := by
      refine Nat.lt_of_le_of_ne most fun same => ?_
      rw [same, product_last inside] at fits
      exact absurd large (Nat.not_lt.mpr fits)
    refine ⟨n - min r (n - r), k, by omega, less, fits, stops less, ?_⟩
    rw [binomial, hn, hr, choose_natCast inside, run]

/-- The greatest coefficient of `124`, the last number whose products all fit. -/
theorem coefficient_halfOf124 : truncate 124.9 = 124 ∧ truncate 62.2 = 62 ∧
    Nat.choose 124 62 * min 62 (124 - 62) ≤ exactMax ∧
    binomial 124.9 62.2 = ofInt 1520803477811874490019821888415218656 := by
  have fits : Nat.choose 124 62 * min 62 (124 - 62) ≤ exactMax := fits_of_le (Nat.le_refl 124)
  have nearest := (coefficient_binomial 124.9 62.2).exact 124 62 (by decide +kernel) (by decide +kernel) (by decide) fits
  rw [choose_124_62] at nearest
  exact ⟨by decide +kernel, by decide +kernel, fits, nearest.1⟩

/-- **A coefficient that fits 128 bits need not come out as the nearest double**: of `125` and `61` the last product
does not fit. -/
theorem binomial_ne_nearest : ¬ ∀ (x y : Float) (n r : Nat), truncate x = n → truncate y = r → r ≤ n →
    n.choose r ≤ exactMax → binomial x y = ofInt (n.choose r : Nat) := by
  intro nearest
  have coefficient : Nat.choose 125 61 = 2923171367321931373425996933337783875 := by
    rw [Nat.choose_eq_factorial_div_factorial (by decide)]
    decide +kernel
  have equal := nearest 125 61 125 61 (by decide +kernel) (by decide +kernel) (by decide)
    (by rw [coefficient]; decide)
  rw [coefficient] at equal
  exact absurd (congrArg Float.toBits equal) (by decide +kernel)

end Builtin

end Formula
