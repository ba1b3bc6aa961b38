import Formula.Proofs.Binary64.Powers
import Formula.Proofs.Symbol.Coefficient
import Formula.Proofs.Symbol.Words

/-!
# Turns — how long a binomial coefficient is computed

The product takes a turn for each factor, and the lesser of `r` and `n - r` may be half of a 64-bit word. But every
factor `(base + i) / i` is at least two, since `i` is at most `base`: so each turn doubles the value, in whole
numbers (`two_mul_choose_le`) and in doubles (`Estimate.Grown.step`), rounded as they are. From `2 ^ 127` on no
product fits, and from `2 ^ 1024` on no double is finite, and both parts stop there.

`fewTurns_binomial`: whatever the two doubles are, the number of the next factor is at most 1025 in the end.
-/

namespace Formula

open Binary64

namespace Binomial

variable {base k r : Nat}

/-! ## The exact part -/

/-- **A turn at least doubles the coefficient.** -/
theorem two_mul_choose_le (half : k < base) : 2 * (base + k).choose k ≤ (base + (k + 1)).choose (k + 1) := by
  have turn : (base + k).choose k * (base + (k + 1)) = (base + (k + 1)).choose (k + 1) * (k + 1) :=
    Progress.value_mul_after base k
  have factor : (base + k).choose k * (2 * (k + 1)) ≤ (base + k).choose k * (base + (k + 1)) :=
    Nat.mul_le_mul_left _ (by omega)
  rw [turn, ← Nat.mul_assoc, Nat.mul_comm _ 2] at factor
  exact Nat.le_of_mul_le_mul_right factor (Nat.succ_pos k)

/-- **The coefficient after some turns** is at least that power of two. -/
theorem two_pow_le_choose (half : k ≤ base) : 2 ^ k ≤ (base + k).choose k := by
  induction k with
  | zero => rw [Nat.pow_zero, Nat.choose_zero_right]
  | succ k ih =>
    calc
      2 ^ (k + 1) = 2 * 2 ^ k := Nat.pow_succ'
      _ ≤ 2 * (base + k).choose k := Nat.mul_le_mul_left 2 (ih (Nat.le_of_succ_le half))
      _ ≤ (base + (k + 1)).choose (k + 1) := two_mul_choose_le half

/-! ## The approximate part -/

/-- **What has grown**: the value is at least two to the number of turns, and there were few of them. -/
structure Estimate.Grown (e : Estimate) : Prop where
  begun : 1 ≤ e.next
  few : e.next ≤ 1025
  atLeast : AtLeast (e.next - 1) e.value

/-- A finite double is below `2 ^ 1024`. -/
theorem lt_of_isFinite {x : Float} (h : AtLeast k x) (finite : x.isFinite = true) : k < 1024 := by
  obtain ⟨rank, least, most, rfl⟩ := h
  by_contra large
  have top : infinityRank ≤ powerRank k := Nat.mul_le_mul_right blockSize (by omega)
  obtain rfl : rank = infinityRank := by omega
  have infinite : (ofRank false infinityRank).isFinite = false := by decide +kernel
  exact Bool.false_ne_true (infinite.symm.trans finite)

/-- **A factor of two or more**, in whole numbers and in doubles. -/
theorem factor_atLeast {i : Nat} (pos : 0 < i) (half : i ≤ base) (fits : base + i ≤ exactMax) :
    2 * i ≤ base + i ∧ AtLeast 1 (ofInt (base + i : Nat) / ofInt i) := by
  have twice : 2 * i ≤ base + i := by omega
  exact ⟨twice, atLeast_ratio pos twice (small_of_fits fits)⟩

/-- **A turn in doubles** is taken from a finite value only, and at least doubles it. -/
theorem Estimate.Grown.step {e : Estimate} (h : e.Grown) (finite : e.value.isFinite = true) (half : e.next ≤ base)
    (fits : base + e.next ≤ exactMax) :
    Grown ⟨e.next + 1, e.value * (ofInt (base + e.next : Nat) / ofInt e.next)⟩ where
  begun := Nat.le_add_left 1 e.next
  few := by
    have below := lt_of_isFinite h.atLeast finite
    show e.next + 1 ≤ 1025
    omega
  atLeast := by
    have product := h.atLeast.mul (factor_atLeast h.begun half fits).2
    rwa [Nat.sub_add_cancel h.begun] at product

/-- **All turns in doubles.** -/
theorem Estimate.Grown.roughRun (half : r ≤ base) (fits : base + r ≤ exactMax) (factors : Nat) :
    ∀ {e : Estimate}, e.Grown → e.next + factors ≤ r + 1 → (roughRun base factors e).Grown := by
  induction factors with
  | zero => exact fun h _ => h
  | succ factors ih =>
    intro e h left
    rw [Binomial.roughRun]
    split
    next finite => exact ih (h.step finite (by omega) (by omega)) (by show e.next + 1 + factors ≤ r + 1; omega)
    next => exact h

/-- **Both parts**: the value has grown by two in every turn, and there were few. -/
theorem grown_estimate (half : r ≤ base) (fits : base + r ≤ exactMax) : (estimate base r).Grown := by
  obtain ⟨k, most, product, -, run⟩ := exists_estimate_eq base r
  have coefficient := choose_le_of_product product
  have power : 2 ^ k ≤ (base + k).choose k := two_pow_le_choose (Nat.le_trans most half)
  have small : k < 127 := by
    have below : 2 ^ k < 2 ^ 127 := Nat.lt_of_le_of_lt (Nat.le_trans power coefficient) (by decide)
    exact (Nat.pow_lt_pow_iff_right (by decide)).mp below
  have start : Estimate.Grown ⟨k + 1, ofInt ((base + k).choose k : Nat)⟩ :=
    ⟨Nat.le_add_left 1 k, by show k + 1 ≤ 1025; omega, atLeast_ofInt power (small_of_fits coefficient)⟩
  rw [run]
  exact start.roughRun half fits _ (by show k + 1 + (r - k) ≤ r + 1; omega)

end Binomial

namespace Builtin

open Binomial

/-- **How long the binomial coefficient of two doubles is computed**, cut to whole numbers `n` and `r`. -/
structure FewTurns (x y : Float) : Prop where
  /-- Outside `0 ≤ r ≤ n` no turn is taken. -/
  outside : truncate y < 0 ∨ truncate x < truncate y → binomial x y = 0
  /-- The turns are for the lesser of `r` and `n - r`. Each factor is at least two, so the value is at least two to
  the number of turns, and in the end the number of the next factor is at most 1025. -/
  inside : ∀ n r : Nat, truncate x = n → truncate y = r → r ≤ n →
    ∃ base turns, turns = min r (n - r) ∧ base + turns = n ∧ binomial x y = (estimate base turns).value ∧
      (estimate base turns).next ≤ 1025 ∧ AtLeast ((estimate base turns).next - 1) (estimate base turns).value ∧
      ∀ i, 0 < i → i ≤ turns → 2 * i ≤ base + i ∧ AtLeast 1 (ofInt (base + i : Nat) / ofInt i)

/-- **A binomial coefficient takes at most 1024 turns**, whatever its arguments are. -/
theorem fewTurns_binomial (x y : Float) : FewTurns x y where
  outside zero := if_pos zero
  inside n r hn hr inside := by
    have half : min r (n - r) ≤ n - min r (n - r) := by omega
    have whole : n - min r (n - r) + min r (n - r) = n := by omega
    have fits : n - min r (n - r) + min r (n - r) ≤ exactMax := by
      have word := (fitsWord_truncate x).2
      have wide : wordMax ≤ exactMax := by decide
      omega
    have grown := grown_estimate half fits
    refine ⟨_, _, rfl, whole, ?_, grown.few, grown.atLeast, ?_⟩
    · rw [binomial, hn, hr, choose_natCast inside]
    · exact fun i pos most => factor_atLeast pos (by omega) (by omega)

end Builtin

end Formula
