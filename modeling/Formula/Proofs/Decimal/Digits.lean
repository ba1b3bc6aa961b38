import Mathlib.Algebra.Order.Field.Power
import Mathlib.Algebra.Order.Field.Rat
import Mathlib.Tactic.Linarith
import Mathlib.Tactic.Positivity
import Mathlib.Tactic.Ring
import Formula.Decimal.Basic

/-!
# Digits — what digits in tens stand for

The value of digits is that of each part at its place (`ofDigits_append`): zeros in front change nothing, and
zeros behind multiply. The digits of a number have the number for their value, and as many of them stand
for a number as there are powers of ten below it.

`magnitude_spec`: the exponent of a quotient is the power of ten just below it.
-/

namespace Formula.Decimal

variable {cs ds : List Char} {c : Char} {n k : Nat}

/-! ## Values -/

/-- **Digits and nothing else.** -/
def AreDigits (cs : List Char) : Prop := ∀ c ∈ cs, c.isDigit = true

theorem areDigits_nil : AreDigits [] := List.forall_mem_nil _

theorem AreDigits.cons (digits : AreDigits cs) (digit : c.isDigit = true) : AreDigits (c :: cs) :=
  List.forall_mem_cons.mpr ⟨digit, digits⟩

theorem AreDigits.append (hcs : AreDigits cs) (hds : AreDigits ds) : AreDigits (cs ++ ds) :=
  List.forall_mem_append.mpr ⟨hcs, hds⟩

theorem areDigits_zeros (n : Nat) : AreDigits (zeros n) := by
  intro c hc
  rw [List.eq_of_mem_replicate hc]
  rfl

theorem areDigits_digits (n : Nat) : AreDigits (digits n) := fun _ =>
  Nat.isDigit_of_mem_toDigits (by decide) (by decide)

/-- **The value of digits after others** is added to that of the others at its place. -/
theorem ofDigits_append (cs ds : List Char) : ofDigits (cs ++ ds) = 10 ^ ds.length * ofDigits cs + ofDigits ds :=
  (Nat.ofDigitChars_append 0).trans Nat.ofDigitChars_eq_ofDigitChars_zero

theorem ofDigits_zeros (n : Nat) : ofDigits (zeros n) = 0 :=
  Nat.ofDigitChars_replicate_zero.trans (Nat.mul_zero _)

theorem ofDigits_zeros_append (n : Nat) (ds : List Char) : ofDigits (zeros n ++ ds) = ofDigits ds := by
  rw [ofDigits_append, ofDigits_zeros, Nat.mul_zero, Nat.zero_add]

theorem ofDigits_append_zeros (cs : List Char) (n : Nat) : ofDigits (cs ++ zeros n) = 10 ^ n * ofDigits cs := by
  rw [ofDigits_append, ofDigits_zeros, Nat.add_zero, zeros, List.length_replicate]

/-- **The digits of a number stand for it.** -/
theorem ofDigits_digits (n : Nat) : ofDigits (digits n) = n := Nat.ofDigitChars_ten_toDigits

theorem ofDigits_cons (c : Char) (ds : List Char) :
    ofDigits (c :: ds) = 10 ^ ds.length * (c.toNat - '0'.toNat) + ofDigits ds := by
  have single : ofDigits [c] = c.toNat - '0'.toNat := by
    rw [ofDigits, List.foldl_cons, List.foldl_nil, Nat.mul_zero, Nat.zero_add]
  rw [← single]
  exact ofDigits_append [c] ds

/-- **Digits stand for less than one more digit would.** -/
theorem ofDigits_lt (h : AreDigits ds) : ofDigits ds < 10 ^ ds.length := by
  induction ds with
  | nil => exact Nat.one_pos
  | cons d ds ih =>
    obtain ⟨digit, digits⟩ := List.forall_mem_cons.mp h
    have most : d.toNat - '0'.toNat ≤ 9 := by
      have := (Char.isDigit_iff_toNat.mp digit).2
      simp only [Char.reduceToNat] at this ⊢
      omega
    have product := Nat.mul_le_mul_left (10 ^ ds.length) most
    have rest := ih digits
    rw [ofDigits_cons, List.length_cons, Nat.pow_succ]
    omega

/-- **Digits that begin with another than zero** stand for no less than their number allows. -/
theorem le_ofDigits (digit : c.isDigit = true) (nonzero : c ≠ '0') : 10 ^ ds.length ≤ ofDigits (c :: ds) := by
  have least : 1 ≤ c.toNat - '0'.toNat := by
    have low := (Char.isDigit_iff_toNat.mp digit).1
    have other : c.toNat ≠ '0'.toNat := fun same => nonzero (Char.toNat_inj.mp same)
    simp only [Char.reduceToNat] at low other ⊢
    omega
  have product := Nat.mul_le_mul_left (10 ^ ds.length) least
  rw [ofDigits_cons]
  omega

/-- Zeros that begin digits change nothing. -/
theorem ofDigits_dropWhile (ds : List Char) : ofDigits (ds.dropWhile (· == '0')) = ofDigits ds := by
  induction ds with
  | nil => rfl
  | cons d ds ih =>
    rw [List.dropWhile_cons]
    split
    next zero =>
      obtain rfl : d = '0' := beq_iff_eq.mp zero
      rw [ih, ofDigits_cons, Nat.sub_self, Nat.mul_zero, Nat.zero_add]
    next => rfl

/-! ## Widths -/

theorem width_pos (n : Nat) : 0 < width n := Nat.length_toDigits_pos

theorem width_le_iff (pos : 0 < k) : width n ≤ k ↔ n < 10 ^ k := Nat.length_toDigits_le_iff (by decide) pos

theorem lt_width (n : Nat) : n < 10 ^ width n := (width_le_iff (width_pos n)).mp (Nat.le_refl _)

theorem width_le (pos : 0 < n) : 10 ^ (width n - 1) ≤ n := by
  by_cases single : width n = 1
  · rw [single]
    exact pos
  · have more : 0 < width n - 1 := by have := width_pos n; omega
    exact Nat.not_lt.mp fun under => absurd ((width_le_iff more).mpr under) (by omega)

/-! ## Scales -/

theorem tens_eq (k : Nat) : tens k = 10 ^ k := rfl

theorem cast_tens (k : Nat) : (tens k : ℚ) = 10 ^ (k : Int) := by
  rw [tens_eq, zpow_natCast, Nat.cast_pow, Nat.cast_ofNat]

/-- **A power of ten as a quotient**, whichever sign the exponent has. -/
theorem tens_div_tens (x : Int) : (tens x.toNat / tens (-x).toNat : ℚ) = 10 ^ x := by
  rw [cast_tens, cast_tens, ← zpow_sub₀ (by norm_num)]
  congr 1
  omega

theorem tens_pos (k : Nat) : 0 < tens k := Nat.pow_pos (by decide)

/-- **A quotient in another unit**: the scale goes to the number or to the divisor, by the sign of its exponent. -/
theorem scaled_div_scaled (num den : Nat) (x : Int) :
    ((num * tens x.toNat : Nat) / (den * tens (-x).toNat : Nat) : ℚ) = num / den * 10 ^ x := by
  push_cast
  rw [mul_div_mul_comm, tens_div_tens]

/-- How many digits a whole quotient has, as bounds on the number that is divided. -/
theorem width_div_spec {num den : Nat} (denPos : 0 < den) (whole : 0 < num / den) :
    ∃ k, width (num / den) = k + 1 ∧ 10 ^ k * den ≤ num ∧ num < 10 ^ (k + 1) * den := by
  obtain ⟨k, hk⟩ := Nat.exists_eq_succ_of_ne_zero (Nat.ne_of_gt (width_pos (num / den)))
  have least := width_le whole
  have most := lt_width (num / den)
  rw [hk] at least most
  exact ⟨k, hk, (Nat.le_div_iff_mul_le denPos).mp least, (Nat.div_lt_iff_lt_mul denPos).mp most⟩

/-- **The exponent of a quotient** is that of the power of ten just below it. -/
theorem magnitude_spec {num den : Nat} (numPos : 0 < num) (denPos : 0 < den) :
    (10 : ℚ) ^ magnitude num den ≤ num / den ∧ (num / den : ℚ) < 10 ^ (magnitude num den + 1) := by
  have denQ : (0 : ℚ) < den := by exact_mod_cast denPos
  have numQ : (0 : ℚ) < num := by exact_mod_cast numPos
  unfold magnitude
  split
  next large =>
    obtain ⟨k, hk, least, most⟩ := width_div_spec denPos (Nat.div_pos large denPos)
    rw [hk, show ((k + 1 : Nat) : Int) - 1 = (k : Nat) by omega, ← Int.natCast_succ, zpow_natCast, zpow_natCast,
      le_div_iff₀ denQ, div_lt_iff₀ denQ]
    exact ⟨by exact_mod_cast least, by exact_mod_cast most⟩
  next small =>
    obtain ⟨k, hk, least, most⟩ := width_div_spec numPos (show 0 < (den - 1) / num from Nat.div_pos (by omega) numPos)
    have below : den ≤ 10 ^ (k + 1) * num := by omega
    have above : 10 ^ k * num < den := by omega
    rw [hk, show -((k + 1 : Nat) : Int) + 1 = -(k : Nat) by omega, zpow_neg, zpow_neg, zpow_natCast, zpow_natCast,
      inv_le_iff_one_le_mul₀ (by positivity), lt_inv_comm₀ (by positivity) (by positivity), inv_div,
      lt_div_iff₀ numQ, div_mul_eq_mul_div, one_le_div₀ denQ, mul_comm (num : ℚ)]
    exact ⟨by exact_mod_cast below, by exact_mod_cast above⟩

end Formula.Decimal
