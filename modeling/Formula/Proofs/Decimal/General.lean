import Mathlib.Algebra.Group.Even
import Formula.Proofs.Decimal.Significant

/-!
# General layout — a number rounded to some digits, and how it is written

What a text with `p` significant digits has to be is said of numbers first. A number is **rounded** to `p` digits when
it is replaced by the nearest multiple of the unit of its `p`-th digit, of two equally near by the even one
(`RoundedTo`); the exponent of what comes out (`HasExponent`) may be one more than that of what went in. The text is
then a layout of that number and that exponent alone (`GeneralText`): a positional number without superfluous zeros,
or a mantissa with one digit before the point and an exponent.

The digits that `toSignificant` gives are of that number and that exponent (`toSignificant_rounded`), and the text made
of them is laid out in that way (`generalText_significantDigits`).

**What it does not say.** That there is room for the layout.
-/

namespace Formula.Decimal

open Binary64

variable {p n d num den : Nat} {x m : Int} {v D : ℚ} {q : Positional}

/-! ## What is to be written -/

/-- **A number rounded to `p` significant digits.** The number `v` lies between `10 ^ m` and ten times that, so the unit
of its last digit is `10 ^ (m + 1 - p)`. Zero stays zero. -/
inductive RoundedTo (p : Nat) : (v D : ℚ) → Prop
  | zero : RoundedTo p 0 0
  | digits {v : ℚ} (m : Int) (k : Nat) (least : 10 ^ m ≤ v) (most : v < 10 ^ (m + 1))
      (near : 2 * |k * 10 ^ (m + 1 - p) - v| ≤ 10 ^ (m + 1 - p))
      (even : 2 * |k * 10 ^ (m + 1 - p) - v| = 10 ^ (m + 1 - p) → Even k) :
      RoundedTo p v (k * 10 ^ (m + 1 - p))

/-- **The decimal exponent of a number**, zero for zero. -/
def HasExponent (D : ℚ) (x : Int) : Prop := D = 0 ∧ x = 0 ∨ 10 ^ x ≤ D ∧ D < 10 ^ (x + 1)

/-- **A positional number without superfluous zeros**: none before the first digit but the one before the point, none
at the end of the fraction. Its text has a point only before a fraction. -/
structure Positional.Tidy (q : Positional) : Prop extends q.Valid where
  first : q.whole = ['0'] ∨ q.whole.head? ≠ Option.some '0'
  last : q.fraction.getLast? ≠ Option.some '0'

/-- **An exponent is written** as a sign and its digits, two at least and no more than it needs. -/
structure SpellsExponent (x : Int) (sign : Char) (ds : List Char) : Prop where
  sign_eq : sign = if x < 0 then '-' else '+'
  digits : AreDigits ds
  two : 2 ≤ ds.length
  first : 2 < ds.length → ds.head? ≠ some '0'
  value : ofDigits ds = x.natAbs

/-- **The text of a number with an exponent**, which is laid out by the exponent. -/
inductive GeneralText (p : Nat) (D : ℚ) (x : Int) : List Char → Prop
  | positional (q : Positional) (tidy : q.Tidy) (low : -4 ≤ x) (high : x < p) (value : q.value = D) :
      GeneralText p D x q.text
  | scientific (q : Positional) (sign : Char) (ds : List Char) (tidy : q.Tidy) (outside : x < -4 ∨ p ≤ x)
      (single : q.whole.length = 1) (exponent : SpellsExponent x sign ds) (value : q.value * 10 ^ x = D) :
      GeneralText p D x (q.text ++ 'e' :: sign :: ds)

/-! ## Rounding -/

/-- **Where a quotient lies halfway**, it is rounded to an even number. -/
theorem even_roundHalfEven (pos : 0 < den) (tie : 2 * |(roundHalfEven num den : ℚ) - num / den| = 1) :
    Even (roundHalfEven num den) := by
  have posQ : (0 : ℚ) < den := by exact_mod_cast pos
  have value : (num / den : ℚ) * den = num := div_mul_cancel₀ _ posQ.ne'
  -- halfway on one side or on the other
  have half : 2 * (den * roundHalfEven num den) = 2 * num + den ∨
      2 * (den * roundHalfEven num den) + den = 2 * num := by
    rcases abs_choice ((roundHalfEven num den : ℚ) - num / den) with above | below
    · left
      rw [above] at tie
      have scaled := congrArg (· * (den : ℚ)) tie
      exact_mod_cast (by linarith : (2 * (den * roundHalfEven num den) : ℚ) = 2 * num + den)
    · right
      rw [below] at tie
      have scaled := congrArg (· * (den : ℚ)) tie
      exact_mod_cast (by linarith : (2 * (den * roundHalfEven num den) + den : ℚ) = 2 * num)
  have split := Nat.div_add_mod num den
  have rest := Nat.mod_lt num pos
  rw [Nat.even_iff]
  unfold roundHalfEven at half ⊢
  dsimp only at half ⊢
  split_ifs at half ⊢ with up
  · rw [Nat.mul_succ] at half
    omega
  · omega

theorem le_roundHalfEven (num den : Nat) : num / den ≤ roundHalfEven num den := by
  unfold roundHalfEven
  dsimp only
  split_ifs
  · exact Nat.le_succ _
  · exact Nat.le_refl _

/-- **The digits of a rounded quotient**, as many as asked for, are those of the number that it rounds to, and the
exponent is of that number. -/
theorem toSignificant_rounded (numPos : 0 < num) (denPos : 0 < den) (pos : 0 < p) :
    ∃ d x, toSignificant num den p = (d, x) ∧ 10 ^ (p - 1) ≤ d ∧ d < 10 ^ p ∧
      RoundedTo p (num / den) (d * 10 ^ (x + 1 - p)) := by
  obtain ⟨least, most⟩ := magnitude_spec numPos denPos
  obtain ⟨num', den', denPos', quotient, many, few, rounded⟩ := exists_scaled numPos denPos pos
  generalize magnitude num den = m at least most quotient rounded
  have unit : (0 : ℚ) < 10 ^ (m + 1 - p) := by positivity
  obtain ⟨near, above⟩ := @roundHalfEven_near num' den' denPos'
  have even := @even_roundHalfEven num' den' denPos'
  have below := le_roundHalfEven num' den'
  generalize roundHalfEven num' den' = k at near above even below rounded
  have error : 2 * |(k : ℚ) * 10 ^ (m + 1 - p) - num / den| = 2 * |(k : ℚ) - num' / den'| * 10 ^ (m + 1 - p) := by
    rw [← quotient, ← sub_mul, abs_mul, abs_of_pos unit, mul_assoc]
  have all : RoundedTo p (num / den) (k * 10 ^ (m + 1 - p)) := by
    refine .digits m k least most ?_ fun tie => even ?_
    · rw [error]
      exact mul_le_of_le_one_left unit.le near
    · rw [error] at tie
      exact (mul_eq_right₀ unit.ne').mp tie
  rw [rounded]
  split_ifs with carry
  · refine ⟨10 ^ (p - 1), m + 1, rfl, Nat.le_refl _, Nat.pow_lt_pow_right (by decide) (by omega), ?_⟩
    -- a digit more, in a unit ten times as large
    have same : ((10 ^ (p - 1) : Nat) : ℚ) * 10 ^ (m + 1 + 1 - p) = k * 10 ^ (m + 1 - p) := by
      rw [carry, ← tens_eq, ← tens_eq, cast_tens, cast_tens, ← zpow_add₀ (by norm_num), ← zpow_add₀ (by norm_num)]
      congr 1
      omega
    rw [same]
    exact all
  · exact ⟨k, m, rfl, by omega, by omega, all⟩

/-- As many digits as there are places make a number with the exponent of the first one. -/
theorem hasExponent_of_digits (many : 10 ^ (p - 1) ≤ d) (few : d < 10 ^ p) (pos : 0 < p) :
    HasExponent (d * 10 ^ (x + 1 - p)) x := by
  have unit : (0 : ℚ) < 10 ^ (x + 1 - p) := by positivity
  have manyQ : (10 : ℚ) ^ ((p - 1 : Nat) : Int) ≤ d := by
    rw [zpow_natCast]
    exact_mod_cast many
  have fewQ : (d : ℚ) < 10 ^ (p : Int) := by
    rw [zpow_natCast]
    exact_mod_cast few
  refine .inr ⟨?_, ?_⟩
  · have first : (10 : ℚ) ^ x = 10 ^ ((p - 1 : Nat) : Int) * 10 ^ (x + 1 - p) := by
      rw [← zpow_add₀ (by norm_num)]
      congr 1
      omega
    rw [first]
    exact mul_le_mul_of_nonneg_right manyQ unit.le
  · have next : (10 : ℚ) ^ (x + 1) = 10 ^ (p : Int) * 10 ^ (x + 1 - p) := by
      rw [← zpow_add₀ (by norm_num)]
      congr 1
      omega
    rw [next]
    exact mul_lt_mul_of_pos_right fewQ unit

/-! ## Digits -/

/-- **The digits of a number do not begin with a zero**, but for zero itself. -/
theorem head_digits (pos : 0 < n) : (digits n).head? ≠ some '0' := by
  intro zero
  obtain ⟨ds, cons⟩ : ∃ ds, digits n = '0' :: ds := by
    cases all : digits n with
    | nil =>
      rw [all] at zero
      cases zero
    | cons c ds =>
      rw [all] at zero
      exact ⟨ds, by rw [Option.some.inj zero]⟩
  -- what is behind the zero would stand for as much, with a digit less
  have rest : AreDigits ds := fun c hc => areDigits_digits n c (cons ▸ List.mem_cons_of_mem _ hc)
  have value : ofDigits ds = n := by
    rw [← ofDigits_digits n, cons, ofDigits_cons, Nat.sub_self, Nat.mul_zero, Nat.zero_add]
  have small := ofDigits_lt rest
  have large := width_le pos
  rw [width, cons, List.length_cons, Nat.add_sub_cancel] at large
  omega

/-- A number of as many digits as asked for has none in front. -/
theorem width_of_digits (many : 10 ^ (p - 1) ≤ d) (few : d < 10 ^ p) (pos : 0 < p) : width d = p := by
  have most := (width_le_iff pos).mpr few
  have some : 0 < d := Nat.lt_of_lt_of_le (Nat.pow_pos (by decide)) many
  have least := lt_width d
  have least := (Nat.pow_lt_pow_iff_right (by decide : 1 < 10)).mp (Nat.lt_of_le_of_lt many least)
  omega

theorem padded_eq (p d : Nat) : padded p d = zeros (p - width d) ++ digits d := rfl

theorem padded_of_width_le (h : p ≤ width d) : padded p d = digits d := by
  rw [padded_eq, Nat.sub_eq_zero_of_le h]
  rfl

/-! ## Layout -/

/-- **Trimmed, a fraction does not end in a zero.** -/
theorem Positional.getLast?_trimmed (q : Positional) : q.trimmed.fraction.getLast? ≠ some '0' := by
  intro zero
  rw [trimmed, List.getLast?_reverse] at zero
  have := List.head?_dropWhile_not (· == '0') q.fraction.reverse
  rw [zero] at this
  cases this

/-- **Digits placed around a point and trimmed** have no superfluous zeros, if they do not begin with one that would
stand before others. -/
theorem tidy_place {ds : List Char} (digits : AreDigits ds) (some : ds ≠ []) {point : Int}
    (first : ds.head? ≠ Option.some '0' ∨ point ≤ 1) : (place ds point).trimmed.Tidy where
  toValid := (valid_place digits point).trimmed
  last := (place ds point).getLast?_trimmed
  first := by
    obtain ⟨d, ds, rfl⟩ := List.exists_cons_of_ne_nil some
    change (place (d :: ds) point).whole = ['0'] ∨ (place (d :: ds) point).whole.head? ≠ Option.some '0'
    unfold place
    split
    next => exact .inl rfl
    next positive =>
      obtain ⟨n, hn⟩ := Nat.exists_eq_succ_of_ne_zero (show point.toNat ≠ 0 by omega)
      dsimp only
      rw [hn, List.take_succ_cons, List.length_cons]
      rcases first with other | one
      · exact .inr other
      · -- the one digit before the point may be a zero
        have single : n = 0 := by omega
        subst single
        rw [List.take_zero, show Nat.succ 0 - (ds.length + 1) = 0 by omega]
        by_cases zero : d = '0'
        · exact .inl (by rw [zero]; rfl)
        · exact .inr fun same => zero (Option.some.inj same)

/-- **An exponent is spelled** with two digits, or with as many as it has. -/
theorem spellsExponent_exponentText (x : Int) : ∃ sign ds, exponentText x = sign :: ds ∧ SpellsExponent x sign ds := by
  have length : (padded 2 x.natAbs).length = 2 - width x.natAbs + width x.natAbs := by
    rw [padded_eq, List.length_append, zeros, List.length_replicate]
    rfl
  refine ⟨_, padded 2 x.natAbs, rfl, rfl, areDigits_padded 2 _, by omega, fun more => ?_, ofDigits_padded 2 _⟩
  have wide : 2 < width x.natAbs := by omega
  have some : 0 < x.natAbs := by
    rcases Nat.eq_zero_or_pos x.natAbs with zero | pos
    · rw [zero] at wide
      exact absurd wide (by decide)
    · exact pos
  rw [padded_of_width_le (Nat.le_of_lt wide)]
  exact head_digits some

/-- **The digits of a number are laid out** as its text has to be. -/
theorem generalText_layout (pos : 0 < p) (few : d < 10 ^ p) (first : 10 ^ (p - 1) ≤ d ∨ d = 0 ∧ x = 0) :
    GeneralText p (d * 10 ^ (x + 1 - p)) x (layout p (padded p d) x) := by
  have digits := areDigits_padded p d
  have length := length_padded pos few
  have some : padded p d ≠ [] := fun none => by
    rw [none] at length
    exact Nat.ne_of_gt pos length.symm
  unfold layout leastPositional
  split
  next outside =>
    obtain ⟨sign, ds, text, exponent⟩ := spellsExponent_exponentText x
    rw [text]
    refine .scientific _ sign ds (tidy_place digits some (.inr (Int.le_refl 1))) outside ?_ exponent ?_
    · change (place (padded p d) 1).whole.length = 1
      rw [place, if_neg (by decide)]
      simp only [List.length_append, List.length_take, zeros, List.length_replicate, length]
      omega
    · rw [Positional.value_trimmed, value_place, ofDigits_padded, length, mul_assoc, ← zpow_add₀ (by norm_num),
        show (1 - p + x : Int) = x + 1 - p by omega]
  next inside =>
    refine .positional _ (tidy_place digits some ?_) (by omega) (by omega) ?_
    · rcases first with many | ⟨-, rfl⟩
      · left
        rw [padded_of_width_le (Nat.le_of_eq (width_of_digits many few pos).symm)]
        exact head_digits (Nat.lt_of_lt_of_le (Nat.pow_pos (by decide)) many)
      · exact .inr (Int.le_refl 1)
    · rw [Positional.value_trimmed, value_place, ofDigits_padded, length]

/-- **A rank to some significant digits**: the number written is its value rounded, and the text is one of that
number. -/
theorem generalText_significantDigits (pos : 0 < p) (rank : Nat) :
    ∃ D, RoundedTo p (quanta rank / quantaPerOne) D ∧ HasExponent D (significantExponent p rank) ∧
      GeneralText p D (significantExponent p rank) (significantDigits p rank) := by
  have one : 0 < quantaPerOne := by exact_mod_cast quantaPerOne_pos
  rcases Nat.eq_zero_or_pos (quanta rank) with zero | value
  · have rounded : toSignificant (quanta rank) quantaPerOne p = (0, 0) := if_pos zero
    have text := generalText_layout (d := 0) (x := 0) pos (Nat.pow_pos (by decide)) (.inr ⟨rfl, rfl⟩)
    rw [Nat.cast_zero, zero_mul] at text
    refine ⟨0, ?_, .inl ⟨rfl, ?_⟩, ?_⟩
    · rw [zero, Nat.cast_zero, zero_div]
      exact .zero
    · rw [significantExponent, rounded]
    · simp only [significantExponent, significantDigits, rounded]
      exact text
  · obtain ⟨d, x, rounded, many, few, nearest⟩ := toSignificant_rounded value one pos
    simp only [significantExponent, significantDigits, rounded]
    exact ⟨_, nearest, hasExponent_of_digits many few pos, generalText_layout pos few (.inl many)⟩

end Formula.Decimal
