import Formula.Proofs.Decimal.Denotes

/-!
# Significant digits — seventeen of them read back

A quotient rounded to some digits is within half a unit of the last one, whether or not the rounding carries
into one more digit (`toSignificant_spec`). So with seventeen digits or more the text of a rank denotes it, in
either layout (`denotes_significantDigits`).
-/

namespace Formula.Decimal

open Binary64

variable {p rank : Nat}

theorem length_padded {n : Nat} (pos : 0 < p) (h : n < 10 ^ p) : (padded p n).length = p := by
  have fits : (digits n).length ≤ p := (width_le_iff pos).mpr h
  rw [padded, List.length_append, zeros, List.length_replicate]
  omega

theorem ofDigits_padded (p n : Nat) : ofDigits (padded p n) = n := by
  rw [padded, ofDigits_zeros_append, ofDigits_digits]

theorem areDigits_padded (p n : Nat) : AreDigits (padded p n) := (areDigits_zeros _).append (areDigits_digits _)

/-- In units of the `p`-th digit a number has `p` digits before the point. -/
theorem digits_of_scaled {num den : Nat} {x : Int} {v : ℚ} (denPos : 0 < den) (pos : 0 < p)
    (quotient : (num / den : ℚ) * 10 ^ (x + 1 - p) = v) (least : 10 ^ x ≤ v) (most : v < 10 ^ (x + 1)) :
    10 ^ (p - 1) ≤ num / den ∧ num / den < 10 ^ p := by
  have unit : (0 : ℚ) < 10 ^ (x + 1 - p) := by positivity
  have denQ : (0 : ℚ) < den := by exact_mod_cast denPos
  rw [Nat.le_div_iff_mul_le denPos, Nat.div_lt_iff_lt_mul denPos]
  constructor
  · rw [← quotient, show x = ((p - 1 : Nat) : Int) + (x + 1 - p) by omega, zpow_add₀ (by norm_num), zpow_natCast,
      show ((p - 1 : Nat) : Int) + (x + 1 - p) + 1 - p = x + 1 - p by omega] at least
    have least := le_of_mul_le_mul_right least unit
    rw [le_div_iff₀ denQ] at least
    exact_mod_cast least
  · rw [← quotient, show x + 1 = (p : Int) + (x + 1 - p) by omega, zpow_add₀ (by norm_num), zpow_natCast,
      show (p : Int) + (x + 1 - p) - p = x + 1 - p by omega] at most
    have most := lt_of_mul_lt_mul_right most unit.le
    rw [div_lt_iff₀ denQ] at most
    exact_mod_cast most

/-- **A quotient in units of its `p`-th digit** is rounded to the digits, and where they are one more than `p` they are
a one and zeros, of which one is left out. -/
theorem exists_scaled {num den : Nat} (numPos : 0 < num) (denPos : 0 < den) (pos : 0 < p) :
    ∃ num' den' : Nat, 0 < den' ∧ (num' / den' : ℚ) * 10 ^ (magnitude num den + 1 - p) = num / den ∧
      10 ^ (p - 1) ≤ num' / den' ∧ num' / den' < 10 ^ p ∧
      toSignificant num den p = if roundHalfEven num' den' = 10 ^ p then (10 ^ (p - 1), magnitude num den + 1)
        else (roundHalfEven num' den', magnitude num den) := by
  obtain ⟨least, most⟩ := magnitude_spec numPos denPos
  unfold toSignificant
  rw [if_neg (Nat.ne_of_gt numPos)]
  dsimp only
  generalize magnitude num den = x at least most
  have denPos' : 0 < den * tens (-(p - 1 - x : Int)).toNat := Nat.mul_pos denPos (tens_pos _)
  have quotient : ((num * tens (p - 1 - x : Int).toNat : Nat) / (den * tens (-(p - 1 - x : Int)).toNat : Nat) : ℚ) *
      10 ^ (x + 1 - p) = num / den := by
    rw [scaled_div_scaled, mul_assoc, ← zpow_add₀ (by norm_num), show (p - 1 - x + (x + 1 - p) : Int) = 0 by omega,
      zpow_zero, mul_one]
  obtain ⟨many, few⟩ := digits_of_scaled denPos' pos quotient least most
  exact ⟨_, _, denPos', quotient, many, few, rfl⟩

/-- **A quotient rounded to significant digits** is within half a unit of the last digit, of which there are as
many as asked for; the exponent moves up by one at most. -/
theorem toSignificant_spec {num den : Nat} (numPos : 0 < num) (denPos : 0 < den) (pos : 0 < p) :
    ∃ d x, toSignificant num den p = (d, x) ∧ d < 10 ^ p ∧
      2 * |d * 10 ^ (x + 1 - p) - (num / den : ℚ)| ≤ 10 ^ (magnitude num den + 1 - p) ∧
      (x = magnitude num den ∨ x = magnitude num den + 1) := by
  obtain ⟨num', den', denPos', quotient, -, few, rounded⟩ := exists_scaled numPos denPos pos
  generalize magnitude num den = x at quotient rounded ⊢
  have unit : (0 : ℚ) < 10 ^ (x + 1 - p) := by positivity
  obtain ⟨near, above⟩ := @roundHalfEven_near num' den' denPos'
  generalize roundHalfEven num' den' = d at near above rounded
  have near : 2 * |d * 10 ^ (x + 1 - p) - (num / den : ℚ)| ≤ 10 ^ (x + 1 - p) := by
    rw [← quotient, ← sub_mul, abs_mul, abs_of_pos unit, ← mul_assoc]
    exact mul_le_of_le_one_left unit.le near
  rw [rounded]
  split_ifs with carry
  · refine ⟨10 ^ (p - 1), x + 1, rfl, Nat.pow_lt_pow_right (by decide) (by omega), ?_, .inr rfl⟩
    -- a digit more, in a unit ten times as large
    have same : ((10 ^ (p - 1) : Nat) : ℚ) * 10 ^ (x + 1 + 1 - p) = d * 10 ^ (x + 1 - p) := by
      rw [carry, ← tens_eq, ← tens_eq, cast_tens, cast_tens, ← zpow_add₀ (by norm_num), ← zpow_add₀ (by norm_num)]
      congr 1
      omega
    rw [same]
    exact near
  · exact ⟨d, x, rfl, by omega, near, .inl rfl⟩

/-- The exponent of a finite value is small. -/
theorem magnitude_bounds (pos : 0 < rank) (finite : rank < infinityRank) :
    -325 < magnitude (quanta rank) quantaPerOne ∧ magnitude (quanta rank) quantaPerOne < 309 := by
  have one : 0 < quantaPerOne := by exact_mod_cast quantaPerOne_pos
  have value : 0 < quanta rank := Nat.lt_of_le_of_lt (Nat.zero_le _) (quanta_strictMono pos)
  obtain ⟨low, high⟩ := magnitude_spec value one
  have itself : (quanta rank / quantaPerOne : ℚ) * quantaPerOne = quanta rank :=
    div_mul_cancel₀ _ quantaPerOne_pos.ne'
  have valueQ : (0 : ℚ) < quanta rank := by exact_mod_cast value
  have close : |(quanta rank / quantaPerOne : ℚ) * quantaPerOne - quanta rank| * 2 ^ 54 < quanta rank := by
    rw [itself, sub_self, abs_zero, zero_mul]
    exact valueQ
  obtain ⟨least, most⟩ := bounds_of_roundsTo pos finite (.of_close close)
  have above : -324 < magnitude (quanta rank) quantaPerOne + 1 :=
    (zpow_lt_zpow_iff_right₀ (by norm_num)).mp (lt_trans least high)
  have below : magnitude (quanta rank) quantaPerOne < 309 :=
    (zpow_lt_zpow_iff_right₀ (by norm_num)).mp (lt_of_le_of_lt low most)
  exact ⟨by omega, below⟩

/-- **A value to seventeen digits or more reads as its rank.** -/
theorem readsAs_toSignificant (seventeen : 17 ≤ p) (finite : rank < infinityRank) :
    ∃ d x, toSignificant (quanta rank) quantaPerOne p = (d, x) ∧ d < 10 ^ p ∧ x.natAbs < exponentCap ∧
      ReadsAs (d * 10 ^ (x + 1 - p)) rank := by
  rcases Nat.eq_zero_or_pos rank with rfl | pos
  · refine ⟨0, 0, ?_, Nat.pow_pos (by decide), by decide, .inl ⟨rfl, ?_⟩⟩
    · rw [toSignificant, if_pos quanta_zero]
    · rw [Nat.cast_zero, zero_mul]
  · have one : 0 < quantaPerOne := by exact_mod_cast quantaPerOne_pos
    have value : 0 < quanta rank := Nat.lt_of_le_of_lt (Nat.zero_le _) (quanta_strictMono pos)
    obtain ⟨d, x, rounded, few, near, exponent⟩ := toSignificant_spec value one (show 0 < p by omega)
    obtain ⟨low, high⟩ := magnitude_bounds pos finite
    have least := (magnitude_spec value one).1
    generalize magnitude (quanta rank) quantaPerOne = m at near exponent low high least
    have small : x.natAbs < exponentCap := by
      rw [exponentCap]
      omega
    refine ⟨d, x, rounded, few, small, .inr ⟨pos, ?_⟩⟩
    have unit : (0 : ℚ) < 10 ^ (m + 1 - p) * quantaPerOne := mul_pos (by positivity) quantaPerOne_pos
    refine .of_seventeen unit ?_ ?_
    · rw [le_div_iff₀ quantaPerOne_pos] at least
      refine le_trans ?_ least
      rw [← mul_assoc, ← zpow_natCast, ← zpow_add₀ (by norm_num)]
      refine mul_le_mul_of_nonneg_right ?_ quantaPerOne_pos.le
      exact zpow_le_zpow_right₀ (by norm_num) (by omega)
    · have itself : (quanta rank / quantaPerOne : ℚ) * quantaPerOne = quanta rank :=
        div_mul_cancel₀ _ quantaPerOne_pos.ne'
      rw [← itself, ← sub_mul, abs_mul, abs_of_pos quantaPerOne_pos, ← mul_assoc]
      exact mul_le_mul_of_nonneg_right near quantaPerOne_pos.le

/-- **Seventeen significant digits or more denote their rank**, in either layout. -/
theorem denotes_significantDigits (seventeen : 17 ≤ p) (finite : rank < infinityRank) :
    Denotes (significantDigits p rank) rank := by
  obtain ⟨d, x, rounded, few, small, reads⟩ := readsAs_toSignificant seventeen finite
  have digits := areDigits_padded p d
  have length := length_padded (show 0 < p by omega) few
  have text : significantDigits p rank = layout p (padded p d) x := by
    simp only [significantDigits, rounded]
  rw [text, layout]
  split
  · refine denotes_written (valid_place digits 1).trimmed (x := some x) (fun _ h => Option.some.inj h ▸ small) finite ?_
    rw [Positional.value_trimmed, value_place, ofDigits_padded, length, mul_assoc, Option.getD_some,
      ← zpow_add₀ (by norm_num), show (1 - p + x : Int) = x + 1 - p by omega]
    exact reads
  · have plain : (place (padded p d) (x + 1)).trimmed.text = written (place (padded p d) (x + 1)).trimmed none :=
      (List.append_nil _).symm
    rw [plain]
    refine denotes_written (valid_place digits _).trimmed (fun _ h => nomatch h) finite ?_
    rw [Positional.value_trimmed, value_place, ofDigits_padded, length, Option.getD_none, zpow_zero, mul_one]
    exact reads

/-- With 65532 digits and fewer there is room for every layout. -/
theorem layoutFits_of_le (few : p + 3 ≤ maxPlaces) : layoutFits p rank = true := by
  have asked : placesAsked p (significantExponent p rank) ≤ p + 3 := by
    unfold placesAsked leastPositional
    split <;> omega
  simp only [layoutFits, Bool.and_eq_true, decide_eq_true_eq]
  omega

end Formula.Decimal
