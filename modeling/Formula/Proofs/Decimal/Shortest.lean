import Formula.Decimal.Shortest
import Formula.Proofs.Decimal.Denotes

/-!
# Shortest decimals — the shortest text of a double reads back

What the search for the shortest decimal takes lies in the range of the numbers that round to the rank
(`roundsTo_of_candidate?`), and with seventeen digits there always is something to take
(`exists_candidate?`): one of the two decimals around a value is no further from it than half a unit of the
last digit, which is less than 2⁻⁵⁴ of the value. So the shortest digits of a rank denote it
(`denotes_shortestDigits`).
-/

namespace Formula.Decimal

open Binary64

variable {rank d : Nat} {e : Int}

/-- A decimal in the unit in which the search compares. -/
theorem two_mul_decimal (d : Nat) (e : Int) :
    2 * (d * 10 ^ e * quantaPerOne : ℚ) * tens (-e).toNat = ((d * (halvesPerOne * tens e.toNat) : Nat) : ℚ) := by
  have scale : (0 : ℚ) < tens (-e).toNat := by exact_mod_cast tens_pos _
  rw [← tens_div_tens, halvesPerOne]
  push_cast
  field_simp

/-- **The comparison of a decimal with the half-way points** tells whether it rounds to the rank. -/
theorem between_iff (rank d : Nat) (e : Int) :
    between (rank % 2 == 0) ((quanta (rank - 1) + quanta rank) * tens (-e).toNat)
        (d * (halvesPerOne * tens e.toNat)) ((quanta rank + quanta (rank + 1)) * tens (-e).toNat) = true ↔
      RoundsTo rank (d * 10 ^ e * quantaPerOne) := by
  have scale : (0 : ℚ) < tens (-e).toNat := by exact_mod_cast tens_pos _
  have le_iff (a : Nat) : a * tens (-e).toNat ≤ d * (halvesPerOne * tens e.toNat) ↔
      (a : ℚ) ≤ 2 * (d * 10 ^ e * quantaPerOne) := by
    rw [← mul_le_mul_iff_of_pos_right scale, two_mul_decimal]
    exact_mod_cast Iff.rfl
  have ge_iff (a : Nat) : d * (halvesPerOne * tens e.toNat) ≤ a * tens (-e).toNat ↔
      2 * (d * 10 ^ e * quantaPerOne : ℚ) ≤ a := by
    rw [← mul_le_mul_iff_of_pos_right scale, two_mul_decimal]
    exact_mod_cast Iff.rfl
  have low := le_iff (quanta (rank - 1) + quanta rank)
  have high := ge_iff (quanta rank + quanta (rank + 1))
  have lowStrict := not_congr (ge_iff (quanta (rank - 1) + quanta rank))
  have highStrict := not_congr (le_iff (quanta rank + quanta (rank + 1)))
  rw [not_le, not_le, Nat.cast_add] at lowStrict highStrict
  rw [Nat.cast_add] at low high
  unfold between
  by_cases even : rank % 2 = 0
  · have odd : ¬ rank % 2 = 1 := by omega
    simp only [even, beq_self_eq_true, if_true, decide_eq_true_eq, low, high]
    exact ⟨fun h => ⟨h.1, h.2, fun h => absurd h odd⟩, fun h => ⟨h.low, h.high⟩⟩
  · have odd : rank % 2 = 1 := by omega
    have ends : (rank % 2 == 0) = false := beq_eq_false_iff_ne.mpr even
    simp only [ends, Bool.false_eq_true, if_false, decide_eq_true_eq, lowStrict, highStrict]
    exact ⟨fun h => .of_inside h.1 h.2, fun h => h.inside odd⟩

/-- **What the search takes rounds to the rank.** -/
theorem roundsTo_of_candidate? (h : candidate? rank e = some d) : RoundsTo rank (d * 10 ^ e * quantaPerOne) := by
  unfold candidate? at h
  dsimp only at h
  split at h
  next below above =>
    split at h
    · exact Option.some.inj h ▸ (between_iff rank _ e).mp below
    · exact Option.some.inj h ▸ (between_iff rank _ e).mp above
  next below _ => exact Option.some.inj h ▸ (between_iff rank _ e).mp below
  next _ above => exact Option.some.inj h ▸ (between_iff rank _ e).mp above
  next => cases h

/-- The decimal just below a value, in units of the last digit. -/
def below (rank : Nat) (e : Int) : Nat := 2 * quanta rank * tens (-e).toNat / (halvesPerOne * tens e.toNat)

/-- **A value lies between the two decimals around it.** -/
theorem bounds_below (rank : Nat) (e : Int) :
    (below rank e * 10 ^ e * quantaPerOne : ℚ) ≤ quanta rank ∧
      (quanta rank : ℚ) < (below rank e + 1) * 10 ^ e * quantaPerOne := by
  have scale : (0 : ℚ) < tens (-e).toNat := by exact_mod_cast tens_pos _
  have unit : 0 < halvesPerOne * tens e.toNat := by
    have pos : 0 < quantaPerOne := by exact_mod_cast quantaPerOne_pos
    exact Nat.mul_pos (Nat.mul_pos Nat.two_pos pos) (tens_pos _)
  have low : below rank e * (halvesPerOne * tens e.toNat) ≤ 2 * quanta rank * tens (-e).toNat :=
    Nat.div_mul_le_self _ _
  have high : 2 * quanta rank * tens (-e).toNat < (below rank e + 1) * (halvesPerOne * tens e.toNat) :=
    (Nat.div_lt_iff_lt_mul unit).mp (Nat.lt_succ_self _)
  have low : ((below rank e * (halvesPerOne * tens e.toNat) : Nat) : ℚ) ≤ 2 * quanta rank * tens (-e).toNat := by
    exact_mod_cast low
  have high : (2 * quanta rank * tens (-e).toNat : ℚ) < (((below rank e + 1) * (halvesPerOne * tens e.toNat) : Nat) : ℚ) := by
    exact_mod_cast high
  rw [← two_mul_decimal] at low high
  have low := le_of_mul_le_mul_right low scale
  have high := lt_of_mul_lt_mul_right high scale.le
  rw [Nat.cast_succ] at high
  exact ⟨by linarith, by linarith⟩

/-- The search takes one of the two decimals around a value when one of them rounds to the rank. -/
theorem candidate?_isSome (h : RoundsTo rank (below rank e * 10 ^ e * quantaPerOne) ∨
    RoundsTo rank ((below rank e + 1 : Nat) * 10 ^ e * quantaPerOne)) : ∃ d, candidate? rank e = some d := by
  rw [← between_iff, ← between_iff] at h
  unfold candidate?
  dsimp only
  split
  next => split <;> exact ⟨_, rfl⟩
  next => exact ⟨_, rfl⟩
  next => exact ⟨_, rfl⟩
  next low high => exact (h.elim (Bool.eq_false_iff.mp low) (Bool.eq_false_iff.mp high)).elim

/-- **With seventeen digits there is a decimal that rounds to the rank.** -/
theorem exists_candidate? (pos : 0 < rank) :
    ∃ d, candidate? rank (magnitude (quanta rank) quantaPerOne - 16) = some d := by
  have value : 0 < quanta rank := by
    have := quanta_strictMono pos
    omega
  have one : 0 < quantaPerOne := by exact_mod_cast quantaPerOne_pos
  obtain ⟨least, -⟩ := magnitude_spec value one
  generalize magnitude (quanta rank) quantaPerOne = x at least
  rw [le_div_iff₀ quantaPerOne_pos] at least
  -- the unit of the last digit is less than the value by sixteen powers of ten
  have digits : (10 : ℚ) ^ 16 * (10 ^ (x - 16) * quantaPerOne) ≤ quanta rank := by
    rw [← mul_assoc, ← zpow_natCast, ← zpow_add₀ (by norm_num), show ((16 : Nat) : Int) + (x - 16) = x by omega]
    exact least
  have unit : (0 : ℚ) < 10 ^ (x - 16) * quantaPerOne := mul_pos (by positivity) quantaPerOne_pos
  obtain ⟨low, high⟩ := bounds_below rank (x - 16)
  refine candidate?_isSome ?_
  rw [mul_assoc] at low high
  rw [mul_assoc, mul_assoc, Nat.cast_succ]
  generalize (10 : ℚ) ^ (x - 16) * quantaPerOne = u at low high unit digits
  -- the nearer of the two is within half a unit
  rcases le_total (2 * (quanta rank - below rank (x - 16) * u)) u with near | far
  · refine .inl (.of_seventeen unit digits ?_)
    rw [abs_of_nonpos (by linarith)]
    linarith
  · refine .inr (.of_seventeen unit digits ?_)
    rw [abs_of_nonneg (by linarith)]
    linarith

/-- **The search finds a decimal that rounds to the rank** when there is one within its reach. -/
theorem roundsTo_search {more : Nat} (found : ∃ k < more, ∃ d, candidate? rank (e - k) = some d) :
    RoundsTo rank ((search rank more e).coefficient * 10 ^ (search rank more e).exponent * quantaPerOne) := by
  -- on the digits that are left to try
  induction more generalizing e with
  | zero =>
    obtain ⟨k, impossible, -⟩ := found
    exact absurd impossible (Nat.not_lt_zero k)
  | succ more ih =>
    unfold search
    cases here : candidate? rank e with
    | some d => exact roundsTo_of_candidate? here
    | none =>
      refine ih ?_
      obtain ⟨k, reach, d, later⟩ := found
      cases k with
      | zero =>
        rw [Nat.cast_zero, sub_zero, here] at later
        cases later
      | succ k => exact ⟨k, by omega, d, by rw [← later]; congr 1; omega⟩

/-- **The shortest decimal of a rank rounds to it.** -/
theorem roundsTo_shortest (pos : 0 < rank) :
    RoundsTo rank ((shortest rank).coefficient * 10 ^ (shortest rank).exponent * quantaPerOne) :=
  roundsTo_search ⟨16, by decide, exists_candidate? pos⟩

/-- **The shortest digits of a rank denote it.** -/
theorem denotes_shortestDigits (finite : rank < infinityRank) : Denotes (shortestDigits rank) rank := by
  have plain (p : Positional) : p.text = written p none := (List.append_nil _).symm
  unfold shortestDigits
  split
  next zero =>
    subst zero
    have valid : Positional.Valid ⟨['0'], []⟩ := by
      refine ⟨List.cons_ne_nil _ _, ?_, fun _ h => nomatch h⟩
      intro c hc
      rw [List.mem_singleton.mp hc]
      rfl
    refine denotes_written (p := ⟨['0'], []⟩) (x := none) valid (fun _ h => nomatch h) finite (.inl ⟨rfl, ?_⟩)
    simp [Positional.value, ofDigits]
  next nonzero =>
    have pos : 0 < rank := Nat.pos_of_ne_zero nonzero
    dsimp only
    rw [plain]
    refine denotes_written ((valid_place (areDigits_digits _) _).trimmed) (fun _ h => nomatch h) finite
      (.inr ⟨pos, ?_⟩)
    have rounds := roundsTo_shortest pos
    rw [Positional.value_trimmed, value_place, ofDigits_digits, width, add_sub_cancel_left, Option.getD_none, zpow_zero,
      mul_one]
    exact rounds

end Formula.Decimal
