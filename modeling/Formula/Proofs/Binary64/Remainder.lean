import Formula.Proofs.Binary64.Nearest

/-!
# Remainders — exact, without rounding

The remainder of two values is a value. Either the dividend is the lesser one and is left as it is, or both are
multiples of the divisor's spacing: then so is the remainder, and being less than the divisor it is a multiple
that a rank stands for (`exists_quanta_mod`). A value rounds to its own rank, so the double that `remainder`
makes of it is the remainder itself, with the sign of the dividend, which a zero has too (`view_remainder`).

A dividend less than the divisor comes back as it is, and every finite one is less than an infinity
(`remainder_of_lt`). What is left has no remainder (`view_remainder_eq_nan_iff`).

**What it does not say.** The sum, the difference, the product and the quotient of two doubles round. They are
those of the doubles themselves and have no second account here.
-/

namespace Formula.Binary64

variable {rank a b block m : Nat} {x y : Float} {negative other : Bool}

/-- **A value rounds to its own rank.** -/
theorem RoundsTo.self (rank : Nat) : RoundsTo rank (quanta rank) := by
  have before : (quanta (rank - 1) : ℚ) ≤ quanta rank := by exact_mod_cast quanta_mono (Nat.sub_le rank 1)
  have after : (quanta rank : ℚ) < quanta (rank + 1) := by exact_mod_cast quanta_lt_succ rank
  refine ⟨by linarith, by linarith, fun odd => ⟨?_, by linarith⟩⟩
  have less : (quanta (rank - 1) : ℚ) < quanta rank := by
    exact_mod_cast quanta_strictMono (show rank - 1 < rank by omega)
  linarith

/-- The double of a value is that of its rank. -/
theorem ofQuanta_quanta (finite : rank ≤ infinityRank) : ofQuanta negative (quanta rank) = ofRank negative rank := by
  have nearest : nearestRank (quanta rank) 1 = rank := by
    refine nearestRank_eq Nat.one_pos ?_
    rw [Nat.cast_one, div_one]
    exact .self rank
  rw [ofQuanta, nearest, Nat.min_eq_right finite]

/-! ## Multiples of a spacing -/

/-- **What is less than two blocks' sizes of some spacing is a value.** -/
theorem exists_quanta_eq (most : m < 2 * blockSize) (block : Nat) : ∃ rank, quanta rank = m * 2 ^ block := by
  induction block generalizing m with
  | zero => exact ⟨m, by rw [quanta_of_lt most, Nat.pow_zero, Nat.mul_one]⟩
  | succ block ih =>
    rcases Nat.lt_or_ge m blockSize with small | large
    -- half the spacing will do
    · obtain ⟨rank, value⟩ := ih (show 2 * m < 2 * blockSize by omega)
      exact ⟨rank, by rw [value, Nat.pow_succ]; ring⟩
    · exact ⟨_, quanta_block (.inr large) (Nat.le_of_lt most)⟩

/-- **From a rank on, all values are multiples of its spacing.** -/
theorem dvd_quanta (least : block = 0 ∨ blockSize ≤ m) (above : block * blockSize + m ≤ rank) :
    2 ^ block ∣ quanta rank := by
  obtain ⟨block', m', least', most', rfl⟩ := exists_block rank
  rw [quanta_block least' (Nat.le_of_lt most')]
  refine Dvd.dvd.mul_left (Nat.pow_dvd_pow 2 ?_) m'
  rcases least with rfl | least
  · exact Nat.zero_le _
  · by_contra lower
    have := Nat.mul_le_mul_right blockSize (show block' + 1 ≤ block by omega)
    rw [Nat.add_mul, Nat.one_mul] at this
    omega

/-- **The remainder of two values is a value**, of a rank no higher than that of the dividend. -/
theorem exists_quanta_mod (a : Nat) (nonzero : b ≠ 0) : ∃ c ≤ a, quanta c = quanta a % quanta b := by
  obtain ⟨c, value⟩ : ∃ c, quanta c = quanta a % quanta b := by
    rcases Nat.lt_or_ge a b with less | above
    · exact ⟨a, (Nat.mod_eq_of_lt (quanta_strictMono less)).symm⟩
    · obtain ⟨block, m, least, most, rfl⟩ := exists_block b
      have pos : 0 < m := by
        rcases least with rfl | least
        · omega
        · exact Nat.lt_of_lt_of_le blockSize_pos least
      obtain ⟨k, multiple⟩ := dvd_quanta least above
      rw [multiple, quanta_block least (Nat.le_of_lt most), Nat.mul_comm, Nat.mul_mod_mul_right]
      exact exists_quanta_eq (Nat.lt_trans (Nat.mod_lt k pos) most) block
  refine ⟨c, Nat.not_lt.mp fun higher => ?_, value⟩
  have := quanta_strictMono higher
  have := Nat.mod_le (quanta a) (quanta b)
  omega

/-! ## Remainders of doubles -/

/-- **A remainder is exact**: the remainder of the two values, with the sign of the dividend. -/
theorem view_remainder (dividend : view x = .finite negative a) (divisor : view y = .finite other b) (nonzero : b ≠ 0) :
    ∃ c ≤ a, view (remainder x y) = .finite negative c ∧ quanta c = quanta a % quanta b := by
  obtain ⟨c, lower, value⟩ := exists_quanta_mod a nonzero
  have finite : c < infinityRank := Nat.lt_of_le_of_lt lower (view_eq_finite dividend).1
  refine ⟨c, lower, ?_, value⟩
  rw [remainder, dividend, divisor]
  dsimp only
  rw [if_neg nonzero, ← value, ofQuanta_quanta (Nat.le_of_lt finite), view_ofRank finite]

-- the sign is that of the dividend, also for a zero
example : view (remainder (-7.5) 2) = view (-1.5) ∧ view (remainder (-6) 2) = view (-0) := by decide +kernel

/-- What a double amounts to without its sign, if it is a number: an infinity is above all the finite ones. -/
def View.rank? : View → Option Nat
  | nan => none
  | infinite _ => some infinityRank
  | finite _ rank => some rank

/-- **A dividend that is less than the divisor is the remainder itself**, bit for bit. -/
theorem remainder_of_lt (dividend : view x = .finite negative a) (divisor : (view y).rank? = some b) (less : a < b) :
    remainder x y = x := by
  rw [remainder, dividend]
  cases seen : view y with
  | nan =>
    rw [seen] at divisor
    cases divisor
  | infinite _ => rfl
  | finite _ rank =>
    rw [seen] at divisor
    obtain rfl : rank = b := Option.some.inj divisor
    have nonzero : rank ≠ 0 := Nat.ne_of_gt (Nat.zero_lt_of_lt less)
    dsimp only
    rw [if_neg nonzero, Nat.mod_eq_of_lt (quanta_strictMono less),
      ofQuanta_quanta (Nat.le_of_lt (view_eq_finite dividend).1), ofRank_of_view dividend]

theorem view_nan : view nan = .nan := by decide +kernel

/-- **Where there is no remainder**: the dividend is not finite, or the divisor is zero or not a number. -/
theorem view_remainder_eq_nan_iff :
    view (remainder x y) = .nan ↔
      (∀ negative a, view x ≠ .finite negative a) ∨ (view y).rank? = none ∨ (view y).rank? = some 0 := by
  cases dividend : view x with
  | nan => simp [remainder, dividend, view_nan]
  | infinite _ => simp [remainder, dividend, view_nan]
  | finite negative a =>
    cases divisor : view y with
    | nan => simp [remainder, dividend, divisor, view_nan, View.rank?]
    | infinite _ => simp [remainder, dividend, divisor, View.rank?, infinityRank_eq]
    | finite _ b =>
      rcases Nat.eq_zero_or_pos b with rfl | pos
      · simp [remainder, dividend, divisor, view_nan, View.rank?]
      · obtain ⟨c, -, seen, -⟩ := view_remainder dividend divisor (Nat.ne_of_gt pos)
        simp [seen, View.rank?, Nat.ne_of_gt pos]

end Formula.Binary64
