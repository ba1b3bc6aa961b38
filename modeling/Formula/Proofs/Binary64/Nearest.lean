import Mathlib.Algebra.Order.Archimedean.Basic
import Mathlib.Algebra.Order.Field.Rat
import Mathlib.Tactic.Linarith
import Mathlib.Tactic.Positivity
import Mathlib.Tactic.Ring
import Formula.Proofs.Binary64.Bits

/-!
# Nearest doubles — which numbers round to a rank

The numbers that round to a rank reach half the way to the values of the ranks beside it, and include the
half-way points when the rank is even: `RoundsTo`. The rank nearest to a number is the rank that the number
rounds to (`nearestRank_eq`), at the ends of blocks and below the least normal double as anywhere else.

The relative spacing of the values is at most 2⁻⁵³ of the value above (`quanta_succ_le`), so whatever is
closer to a value than 2⁻⁵⁴ of it rounds to its rank (`RoundsTo.of_close`).
-/

namespace Formula.Binary64

variable {rank rank' block m : Nat} {x : ℚ}

/-! ## Values of ranks -/

theorem quanta_of_lt (h : rank < 2 * blockSize) : quanta rank = rank := if_pos h

theorem quanta_zero : quanta 0 = 0 := quanta_of_lt (by rw [blockSize_eq]; exact Nat.two_pow_pos 53)

/-- **Within a block values are multiples of the spacing**, from its first rank on up to the first of the block
above. The ranks below the first block have a spacing of one as well. -/
theorem quanta_block (least : block = 0 ∨ blockSize ≤ m) (most : m ≤ 2 * blockSize) :
    quanta (block * blockSize + m) = m * 2 ^ block := by
  have size := blockSize_pos
  rcases Nat.lt_or_eq_of_le most with inner | rfl
  · rcases Nat.eq_zero_or_pos block with rfl | above
    · rw [Nat.zero_mul, Nat.zero_add, quanta_of_lt inner, Nat.pow_zero, Nat.mul_one]
    · have least : blockSize ≤ m := least.resolve_left (Nat.ne_of_gt above)
      have rank_eq : block * blockSize + m = (m - blockSize) + blockSize * (block + 1) := by
        rw [Nat.mul_add, Nat.mul_comm blockSize block]
        omega
      have large : ¬ block * blockSize + m < 2 * blockSize := by
        have := Nat.mul_le_mul_right blockSize above
        omega
      have place : (block * blockSize + m) % blockSize = m - blockSize := by
        rw [rank_eq, Nat.add_mul_mod_self_left, Nat.mod_eq_of_lt (by omega)]
      have number : (block * blockSize + m) / blockSize = block + 1 := by
        rw [rank_eq, Nat.add_mul_div_left _ _ size, Nat.div_eq_of_lt (by omega), Nat.zero_add]
      rw [quanta, if_neg large, place, number, Nat.add_sub_cancel, Nat.add_sub_cancel' least,
        Nat.shiftLeft_eq]
  · -- the first rank of the block above
    have rank_eq : block * blockSize + 2 * blockSize = (block + 2) * blockSize := by ring
    have large : ¬ (block + 2) * blockSize < 2 * blockSize :=
      Nat.not_lt.mpr (Nat.mul_le_mul_right _ (Nat.le_add_left 2 block))
    rw [rank_eq, quanta, if_neg large, Nat.mul_mod_left, Nat.mul_div_cancel _ size, Nat.shiftLeft_eq,
      Nat.add_zero, show block + 2 - 1 = block + 1 by omega]
    ring

/-- **Every rank has a place in a block.** -/
theorem exists_block (rank : Nat) :
    ∃ block m, (block = 0 ∨ blockSize ≤ m) ∧ m < 2 * blockSize ∧ rank = block * blockSize + m := by
  have size := blockSize_pos
  by_cases small : rank < 2 * blockSize
  · exact ⟨0, rank, .inl rfl, small, by rw [Nat.zero_mul, Nat.zero_add]⟩
  · have above : 2 ≤ rank / blockSize := (Nat.le_div_iff_mul_le size).mpr (Nat.not_lt.mp small)
    have place : rank % blockSize < blockSize := Nat.mod_lt rank size
    obtain ⟨block, hblock⟩ : ∃ block, rank / blockSize = block + 1 := ⟨rank / blockSize - 1, by omega⟩
    have split := Nat.div_add_mod rank blockSize
    rw [hblock, Nat.mul_add, Nat.mul_one, Nat.mul_comm] at split
    exact ⟨block, blockSize + rank % blockSize, .inr (Nat.le_add_right _ _), by omega, by omega⟩

/-- **The next value is one spacing above**, and the spacing is at least 2⁻⁵³ of it. -/
theorem exists_spacing (rank : Nat) :
    ∃ spacing, 0 < spacing ∧ quanta (rank + 1) = quanta rank + spacing ∧ quanta (rank + 1) ≤ 2 ^ 53 * spacing := by
  obtain ⟨block, m, least, most, rfl⟩ := exists_block rank
  have next : quanta (block * blockSize + m + 1) = (m + 1) * 2 ^ block := by
    rw [Nat.add_assoc]
    exact quanta_block (least.imp id Nat.le_succ_of_le) most
  refine ⟨2 ^ block, Nat.two_pow_pos block, ?_, ?_⟩
  · rw [next, quanta_block least (Nat.le_of_lt most), Nat.add_mul, Nat.one_mul]
  · rw [next]
    rw [blockSize_eq] at most
    exact Nat.mul_le_mul_right _ (by omega)

theorem quanta_lt_succ (rank : Nat) : quanta rank < quanta (rank + 1) := by
  obtain ⟨spacing, pos, next, -⟩ := exists_spacing rank
  omega

theorem quanta_strictMono (h : rank < rank') : quanta rank < quanta rank' := by
  induction h with
  | refl => exact quanta_lt_succ rank
  | step _ ih => exact Nat.lt_trans ih (quanta_lt_succ _)

theorem quanta_mono (h : rank ≤ rank') : quanta rank ≤ quanta rank' := by
  rcases Nat.lt_or_eq_of_le h with h | rfl
  · exact Nat.le_of_lt (quanta_strictMono h)
  · exact Nat.le_refl _

/-- **The spacing of values is at least 2⁻⁵³ of the value above.** -/
theorem quanta_succ_le (rank : Nat) : (quanta (rank + 1) : ℚ) ≤ 2 ^ 53 * (quanta (rank + 1) - quanta rank) := by
  obtain ⟨spacing, -, next, wide⟩ := exists_spacing rank
  have wide : (quanta (rank + 1) : ℚ) ≤ 2 ^ 53 * spacing := by exact_mod_cast wide
  have next : (quanta (rank + 1) : ℚ) - quanta rank = spacing := by
    rw [next]
    push_cast
    ring
  rw [next]
  exact wide

/-! ## What rounds to a rank -/

/-- **A number of quanta rounds to a rank**: it lies between the half-way points to the ranks beside it, and on
one of them only when the rank is even. -/
structure RoundsTo (rank : Nat) (x : ℚ) : Prop where
  low : (quanta (rank - 1) + quanta rank : ℚ) ≤ 2 * x
  high : 2 * x ≤ quanta rank + quanta (rank + 1)
  inside : rank % 2 = 1 → (quanta (rank - 1) + quanta rank : ℚ) < 2 * x ∧ 2 * x < quanta rank + quanta (rank + 1)

/-- **What lies strictly between the half-way points** rounds to the rank. -/
theorem RoundsTo.of_inside (low : (quanta (rank - 1) + quanta rank : ℚ) < 2 * x)
    (high : 2 * x < quanta rank + quanta (rank + 1)) : RoundsTo rank x :=
  ⟨low.le, high.le, fun _ => ⟨low, high⟩⟩

/-- **What is closer to a value than 2⁻⁵⁴ of it rounds to its rank.** -/
theorem RoundsTo.of_close (close : |x - quanta rank| * 2 ^ 54 < quanta rank) : RoundsTo rank x := by
  have below : (quanta rank - x) * 2 ^ 54 < quanta rank :=
    lt_of_le_of_lt (mul_le_mul_of_nonneg_right (by rw [← neg_sub]; exact neg_le_abs _) (by positivity)) close
  have above : (x - quanta rank) * 2 ^ 54 < quanta rank :=
    lt_of_le_of_lt (mul_le_mul_of_nonneg_right (le_abs_self _) (by positivity)) close
  have nonneg : (0 : ℚ) ≤ |x - quanta rank| * 2 ^ 54 := by positivity
  have pos : (0 : ℚ) < quanta rank := lt_of_le_of_lt nonneg close
  obtain ⟨pred, rfl⟩ : ∃ pred, rank = pred + 1 := by
    refine Nat.exists_eq_succ_of_ne_zero ?_
    rintro rfl
    rw [quanta_zero] at pos
    exact absurd pos (by norm_num)
  rw [show (2 : ℚ) ^ 54 = 2 * 2 ^ 53 by norm_num] at below above
  have wideBelow := quanta_succ_le pred
  have wideAbove := quanta_succ_le (pred + 1)
  have more : (quanta (pred + 1) : ℚ) < quanta (pred + 1 + 1) := by exact_mod_cast quanta_lt_succ (pred + 1)
  refine .of_inside ?_ ?_
  · rw [Nat.add_sub_cancel]
    linarith
  · linarith

/-- **Seventeen digits suffice**: what is within half a unit of the last of seventeen digits of a value rounds to
its rank. -/
theorem RoundsTo.of_seventeen {unit : ℚ} (pos : 0 < unit) (digits : 10 ^ 16 * unit ≤ quanta rank)
    (near : 2 * |x - quanta rank| ≤ unit) : RoundsTo rank x := by
  refine .of_close ?_
  have enough : (2 : ℚ) ^ 53 < 10 ^ 16 := by norm_num
  calc
    |x - quanta rank| * 2 ^ 54 = 2 ^ 53 * (2 * |x - quanta rank|) := by ring
    _ ≤ 2 ^ 53 * unit := mul_le_mul_of_nonneg_left near (by positivity)
    _ < 10 ^ 16 * unit := mul_lt_mul_of_pos_right enough pos
    _ ≤ quanta rank := digits

/-- **A number from zero up lies between two values** that stand beside each other. -/
theorem exists_values_around (nonneg : 0 ≤ x) : ∃ rank, (quanta rank : ℚ) ≤ x ∧ x < quanta (rank + 1) := by
  have large : ∃ rank, x < quanta rank := by
    obtain ⟨n, less⟩ := exists_nat_gt x
    have above : n ≤ quanta n := (strictMono_nat_of_lt_succ quanta_lt_succ).le_apply
    exact ⟨n, lt_of_lt_of_le less (by exact_mod_cast above)⟩
  -- one before the least rank whose value is above
  have least {k : Nat} (less : k < Nat.find large) : ¬ x < quanta k := Nat.find_min large less
  have above := Nat.find_spec large
  generalize Nat.find large = rank at least above
  cases rank with
  | zero =>
    rw [quanta_zero, Nat.cast_zero] at above
    exact absurd above (not_lt.mpr nonneg)
  | succ rank => exact ⟨rank, not_lt.mp (least (Nat.lt_succ_self rank)), above⟩

/-- **Every number from zero up rounds to a rank**: to the nearer one of the two around it, and to the even one in
the middle. -/
theorem exists_roundsTo (nonneg : 0 ≤ x) : ∃ rank, RoundsTo rank x := by
  obtain ⟨rank, low, high⟩ := exists_values_around nonneg
  have before : (quanta (rank - 1) : ℚ) ≤ quanta rank := by exact_mod_cast quanta_mono (Nat.sub_le rank 1)
  have after : (quanta (rank + 1) : ℚ) < quanta (rank + 1 + 1) := by exact_mod_cast quanta_lt_succ (rank + 1)
  have down (half : 2 * x ≤ quanta rank + quanta (rank + 1))
      (inside : rank % 2 = 1 → 2 * x < quanta rank + quanta (rank + 1)) : RoundsTo rank x := by
    refine ⟨by linarith, half, fun odd => ⟨?_, inside odd⟩⟩
    have less : (quanta (rank - 1) : ℚ) < quanta rank := by
      exact_mod_cast quanta_strictMono (show rank - 1 < rank by omega)
    linarith
  have up (half : quanta rank + quanta (rank + 1) ≤ 2 * x)
      (inside : (rank + 1) % 2 = 1 → quanta rank + quanta (rank + 1) < 2 * x) : RoundsTo (rank + 1) x :=
    ⟨half, by linarith, fun odd => ⟨inside odd, by linarith⟩⟩
  rcases lt_trichotomy (2 * x) (quanta rank + quanta (rank + 1)) with less | middle | more
  · exact ⟨rank, down less.le fun _ => less⟩
  · rcases Nat.mod_two_eq_zero_or_one rank with even | odd
    · exact ⟨rank, down middle.le fun odd => absurd odd (by omega)⟩
    · exact ⟨rank + 1, up middle.ge fun odd => absurd odd (by omega)⟩
  · exact ⟨rank + 1, up more.le fun _ => more⟩

/-- What lies below a value rounds to its rank or to a lower one. -/
theorem RoundsTo.le_of_lt (h : RoundsTo rank x) (below : x < quanta rank') : rank ≤ rank' := by
  by_contra beyond
  have before : (quanta rank' : ℚ) ≤ quanta (rank - 1) := by exact_mod_cast quanta_mono (show rank' ≤ rank - 1 by omega)
  have step : (quanta (rank - 1) : ℚ) ≤ quanta rank := by exact_mod_cast quanta_mono (Nat.sub_le rank 1)
  linarith [h.low]

/-! ## The nearest rank -/

/-- The rounding of a quotient, by the bounds on it times twice the divisor. -/
theorem roundHalfEven_of_bounds {num den : Nat} (low : 2 * (den * m) ≤ 2 * num + den) (high : 2 * num ≤ 2 * (den * m) + den)
    (inside : m % 2 = 1 → 2 * (den * m) < 2 * num + den ∧ 2 * num < 2 * (den * m) + den) (pos : 0 < den) :
    roundHalfEven num den = m := by
  have split := Nat.div_add_mod num den
  have rest := Nat.mod_lt num pos
  unfold roundHalfEven
  dsimp only
  generalize num / den = q at split ⊢
  generalize num % den = r at split rest ⊢
  -- the quotient cut off is the rounded one, or one less
  have most : q ≤ m := by
    by_contra beyond
    have := Nat.mul_le_mul_left den (show m + 1 ≤ q by omega)
    rw [Nat.mul_succ] at this
    omega
  have least : m ≤ q + 1 := by
    by_contra under
    have := Nat.mul_le_mul_left den (show q + 2 ≤ m by omega)
    rw [Nat.mul_add] at this
    omega
  rcases (show m = q ∨ m = q + 1 by omega) with rfl | rfl
  · rw [if_neg (by omega)]
  · rw [Nat.mul_succ] at low high inside
    rw [if_pos (by omega)]

/-- **The rounding of a quotient** is the number that it lies half a unit around, the even one at both ends. -/
theorem roundHalfEven_eq {num den : Nat} (pos : 0 < den) (low : (2 * m : ℚ) ≤ 2 * (num / den) + 1)
    (high : (2 * (num / den) : ℚ) ≤ 2 * m + 1)
    (inside : m % 2 = 1 → (2 * m : ℚ) < 2 * (num / den) + 1 ∧ (2 * (num / den) : ℚ) < 2 * m + 1) :
    roundHalfEven num den = m := by
  have posQ : (0 : ℚ) < den := by exact_mod_cast pos
  have value : (num / den : ℚ) * den = num := div_mul_cancel₀ _ posQ.ne'
  refine roundHalfEven_of_bounds ?_ ?_ (fun odd => ?_) pos
  · have low := mul_le_mul_of_nonneg_right low posQ.le
    exact_mod_cast (by linarith : (2 * (den * m) : ℚ) ≤ 2 * num + den)
  · have high := mul_le_mul_of_nonneg_right high posQ.le
    exact_mod_cast (by linarith : (2 * num : ℚ) ≤ 2 * (den * m) + den)
  · obtain ⟨low, high⟩ := inside odd
    have low := mul_lt_mul_of_pos_right low posQ
    have high := mul_lt_mul_of_pos_right high posQ
    exact ⟨by exact_mod_cast (by linarith : (2 * (den * m) : ℚ) < 2 * num + den),
      by exact_mod_cast (by linarith : (2 * num : ℚ) < 2 * (den * m) + den)⟩

/-- **A rounded quotient is no further than half from the quotient**, and above the quotient cut off by one at
most. -/
theorem roundHalfEven_near {num den : Nat} (pos : 0 < den) :
    2 * |(roundHalfEven num den : ℚ) - num / den| ≤ 1 ∧ roundHalfEven num den ≤ num / den + 1 := by
  have posQ : (0 : ℚ) < den := by exact_mod_cast pos
  have bounds : 2 * (den * roundHalfEven num den) ≤ 2 * num + den ∧
      2 * num ≤ 2 * (den * roundHalfEven num den) + den ∧ roundHalfEven num den ≤ num / den + 1 := by
    have split := Nat.div_add_mod num den
    have rest := Nat.mod_lt num pos
    unfold roundHalfEven
    dsimp only
    split_ifs with up
    · rw [Nat.mul_succ]
      omega
    · omega
  refine ⟨?_, bounds.2.2⟩
  have low : (2 * (den * roundHalfEven num den) : ℚ) ≤ 2 * num + den := by exact_mod_cast bounds.1
  have high : (2 * num : ℚ) ≤ 2 * (den * roundHalfEven num den) + den := by exact_mod_cast bounds.2.1
  have value : (num / den : ℚ) * den = num := div_mul_cancel₀ _ posQ.ne'
  generalize (num / den : ℚ) = x at value
  rw [← value] at low high
  have near : |(roundHalfEven num den : ℚ) - x| ≤ 1 / 2 := by
    rw [abs_le]
    constructor
    · refine le_of_mul_le_mul_right ?_ posQ
      linarith
    · refine le_of_mul_le_mul_right ?_ posQ
      linarith
  linarith

/-- The block in which the rank nearest to a quotient is looked for has the quotient in it. -/
theorem bounds_of_block {num den : Nat} (pos : 0 < den) (h : block = Nat.log2 (num / den) - 52) :
    (block = 0 ∨ (blockSize * 2 ^ block : ℚ) ≤ num / den) ∧ (num / den : ℚ) < 2 * blockSize * 2 ^ block := by
  have posQ : (0 : ℚ) < den := by exact_mod_cast pos
  constructor
  · rcases Nat.eq_zero_or_pos block with none | some
    · exact .inl none
    · right
      have nonzero : num / den ≠ 0 := by
        intro zero
        rw [zero, Nat.log2_zero] at h
        omega
      have least : 2 ^ (52 + block) ≤ num / den := by
        rw [show 52 + block = Nat.log2 (num / den) by omega]
        exact Nat.log2_self_le nonzero
      have least := (Nat.le_div_iff_mul_le pos).mp least
      rw [le_div_iff₀ posQ, blockSize_eq]
      rw [Nat.pow_add] at least
      exact_mod_cast least
  · have most : num / den < 2 ^ (53 + block) :=
      Nat.lt_of_lt_of_le Nat.lt_log2_self (Nat.pow_le_pow_right Nat.two_pos (by omega))
    have most := (Nat.div_lt_iff_lt_mul pos).mp most
    rw [div_lt_iff₀ posQ, blockSize_eq]
    rw [Nat.pow_add, show 2 ^ 53 = 2 * 2 ^ 52 from rfl] at most
    exact_mod_cast most

/-- A rank that a number rounds to is in the block of the number. -/
theorem RoundsTo.exists_place (h : RoundsTo rank x) (least : block = 0 ∨ (blockSize * 2 ^ block : ℚ) ≤ x)
    (most : x < 2 * blockSize * 2 ^ block) :
    ∃ m, rank = block * blockSize + m ∧ (block = 0 ∨ blockSize ≤ m) ∧ m ≤ 2 * blockSize := by
  have size : blockSize ≤ 2 * blockSize := by omega
  have lower : block = 0 ∨ block * blockSize + blockSize ≤ rank := by
    refine least.imp id fun least => Nat.not_lt.mp fun under => ?_
    -- below the block even the next value is too small
    have value : quanta (block * blockSize + blockSize) = blockSize * 2 ^ block :=
      quanta_block (.inr (Nat.le_refl _)) size
    have next := quanta_mono (show rank + 1 ≤ block * blockSize + blockSize from under)
    rw [value] at next
    have next : (quanta (rank + 1) : ℚ) ≤ blockSize * 2 ^ block := by exact_mod_cast next
    have step : (quanta rank : ℚ) < quanta (rank + 1) := by exact_mod_cast quanta_lt_succ rank
    linarith [h.high]
  have upper : rank ≤ block * blockSize + 2 * blockSize := by
    refine Nat.not_lt.mp fun beyond => ?_
    have value : quanta (block * blockSize + 2 * blockSize) = 2 * blockSize * 2 ^ block :=
      quanta_block (.inr size) (Nat.le_refl _)
    have before := quanta_mono (show block * blockSize + 2 * blockSize ≤ rank - 1 by omega)
    rw [value] at before
    have before : (2 * blockSize * 2 ^ block : ℚ) ≤ quanta (rank - 1) := by exact_mod_cast before
    have step : (quanta (rank - 1) : ℚ) ≤ quanta rank := by exact_mod_cast quanta_mono (Nat.sub_le rank 1)
    linarith [h.low]
  refine ⟨rank - block * blockSize, ?_, ?_, by omega⟩
  · rcases lower with rfl | lower <;> omega
  · exact lower.imp id fun lower => by omega

/-- A rank is the first of its block, or has one before it in the block. -/
theorem least_or_pred (h : block = 0 ∨ blockSize ≤ m) :
    (block = 0 ∧ m = 0) ∨ (block ≠ 0 ∧ m = blockSize) ∨ ∃ k, m = k + 1 ∧ (block = 0 ∨ blockSize ≤ k) := by
  by_cases none : block = 0
  · rcases m with - | k
    · exact .inl ⟨none, rfl⟩
    · exact .inr (.inr ⟨k, rfl, .inl none⟩)
  · have least := h.resolve_left none
    have size := blockSize_pos
    rcases Nat.lt_or_eq_of_le least with least | rfl
    · exact .inr (.inr ⟨m - 1, by omega, .inr (by omega)⟩)
    · exact .inr (.inl ⟨none, rfl⟩)

/-- A rank of a block is as even as its place. -/
theorem parity_of_place (block m : Nat) : (block * blockSize + m) % 2 = m % 2 := by
  have even : blockSize = 2 * 2 ^ 51 := blockSize_eq.trans (Nat.pow_succ' : 2 ^ 52 = 2 * 2 ^ 51)
  rw [even, Nat.mul_left_comm, Nat.mul_add_mod]

/-- **Below a value** the next one is a spacing away, or a number of the block is more than half of that above it. -/
theorem spacing_below (nonneg : 0 ≤ x) (least : block = 0 ∨ (blockSize * 2 ^ block : ℚ) ≤ x)
    (inner : block = 0 ∨ blockSize ≤ m) (outer : m ≤ 2 * blockSize) :
    (2 * (m * 2 ^ block) : ℚ) < 2 * x + 2 ^ block ∨
      (quanta (block * blockSize + m - 1) : ℚ) = m * 2 ^ block - 2 ^ block := by
  have scale : (0 : ℚ) < 2 ^ block := by positivity
  rcases least_or_pred inner with ⟨-, first⟩ | ⟨some, first⟩ | ⟨k, rfl, least⟩
  · left
    rw [first, Nat.cast_zero]
    linarith
  · left
    have least := least.resolve_left some
    rw [first]
    linarith
  · right
    have before : (quanta (block * blockSize + k) : ℚ) = k * 2 ^ block := by
      exact_mod_cast quanta_block least (by omega)
    rw [← Nat.add_assoc, Nat.add_sub_cancel, before]
    push_cast
    ring

/-- **Above a value** the next one is a spacing away, or a number of the block is less than half of that below it. -/
theorem spacing_above (most : x < 2 * blockSize * 2 ^ block) (inner : block = 0 ∨ blockSize ≤ m)
    (outer : m ≤ 2 * blockSize) :
    (2 * x : ℚ) < 2 * (m * 2 ^ block) + 2 ^ block ∨
      (quanta (block * blockSize + m + 1) : ℚ) = m * 2 ^ block + 2 ^ block := by
  have scale : (0 : ℚ) < 2 ^ block := by positivity
  rcases Nat.lt_or_eq_of_le outer with outer | last
  · right
    have after : (quanta (block * blockSize + (m + 1)) : ℚ) = (m + 1 : Nat) * 2 ^ block := by
      exact_mod_cast quanta_block (inner.imp id Nat.le_succ_of_le) outer
    rw [Nat.add_assoc, after]
    push_cast
    ring
  · left
    rw [last]
    push_cast
    linarith

/-- **The rank nearest to a number is the one that it rounds to.** -/
theorem nearestRank_eq {num den : Nat} (pos : 0 < den) (h : RoundsTo rank (num / den)) :
    nearestRank num den = rank := by
  unfold nearestRank
  dsimp only
  generalize hblock : Nat.log2 (num / den) - 52 = block
  obtain ⟨least, most⟩ := bounds_of_block pos hblock.symm
  obtain ⟨m, rfl, inner, outer⟩ := h.exists_place least most
  have scale : (0 : ℚ) < 2 ^ block := by positivity
  have value : (quanta (block * blockSize + m) : ℚ) = m * 2 ^ block := by exact_mod_cast quanta_block inner outer
  have below := spacing_below (by positivity) least inner outer
  have above := spacing_above most inner outer
  have low := h.low
  have high := h.high
  have inside := h.inside
  rw [value] at low high inside
  rw [parity_of_place] at inside
  have quotient : (num / (den <<< block : Nat) : ℚ) = num / den / 2 ^ block := by
    rw [Nat.shiftLeft_eq, div_div]
    push_cast
    rfl
  refine congrArg (block * blockSize + ·) (roundHalfEven_eq ?_ ?_ ?_ ?_)
  · rw [Nat.shiftLeft_eq]
    exact Nat.mul_pos pos (Nat.two_pow_pos block)
  all_goals rw [quotient]
  · rw [← sub_le_iff_le_add, mul_div_assoc', le_div_iff₀ scale]
    rcases below with below | before <;> linarith
  · rw [mul_div_assoc', div_le_iff₀ scale]
    rcases above with above | after <;> linarith
  · intro odd
    obtain ⟨low, high⟩ := inside odd
    rw [← sub_lt_iff_lt_add, mul_div_assoc', lt_div_iff₀ scale, div_lt_iff₀ scale]
    constructor
    · rcases below with below | before <;> linarith
    · rcases above with above | after <;> linarith

/-- **The double nearest to a quotient** is that of the rank that the quotient rounds to. -/
theorem ofRatio_eq {num den : Nat} (negative : Bool) (pos : 0 < den) (finite : rank ≤ infinityRank)
    (h : RoundsTo rank ((num / den : ℚ) * quantaPerOne)) : ofRatio negative num den = ofRank negative rank := by
  have quotient : ((num * quantaPerOne : Nat) / den : ℚ) = (num / den : ℚ) * quantaPerOne := by
    push_cast
    ring
  rw [← quotient] at h
  rw [ofRatio, nearestRank_eq pos h, Nat.min_eq_right finite]

/-- **The double of a whole number is the nearest one**, and finite, as far as the greatest double goes. -/
theorem exists_ofInt_eq {n : Nat} (small : n * quantaPerOne < quanta (infinityRank - 1)) :
    ∃ rank < infinityRank, RoundsTo rank (n * quantaPerOne) ∧ ofInt n = ofRank false rank := by
  have nonneg : (0 : ℚ) ≤ n * quantaPerOne := mul_nonneg (Nat.cast_nonneg n) (Nat.cast_nonneg quantaPerOne)
  obtain ⟨rank, rounds⟩ := exists_roundsTo nonneg
  have finite : rank ≤ infinityRank - 1 := rounds.le_of_lt (by exact_mod_cast small)
  have lower : infinityRank - 1 < infinityRank := by decide
  refine ⟨rank, Nat.lt_of_le_of_lt finite lower, rounds, ?_⟩
  have plain : decide ((n : Int) < 0) = false := decide_eq_false (by omega)
  rw [ofInt, plain, Int.natAbs_natCast]
  refine ofRatio_eq false Nat.one_pos (Nat.le_trans finite (Nat.sub_le _ 1)) ?_
  rw [Nat.cast_one, div_one]
  exact rounds

end Formula.Binary64
