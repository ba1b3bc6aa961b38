import Formula.Proofs.Binary64.Nearest

/-!
# Powers of two — what products and quotients of doubles do not fall below

Rounding never crosses a power of two, since those are values themselves. So where two positive doubles are no
less than `2 ^ j` and `2 ^ k` their product is no less than `2 ^ (j + k)`, whether it is rounded or overflows
(`AtLeast.mul`); and where a whole number is at least twice another, the quotient of their doubles is no less
than two (`atLeast_ratio`), although all three are rounded.

A product or a quotient has a mantissa of more bits than a double keeps. It is shifted down to 53 bits, rounded,
and shifted once more where the rounding carries; `exists_round` says what is left: 53 bits, and no lower
leading bit than before.
-/

namespace Formula.Binary64

open Float.Model UnpackedFloat

variable {rank rank' m j k : Nat} {e : Int} {x y : Float}

/-! ## Ranks of powers of two -/

/-- The rank of `2 ^ k`. -/
def powerRank (k : Nat) : Nat := (1023 + k) * blockSize

theorem quanta_powerRank (k : Nat) : quanta (powerRank k) = 2 ^ k * quantaPerOne := by
  have place : powerRank k = (1022 + k) * blockSize + blockSize := by
    rw [← Nat.succ_mul, powerRank]
    congr 1
    omega
  have unit : quantaPerOne = blockSize <<< 1022 := by decide +kernel
  rw [place, quanta_block (.inr (Nat.le_refl _)) (Nat.le_mul_of_pos_left _ Nat.two_pos), unit, Nat.shiftLeft_eq,
    Nat.add_comm, Nat.pow_add, Nat.mul_left_comm]

/-- **A positive double no less than `2 ^ k`**, infinity among them. -/
def AtLeast (k : Nat) (x : Float) : Prop :=
  ∃ rank, min infinityRank (powerRank k) ≤ rank ∧ rank ≤ infinityRank ∧ x = ofRank false rank

/-! ## Doubles unpacked and packed -/

theorem finite_congr {sign : UnpackedFloat.Sign} {m m' : Nat} {e e' : Int} {pos : 0 < m} {pos' : 0 < m'}
    (mantissa : m = m') (exponent : e = e') : UnpackedFloat.finite sign m e pos = .finite sign m' e' pos' := by
  subst mantissa exponent
  rfl

/-- **A normal double** has the mantissa and the exponent that its rank says. -/
theorem unpack_ofRank (normal : blockSize ≤ rank) (finite : rank < infinityRank) :
    ∃ pos, (ofRank false rank).toModel.unpack =
      .finite .positive (blockSize + rank % blockSize) ((rank / blockSize : Nat) - 1075) pos := by
  have size := blockSize_eq
  have pos : 0 < blockSize + rank % blockSize := by omega
  refine ⟨pos, ?_⟩
  have whole : (bits (ofRank false rank).toModel).toNat = rank := toNat_bits_ofRank (Nat.le_of_lt finite)
  have unpacked : (ofRank false rank).toModel.unpack =
      UnpackedFloat.unpack .binary64 (bits (ofRank false rank).toModel) := rfl
  rw [unpacked]
  generalize bits (ofRank false rank).toModel = b at whole
  rw [infinityRank_eq] at finite
  have sign := toNat_unpackSign b
  have exponent := toNat_unpackExponent b
  have mantissa := toNat_unpackMantissa b
  rw [whole] at exponent mantissa sign
  have top : unpackExponent b ≠ -1#_ := by
    intro top
    rw [top] at exponent
    have all : BitVec.toNat (-1#_ : BitVec Format.binary64.exponentBits) = 2047 := rfl
    omega
  have bottom : unpackExponent b ≠ 0#_ := by
    intro bottom
    rw [bottom] at exponent
    have none : BitVec.toNat (0#_ : BitVec Format.binary64.exponentBits) = 0 := rfl
    omega
  have positive : unpackSign b = 0#1 := by
    apply BitVec.eq_of_toNat_eq
    rw [sign, BitVec.toNat_ofNat]
    omega
  unfold UnpackedFloat.unpack
  dsimp only
  rw [if_neg top, if_neg bottom, positive]
  refine finite_congr ?_ ?_
  · rw [toNat_implicit, mantissa, size, Nat.one_shiftLeft]
  · rw [exponent, size]
    change ((rank / 2 ^ 52 % 2 ^ 11 : Nat) : Int) - (1023 + 52) = _
    omega

theorem unpack_infinity : (ofRank false infinityRank).toModel.unpack = .infinity .positive := rfl

/-- The bits of a positive double, by its exponent and mantissa. -/
theorem toNat_packComponents (e : BitVec Format.binary64.exponentBits)
    (m : BitVec Format.binary64.mantissaBitsWithoutImplicit) :
    (packComponents .binary64 .positive e m).toNat = e.toNat * 2 ^ 52 + m.toNat := by
  have sign := toNat_unpackSign (packComponents .binary64 .positive e m)
  have exponent := toNat_unpackExponent (packComponents .binary64 .positive e m)
  have mantissa := toNat_unpackMantissa (packComponents .binary64 .positive e m)
  rw [Formula.Binary64.unpackSign_packComponents] at sign
  rw [unpackExponent_packComponents] at exponent
  rw [unpackMantissa_packComponents] at mantissa
  have positive : UnpackedFloat.Sign.positive.toBitVec.toNat = 0 := rfl
  omega

/-- **A mantissa of 53 bits packs** to the double of the rank that its exponent and it make, or to infinity. -/
theorem pack_eq_ofRank (long : m.log2 = 52) (normal : -1074 ≤ e) (pos : 0 < m) :
    Float.ofModel (Float.Model.pack (.finite .positive m e pos)) =
      ofRank false (min infinityRank ((e + 1074).toNat * blockSize + m)) := by
  obtain ⟨low, high⟩ := (Nat.log2_eq_iff (Nat.ne_of_gt pos)).mp long
  obtain ⟨block, rfl⟩ : ∃ block : Nat, e = block - 1074 := ⟨(e + 1074).toNat, by omega⟩
  have place : ((block : Int) - 1074 + 1074).toNat = block := by omega
  have biased : ((block : Int) - 1074 + 1023 + 52).toNat = block + 1 := by omega
  have within := Nat.min_le_left infinityRank (block * blockSize + m)
  rw [place]
  refine congrArg Float.ofModel
    (eq_of_bits_eq ?_ : _ = (ofRank false (min infinityRank (block * blockSize + m))).toModel)
  rw [bits_ofRank within]
  apply BitVec.eq_of_toNat_eq
  change (UnpackedFloat.pack .binary64 (.finite .positive m (block - 1074) pos)).toNat = (rankBits false _).toNat
  rw [toNat_rankBits within, infinityRank_eq, blockSize_eq, if_neg Bool.false_ne_true, Nat.add_zero]
  unfold UnpackedFloat.pack
  change (if 2 ^ 11 ≤ ((block : Int) - 1074 + 1023 + 52).toNat + 1 then packComponents .binary64 .positive (-1#11) 0#52
    else if m.log2 + 1 = 53 then
      packComponents .binary64 .positive (BitVec.ofNat 11 ((block : Int) - 1074 + 1023 + 52).toNat) (BitVec.ofNat 52 m)
    else _).toNat = _
  rw [biased]
  split
  next overflows =>
    have large : 2047 * 2 ^ 52 ≤ block * 2 ^ 52 + m := by omega
    rw [Nat.min_eq_left large, toNat_packComponents]
    rfl
  next =>
    have small : block * 2 ^ 52 + m ≤ 2047 * 2 ^ 52 := by omega
    rw [if_pos (show m.log2 + 1 = 53 by rw [long]), Nat.min_eq_right small, toNat_packComponents, BitVec.toNat_ofNat,
      BitVec.toNat_ofNat]
    change (block + 1) % 2 ^ 11 * 2 ^ 52 + m % 2 ^ 52 = _
    omega

/-! ## Rounding -/

/-- What a mantissa is shifted to. -/
theorem mantissa_shiftRight (em : ExtendedMantissa) (n : Nat) : (em >>> n).mantissa = em.mantissa / 2 ^ n := by
  change (n.repeat ExtendedMantissa.shiftRightOne em).mantissa = _
  induction n with
  | zero => rw [Nat.pow_zero, Nat.div_one]; rfl
  | succ n ih =>
    rw [Nat.repeat, Nat.pow_succ, ← Nat.div_div_eq_div_mul, ← ih]
    rfl

theorem mantissa_ofMantissaAndAccuracy (m : Nat) (accuracy : Accuracy) :
    (ExtendedMantissa.ofMantissaAndAccuracy m accuracy).mantissa = m := by
  unfold ExtendedMantissa.ofMantissaAndAccuracy
  split <;> rfl

/-- **A mantissa is rounded** to itself or to the next one. -/
theorem roundedMantissa_cases (em : ExtendedMantissa) :
    em.roundedMantissa = em.mantissa ∨ em.roundedMantissa = em.mantissa + 1 := by
  unfold ExtendedMantissa.roundedMantissa Accuracy.roundToNearestEven
  split
  · exact .inl rfl
  · exact .inl rfl
  · omega
  · exact .inr rfl

/-- **A mantissa of 53 bits or more is shifted** until 53 bits are left. -/
theorem exists_shift (long : 52 ≤ m.log2) (normal : -1022 ≤ m.log2 + e) (accuracy : Accuracy) :
    ∃ em, shiftToTargetExponent .binary64 m e accuracy = (em, m.log2 + e - 52) ∧
      em.mantissa = m / 2 ^ (m.log2 - 52) := by
  have target : Format.binary64.targetExponent (totalExponent m e) = m.log2 + e - 52 := by
    change max ((m.log2 : Int) + 1 + e - 53) (-1074) = _
    omega
  have shift : (m.log2 + e - 52 - e).toNat = m.log2 - 52 := by omega
  refine ⟨ExtendedMantissa.ofMantissaAndAccuracy m accuracy >>> (m.log2 - 52), ?_, ?_⟩
  · rw [shiftToTargetExponent, target, shiftToExponent, shift]
    refine congrArg (Prod.mk _) ?_
    omega
  · rw [mantissa_shiftRight, mantissa_ofMantissaAndAccuracy]

/-- What is left of a mantissa that was shifted to 53 bits. -/
theorem bounds_shifted (long : 52 ≤ m.log2) : 2 ^ 52 ≤ m / 2 ^ (m.log2 - 52) ∧ m / 2 ^ (m.log2 - 52) < 2 ^ 53 := by
  have nonzero : m ≠ 0 := by
    rintro rfl
    rw [Nat.log2_zero] at long
    omega
  obtain ⟨low, high⟩ := (Nat.log2_eq_iff nonzero).mp rfl
  have scale : 0 < 2 ^ (m.log2 - 52) := Nat.two_pow_pos _
  constructor
  · rw [Nat.le_div_iff_mul_le scale, ← Nat.pow_add, show 52 + (m.log2 - 52) = m.log2 by omega]
    exact low
  · rw [Nat.div_lt_iff_lt_mul scale, ← Nat.pow_add, show 53 + (m.log2 - 52) = m.log2 + 1 by omega]
    exact high

/-- **What rounding leaves**: 53 bits, and no lower leading bit. -/
theorem exists_round (long : 52 ≤ m.log2) (normal : -1022 ≤ m.log2 + e) (sign : UnpackedFloat.Sign)
    (accuracy : Accuracy) :
    ∃ m' e' pos, roundWithAccuracy .binary64 sign m e accuracy = .finite sign m' e' pos ∧ m'.log2 = 52 ∧
      m.log2 + e ≤ 52 + e' := by
  obtain ⟨em, first, mantissa⟩ := exists_shift long normal accuracy
  obtain ⟨low, high⟩ := bounds_shifted long
  rw [← mantissa] at low high
  have rounded := roundedMantissa_cases em
  have nonzero : em.roundedMantissa ≠ 0 := by omega
  have long' : 52 ≤ em.roundedMantissa.log2 := (Nat.le_log2 nonzero).mpr (by omega)
  -- where the rounding carries one more bit has to go
  obtain ⟨em', second, mantissa'⟩ := @exists_shift em.roundedMantissa (m.log2 + e - 52) long' (by omega) .exact
  obtain ⟨low', high'⟩ := bounds_shifted long'
  rw [← mantissa'] at low' high'
  have pos : 0 < em'.mantissa := by omega
  refine ⟨em'.mantissa, em.roundedMantissa.log2 + (m.log2 + e - 52) - 52, pos, ?_, ?_, by omega⟩
  · unfold roundWithAccuracy
    rw [first]
    dsimp only
    rw [second]
    exact dif_neg (Nat.ne_of_gt pos)
  · exact (Nat.log2_eq_iff (Nat.ne_of_gt pos)).mpr ⟨low', high'⟩

/-- **A rounded number** is no less than a power of two that is no more than its leading bit. -/
theorem atLeast_round (long : 52 ≤ m.log2) (leading : k ≤ m.log2 + e) (accuracy : Accuracy) :
    AtLeast k (Float.ofModel (Float.Model.pack (roundWithAccuracy .binary64 .positive m e accuracy))) := by
  have normal : -1022 ≤ m.log2 + e := by omega
  obtain ⟨m', e', pos, rounded, long', kept⟩ := exists_round long normal .positive accuracy
  obtain ⟨low, -⟩ := (Nat.log2_eq_iff (Nat.ne_of_gt pos)).mp long'
  rw [rounded, pack_eq_ofRank long' (by omega) pos]
  refine ⟨_, ?_, Nat.min_le_left _ _, rfl⟩
  refine Nat.le_min.mpr ⟨Nat.min_le_left _ _, Nat.le_trans (Nat.min_le_right _ _) ?_⟩
  rw [powerRank, blockSize_eq]
  omega

/-! ## Products -/

/-- A double no less than a power of two is infinite, or it has a mantissa of 53 bits. -/
theorem AtLeast.unpack (h : AtLeast k x) :
    x.toModel.unpack = .infinity .positive ∨
      ∃ m e pos, x.toModel.unpack = .finite .positive m e pos ∧ m.log2 = 52 ∧ k ≤ 52 + e := by
  obtain ⟨rank, least, most, rfl⟩ := h
  rcases Nat.lt_or_eq_of_le most with finite | rfl
  · have power : powerRank k ≤ rank := by omega
    rw [powerRank] at power
    have size := blockSize_pos
    have normal : blockSize ≤ rank := Nat.le_trans (Nat.le_mul_of_pos_left _ (by omega)) power
    have block : 1023 + k ≤ rank / blockSize := (Nat.le_div_iff_mul_le size).mpr power
    have place : rank % blockSize < blockSize := Nat.mod_lt rank size
    obtain ⟨pos, unpacked⟩ := unpack_ofRank normal finite
    refine .inr ⟨_, _, pos, unpacked, ?_, by omega⟩
    rw [blockSize_eq] at place ⊢
    exact (Nat.log2_eq_iff (by omega)).mpr (by omega)
  · exact .inl unpack_infinity

theorem atLeast_infinity (k : Nat) : AtLeast k (Float.ofModel (Float.Model.pack (.infinity .positive))) :=
  ⟨infinityRank, Nat.min_le_left _ _, Nat.le_refl _, rfl⟩

/-- **A product is no less than the product of the powers of two** that its factors are no less than. -/
theorem AtLeast.mul (hx : AtLeast j x) (hy : AtLeast k y) : AtLeast (j + k) (x * y) := by
  change AtLeast (j + k) (Float.ofModel (Float.Model.pack
    (UnpackedFloat.mul .binary64 x.toModel.unpack y.toModel.unpack)))
  rcases hx.unpack with infinite | ⟨m, e, pos, finite, long, high⟩ <;>
    rcases hy.unpack with infinite' | ⟨m', e', pos', finite', long', high'⟩
  · rw [infinite, infinite']
    exact atLeast_infinity _
  · rw [infinite, finite']
    exact atLeast_infinity _
  · rw [finite, infinite']
    exact atLeast_infinity _
  · rw [finite, finite']
    obtain ⟨low, -⟩ := (Nat.log2_eq_iff (Nat.ne_of_gt pos)).mp long
    obtain ⟨low', -⟩ := (Nat.log2_eq_iff (Nat.ne_of_gt pos')).mp long'
    have product : 2 ^ 52 * 2 ^ 52 ≤ m * m' := Nat.mul_le_mul low low'
    have leading : 104 ≤ (m * m').log2 := (Nat.le_log2 (Nat.ne_of_gt (Nat.mul_pos pos pos'))).mpr product
    exact atLeast_round (by omega) (by omega) .exact

/-! ## Quotients -/

/-- **The quotient of two mantissas of 53 bits**, the first one with the higher exponent, is cut off after 53 bits
behind the point. -/
theorem divCore_eq {m m' : Nat} {e e' : Int} (long : m.log2 = 52) (long' : m'.log2 = 52) (higher : e' < e) :
    divCore .binary64 m e m' e' = ((m <<< 53) / m', e - e' - 53, accuracyOfFraction ((m <<< 53) % m') m') := by
  have target : min (e - e') (Format.binary64.targetExponent (totalExponent m e - totalExponent m' e')) =
      e - e' - 53 := by
    change min (e - e') (max ((m.log2 : Int) + 1 + e - (m'.log2 + 1 + e') - 53) (-1074)) = _
    omega
  have shift : (e - e' - (e - e' - 53)).toNat = 53 := by omega
  simp only [divCore, target, shift]

/-- **Quotients of ranks a block or more apart** are no less than two. -/
theorem atLeast_div (normal : blockSize ≤ rank') (twice : rank' + blockSize ≤ rank) (finite : rank < infinityRank) :
    AtLeast 1 (ofRank false rank / ofRank false rank') := by
  have size := blockSize_eq
  obtain ⟨pos, unpacked⟩ := unpack_ofRank (show blockSize ≤ rank by omega) finite
  obtain ⟨pos', unpacked'⟩ := unpack_ofRank normal (show rank' < infinityRank by omega)
  change AtLeast 1 (Float.ofModel (Float.Model.pack
    (UnpackedFloat.div .binary64 (ofRank false rank).toModel.unpack (ofRank false rank').toModel.unpack)))
  rw [unpacked, unpacked']
  -- the ranks in the order of their exponents, and of their mantissas where those are one apart
  have place := Nat.mod_lt rank blockSize_pos
  have place' := Nat.mod_lt rank' blockSize_pos
  have order : rank' / blockSize + 1 < rank / blockSize ∨
      rank' / blockSize + 1 = rank / blockSize ∧ rank' % blockSize ≤ rank % blockSize := by
    rw [size] at twice ⊢
    omega
  generalize rank / blockSize = block at *
  generalize rank' / blockSize = block' at *
  generalize rank % blockSize = m at *
  generalize rank' % blockSize = m' at *
  have long : (blockSize + m).log2 = 52 := (Nat.log2_eq_iff (Nat.ne_of_gt pos)).mpr (by omega)
  have long' : (blockSize + m').log2 = 52 := (Nat.log2_eq_iff (Nat.ne_of_gt pos')).mpr (by omega)
  have quotient := divCore_eq long long' (show (block' : Int) - 1075 < block - 1075 by omega)
  have least : 2 ^ 52 ≤ ((blockSize + m) <<< 53) / (blockSize + m') := by
    rw [Nat.le_div_iff_mul_le pos', Nat.shiftLeft_eq]
    omega
  have nonzero : ((blockSize + m) <<< 53) / (blockSize + m') ≠ 0 := by omega
  have long'' := (Nat.le_log2 nonzero).mpr least
  unfold UnpackedFloat.div
  dsimp only
  rw [quotient]
  dsimp only
  refine atLeast_round long'' ?_ _
  rcases order with apart | ⟨next, above⟩
  · omega
  · have least : 2 ^ 53 ≤ ((blockSize + m) <<< 53) / (blockSize + m') := by
      rw [Nat.le_div_iff_mul_le pos', Nat.shiftLeft_eq]
      omega
    have long'' := (Nat.le_log2 nonzero).mpr least
    omega

/-! ## Whole numbers -/

theorem RoundsTo.ge_of_le {x : ℚ} (h : RoundsTo rank x) (above : (quanta rank' : ℚ) ≤ x) : rank' ≤ rank := by
  by_contra beyond
  have after : (quanta (rank + 1) : ℚ) ≤ quanta rank' := by exact_mod_cast quanta_mono (show rank + 1 ≤ rank' by omega)
  have step : (quanta rank : ℚ) < quanta (rank + 1) := by exact_mod_cast quanta_lt_succ rank
  linarith [h.high]

/-- **Rounding keeps the order.** -/
theorem RoundsTo.mono {x x' : ℚ} (h : RoundsTo rank x) (h' : RoundsTo rank' x') (le : x ≤ x') : rank ≤ rank' := by
  by_contra beyond
  have before : (quanta rank' : ℚ) ≤ quanta (rank - 1) := by exact_mod_cast quanta_mono (show rank' ≤ rank - 1 by omega)
  have after : (quanta (rank' + 1) : ℚ) ≤ quanta rank := by exact_mod_cast quanta_mono (show rank' + 1 ≤ rank by omega)
  have step : (quanta rank' : ℚ) < quanta (rank' + 1) := by exact_mod_cast quanta_lt_succ rank'
  have low := h.low
  have high := h'.high
  -- both lie on the point half-way between two ranks that stand beside each other, and one of these is odd
  have next : rank = rank' + 1 := by
    by_contra apart
    have between : (quanta (rank' + 1) : ℚ) ≤ quanta (rank - 1) := by
      exact_mod_cast quanta_mono (show rank' + 1 ≤ rank - 1 by omega)
    linarith
  rcases Nat.mod_two_eq_zero_or_one rank' with even | odd
  · linarith [(h.inside (by omega)).1]
  · linarith [(h'.inside odd).2]

/-- **Doubling a normal double** moves its rank by a block. -/
theorem quanta_add_blockSize (normal : blockSize ≤ rank) : quanta (rank + blockSize) = 2 * quanta rank := by
  obtain ⟨block, m, least, most, rfl⟩ := exists_block rank
  have inner : blockSize ≤ m := by
    rcases least with rfl | least
    · rwa [Nat.zero_mul, Nat.zero_add] at normal
    · exact least
  have next : block * blockSize + m + blockSize = (block + 1) * blockSize + m := by ring
  rw [next, quanta_block (.inr inner) (Nat.le_of_lt most), quanta_block (.inr inner) (Nat.le_of_lt most), Nat.pow_succ]
  ring

/-- **What is twice a number rounds a block higher.** -/
theorem RoundsTo.double {x : ℚ} (h : RoundsTo rank x) (normal : blockSize < rank) :
    RoundsTo (rank + blockSize) (2 * x) := by
  have here : (quanta (rank + blockSize) : ℚ) = 2 * quanta rank := by
    exact_mod_cast quanta_add_blockSize (Nat.le_of_lt normal)
  have before : (quanta (rank + blockSize - 1) : ℚ) = 2 * quanta (rank - 1) := by
    rw [show rank + blockSize - 1 = rank - 1 + blockSize by omega]
    exact_mod_cast quanta_add_blockSize (show blockSize ≤ rank - 1 by omega)
  have after : (quanta (rank + blockSize + 1) : ℚ) = 2 * quanta (rank + 1) := by
    rw [show rank + blockSize + 1 = rank + 1 + blockSize by omega]
    exact_mod_cast quanta_add_blockSize (show blockSize ≤ rank + 1 by omega)
  have parity : (rank + blockSize) % 2 = rank % 2 := by
    rw [blockSize_eq]
    omega
  have low := h.low
  have high := h.high
  refine ⟨?_, ?_, fun odd => ?_⟩
  · rw [here, before]
    linarith
  · rw [here, after]
    linarith
  · obtain ⟨low, high⟩ := h.inside (parity ▸ odd)
    rw [here, before, after]
    exact ⟨by linarith, by linarith⟩

/-- A whole number from one up rounds to a normal double. -/
theorem RoundsTo.powerRank_le {n : Nat} (h : RoundsTo rank (n * quantaPerOne)) (high : 2 ^ k ≤ n) :
    powerRank k ≤ rank := by
  refine h.ge_of_le ?_
  rw [quanta_powerRank]
  exact_mod_cast Nat.mul_le_mul_right quantaPerOne high

/-- **The double of a whole number** is no less than a power of two that the number is no less than. -/
theorem atLeast_ofInt {n : Nat} (high : 2 ^ k ≤ n) (small : n * quantaPerOne < quanta (infinityRank - 1)) :
    AtLeast k (ofInt n) := by
  obtain ⟨rank, finite, rounds, value⟩ := exists_ofInt_eq small
  exact ⟨rank, Nat.le_trans (Nat.min_le_right _ _) (rounds.powerRank_le high), Nat.le_of_lt finite, value⟩

/-- **The quotient of the doubles of two whole numbers**, of which one is at least twice the other, is no less than
two. -/
theorem atLeast_ratio {a b : Nat} (pos : 0 < b) (twice : 2 * b ≤ a)
    (small : a * quantaPerOne < quanta (infinityRank - 1)) : AtLeast 1 (ofInt a / ofInt b) := by
  have smaller : b * quantaPerOne < quanta (infinityRank - 1) :=
    Nat.lt_of_le_of_lt (Nat.mul_le_mul_right _ (by omega)) small
  obtain ⟨rank, finite, rounds, value⟩ := exists_ofInt_eq small
  obtain ⟨rank', -, rounds', value'⟩ := exists_ofInt_eq smaller
  have one : powerRank 0 ≤ rank' := rounds'.powerRank_le (by rwa [Nat.pow_zero])
  have normal : blockSize < rank' := by
    rw [powerRank] at one
    have size := blockSize_pos
    omega
  have double : (2 * (b * quantaPerOne) : ℚ) ≤ a * quantaPerOne := by
    rw [← mul_assoc]
    exact_mod_cast Nat.mul_le_mul_right quantaPerOne twice
  rw [value, value']
  exact atLeast_div (Nat.le_of_lt normal) ((rounds'.double normal).mono rounds double) finite

end Formula.Binary64
