import Formula.Operator
import Formula.Proofs.Binary64.Bits

/-!
# Negation — two signs are none

The negative of a double that is a number differs from it in the sign bit and in nothing else
(`bits_neg_of_number`); what is not a number is its own negative. So two signs are none (`neg_neg`), bit for
bit, and stacked signs do what the one sign does that they combine to (`apply_combine`). The negative of a
finite double of some rank is the double of the other sign with that rank (`neg_ofRank`).
-/

namespace Formula.Binary64

open Float.Model UnpackedFloat

theorem neg_neg_sign (s : UnpackedFloat.Sign) : - -s = s := by cases s <;> rfl

theorem bits_neg (x : Float.Model) :
    bits (-x) = UnpackedFloat.pack .binary64 (UnpackedFloat.unpack .binary64 (bits x)).neg := rfl

/-- **The negative of a number differs from it in the sign.** -/
theorem bits_neg_of_number {x : Float.Model} (number : ¬ IsNaN (bits x)) :
    bits (-x) = packComponents .binary64 (-UnpackedFloat.Sign.ofBitVec (unpackSign (bits x)))
      (unpackExponent (bits x)) (unpackMantissa (bits x)) := by
  obtain ⟨signed, unpacked, negated, packed⟩ := exists_unpack number
  rw [bits_neg, unpacked, negated, packed]

/-! ## Twice -/

/-- What is not a number is its own negative. -/
theorem neg_of_isNaN {x : Float.Model} (h : IsNaN (bits x)) : -x = x := by
  have unpacked : UnpackedFloat.unpack .binary64 (bits x) = .notANumber := by
    unfold UnpackedFloat.unpack
    rw [if_pos h.1, if_neg h.2]
  have canonical : bits x = packedNaN .binary64 := x.valid.eq_packedNaN h.1 h.2
  apply eq_of_bits_eq
  rw [bits_neg, unpacked, canonical]
  rfl

theorem neg_neg_model (x : Float.Model) : - -x = x := by
  by_cases h : IsNaN (bits x)
  · rw [neg_of_isNaN h, neg_of_isNaN h]
  · have once := bits_neg_of_number h
    have number : ¬ IsNaN (bits (-x)) := by
      rw [IsNaN, once, unpackExponent_packComponents, unpackMantissa_packComponents]
      exact h
    have twice := bits_neg_of_number number
    rw [once, unpackSign_packComponents, unpackExponent_packComponents, unpackMantissa_packComponents,
      ofBitVec_toBitVec, neg_neg_sign, packComponents_unpack] at twice
    exact eq_of_bits_eq twice

/-- **Two signs are none**, bit for bit. -/
theorem neg_neg (x : Float) : - -x = x := congrArg Float.ofModel (neg_neg_model x.toModel)

/-! ## Ranks -/

/-- **The negative of the positive double of a rank is the negative double of that rank.** -/
theorem neg_ofRank {rank : Nat} (h : rank ≤ infinityRank) : -ofRank false rank = ofRank true rank := by
  have positive : (bits (ofRank false rank).toModel).toNat = rank := toNat_bits_ofRank h
  have negative : (bits (ofRank true rank).toModel).toNat = rank + 2 ^ 63 := signBit_eq ▸ toNat_bits_ofRank h
  have number : ¬ IsNaN (bits (ofRank false rank).toModel) := bits_ofRank h ▸ not_isNaN_rankBits h
  rw [infinityRank_eq] at h
  -- exponent and mantissa are those of the positive double, and the sign is the other one
  have exponent : unpackExponent (bits (ofRank false rank).toModel) =
      unpackExponent (bits (ofRank true rank).toModel) := by
    apply BitVec.eq_of_toNat_eq
    rw [toNat_unpackExponent, toNat_unpackExponent, positive, negative]
    omega
  have mantissa : unpackMantissa (bits (ofRank false rank).toModel) =
      unpackMantissa (bits (ofRank true rank).toModel) := by
    apply BitVec.eq_of_toNat_eq
    rw [toNat_unpackMantissa, toNat_unpackMantissa, positive, negative]
    omega
  have plus : unpackSign (bits (ofRank false rank).toModel) = 0#1 := by
    apply BitVec.eq_of_toNat_eq
    rw [toNat_unpackSign, positive, BitVec.toNat_ofNat]
    omega
  have minus : unpackSign (bits (ofRank true rank).toModel) = 1#1 := by
    apply BitVec.eq_of_toNat_eq
    rw [toNat_unpackSign, negative, BitVec.toNat_ofNat]
    omega
  have sign : -UnpackedFloat.Sign.ofBitVec (unpackSign (bits (ofRank false rank).toModel)) =
      UnpackedFloat.Sign.ofBitVec (unpackSign (bits (ofRank true rank).toModel)) := by
    rw [plus, minus]
    rfl
  refine congrArg Float.ofModel (eq_of_bits_eq ?_ : -(ofRank false rank).toModel = (ofRank true rank).toModel)
  rw [bits_neg_of_number number, sign, exponent, mantissa, packComponents_unpack]

end Formula.Binary64

namespace Formula.Sign

/-- **The sign that two signs combine to does what they do.** -/
theorem apply_combine (outer inner : Sign) (x : Float) :
    (outer.combine inner).apply x = outer.apply (inner.apply x) := by
  cases outer <;> cases inner
  · exact (Binary64.neg_neg x).symm
  · rfl
  · rfl
  · rfl

end Formula.Sign
