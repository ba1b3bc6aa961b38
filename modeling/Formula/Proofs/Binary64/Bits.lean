import Mathlib.Algebra.Group.Nat.Defs
import Formula.Binary64.Basic

/-!
# Bits — a double and its sign, exponent and mantissa

A double is its 64 bits, and operations on doubles unpack the bits into a sign, an exponent and a whole
mantissa and pack the outcome again. What is not a number has one pattern of bits only. Every other pattern is
what its own three parts pack to, whichever sign is put in place of its own (`exists_unpack`), so a double
that is a number has the bits of the pattern that it is made from (`bits_ofBits`), and is made from its sign
and rank (`ofRank_of_view`).
-/

namespace Formula.Binary64

open Float.Model UnpackedFloat

abbrev Bits := BitVec Format.binary64.numBits

/-- Whether bits are those of what is not a number. -/
def IsNaN (b : Bits) : Prop := unpackExponent b = -1#_ ∧ unpackMantissa b ≠ 0#_

/-! ## The three parts of a double -/

theorem unpackSign_packComponents (s : UnpackedFloat.Sign) (e : BitVec Format.binary64.exponentBits)
    (m : BitVec Format.binary64.mantissaBitsWithoutImplicit) :
    unpackSign (packComponents .binary64 s e m) = s.toBitVec := by
  ext i hi
  obtain rfl : i = 0 := Nat.lt_one_iff.mp hi
  unfold unpackSign packComponents
  simp only [BitVec.extractLsb, BitVec.getElem_cast, BitVec.getElem_extractLsb',
    BitVec.getLsbD_append]
  rfl

theorem ofBitVec_toBitVec (s : UnpackedFloat.Sign) : UnpackedFloat.Sign.ofBitVec s.toBitVec = s := by
  cases s <;> rfl

theorem toBitVec_ofBitVec (b : BitVec 1) : (UnpackedFloat.Sign.ofBitVec b).toBitVec = b := by
  revert b
  decide

theorem packComponents_unpack (b : Bits) :
    packComponents .binary64 (UnpackedFloat.Sign.ofBitVec (unpackSign b)) (unpackExponent b)
      (unpackMantissa b) = b := by
  rw [packComponents, toBitVec_ofBitVec]
  ext i hi
  have wide : i < 64 := hi
  unfold unpackSign unpackExponent unpackMantissa
  simp only [BitVec.extractLsb, BitVec.getElem_append,
    BitVec.getElem_cast, BitVec.getElem_extractLsb']
  rw [← BitVec.getLsbD_eq_getElem]
  split
  · rw [Nat.zero_add]
  · split
    next => rw [show 52 + (i - 52) = i by omega]
    next => rw [show 52 + 11 + (i - 52 - 11) = i by omega]

/-! ## Packing -/

/-- The mantissa of a normal number, with the bit that is left out. -/
theorem toNat_implicit (m : BitVec Format.binary64.mantissaBitsWithoutImplicit) :
    (1#1 ++ m).toNat = 1 <<< 52 + m.toNat := by
  have or_eq : (1#1 ++ m).toNat = 1 <<< 52 ||| m.toNat := BitVec.toNat_append 1#1 m
  have add_eq : 1 <<< 52 + m.toNat = 1 <<< 52 ||| m.toNat := Nat.shiftLeft_add_eq_or_of_lt m.isLt 1
  rw [or_eq, ← add_eq]

/-- **A subnormal number packs to its own mantissa**, which is short of a normal one's. -/
theorem pack_subnormal (s : UnpackedFloat.Sign) (m : BitVec Format.binary64.mantissaBitsWithoutImplicit)
    (pos : 0 < m.toNat) :
    UnpackedFloat.pack .binary64 (.finite s m.toNat (0 - (1023 + 52) + 1) pos) =
      packComponents .binary64 s 0#_ m := by
  have short : m.toNat.log2 < 52 := (Nat.log2_lt (Nat.ne_of_gt pos)).mpr m.isLt
  have subnormal : ¬ m.toNat.log2 + 1 = 53 := by omega
  have exponent : (0 - (1023 + 52) + 1 + 1023 + 52 : Int).toNat = 1 := by decide
  unfold UnpackedFloat.pack
  change (if 2 ^ 11 ≤ (0 - (1023 + 52) + 1 + 1023 + 52 : Int).toNat + 1 then _ else
    if m.toNat.log2 + 1 = 53 then _ else _) = _
  rw [exponent, if_neg (by decide), if_neg subnormal, BitVec.ofNat_toNat, BitVec.setWidth_eq]

/-- **A normal number packs to its own exponent and mantissa**: the bit that is left out is cut off. -/
theorem pack_normal (s : UnpackedFloat.Sign) (e : BitVec Format.binary64.exponentBits)
    (m : BitVec Format.binary64.mantissaBitsWithoutImplicit) (inRange : e ≠ -1#_) (pos : 0 < (1#1 ++ m).toNat) :
    UnpackedFloat.pack .binary64 (.finite s (1#1 ++ m).toNat (e.toNat - (1023 + 52)) pos) =
      packComponents .binary64 s e m := by
  have m_lt : m.toNat < 2 ^ 52 := m.isLt
  have e_lt : e.toNat < 2 ^ 11 := e.isLt
  have e_ne : e.toNat ≠ 2 ^ 11 - 1 := fun top => inRange (BitVec.toNat_inj.mp top)
  have long : (1#1 ++ m).toNat.log2 = 52 := by
    rw [toNat_implicit, Nat.log2_eq_iff (by omega)]
    omega
  have exponent : (e.toNat - (1023 + 52) + 1023 + 52 : Int).toNat = e.toNat := by omega
  unfold UnpackedFloat.pack
  change (if 2 ^ 11 ≤ (e.toNat - (1023 + 52) + 1023 + 52 : Int).toNat + 1 then _ else
    if (1#1 ++ m).toNat.log2 + 1 = 53 then
      packComponents .binary64 s (BitVec.ofNat 11 (e.toNat - (1023 + 52) + 1023 + 52 : Int).toNat)
        (BitVec.ofNat 52 (1#1 ++ m).toNat)
    else _) = _
  have mantissa : BitVec.ofNat 52 (1#1 ++ m).toNat = m := by
    rw [toNat_implicit]
    apply BitVec.eq_of_toNat_eq
    rw [BitVec.toNat_ofNat]
    omega
  rw [exponent, if_neg (by omega), long, if_pos rfl, mantissa, BitVec.ofNat_toNat, BitVec.setWidth_eq]

/-- **The bits of a number are its parts packed**: unpacked they are a number that has the given exponent and
mantissa with every sign. -/
theorem exists_unpack {b : Bits} (number : ¬ IsNaN b) :
    ∃ signed : UnpackedFloat.Sign → UnpackedFloat,
      UnpackedFloat.unpack .binary64 b = signed (UnpackedFloat.Sign.ofBitVec (unpackSign b)) ∧
      (∀ s, (signed s).neg = signed (-s)) ∧
      ∀ s, UnpackedFloat.pack .binary64 (signed s) =
        packComponents .binary64 s (unpackExponent b) (unpackMantissa b) := by
  unfold UnpackedFloat.unpack
  dsimp only
  -- the exponent says whether a number is infinite, zero or subnormal, or normal
  by_cases top : unpackExponent b = -1#_
  · have none : unpackMantissa b = 0#_ := Decidable.byContradiction fun some => number ⟨top, some⟩
    rw [if_pos top, if_pos none, top, none]
    exact ⟨.infinity, rfl, fun _ => rfl, fun _ => rfl⟩
  · rw [if_neg top]
    by_cases bottom : unpackExponent b = 0#_
    · rw [if_pos bottom, bottom]
      by_cases none : unpackMantissa b = 0#_
      · rw [dif_pos none, none]
        exact ⟨.zero, rfl, fun _ => rfl, fun _ => rfl⟩
      · rw [dif_neg none]
        exact ⟨fun s => .finite s _ _ _, rfl, fun _ => rfl, fun s => pack_subnormal s _ _⟩
    · rw [if_neg bottom]
      exact ⟨fun s => .finite s _ _ _, rfl, fun _ => rfl, fun s => pack_normal s _ _ top _⟩

theorem isNaN_unpack {b : Bits} (number : ¬ IsNaN b) : (UnpackedFloat.unpack .binary64 b).isNaN = false := by
  unfold UnpackedFloat.unpack
  dsimp only
  by_cases top : unpackExponent b = -1#_
  · have none : unpackMantissa b = 0#_ := Decidable.byContradiction fun some => number ⟨top, some⟩
    rw [if_pos top, if_pos none]
    rfl
  · rw [if_neg top]
    by_cases bottom : unpackExponent b = 0#_
    · rw [if_pos bottom]
      by_cases none : unpackMantissa b = 0#_
      · rw [dif_pos none]
        rfl
      · rw [dif_neg none]
        rfl
    · rw [if_neg bottom]
      rfl

/-- **A number packs to the bits that it is unpacked from.** -/
theorem pack_unpack {b : Bits} (number : ¬ IsNaN b) :
    UnpackedFloat.pack .binary64 (UnpackedFloat.unpack .binary64 b) = b := by
  obtain ⟨signed, unpacked, -, packed⟩ := exists_unpack number
  rw [unpacked, packed, packComponents_unpack]

/-! ## Doubles -/

def bits (x : Float.Model) : Bits := x.toBits.toBitVec

theorem eq_of_bits_eq : ∀ {x y : Float.Model}, bits x = bits y → x = y
  | ⟨_, _⟩, ⟨_, _⟩, h => by
    obtain rfl := UInt64.toBitVec_inj.mp h
    rfl

theorem bits_ofBits {b : UInt64} (number : ¬ IsNaN b.toBitVec) : bits (Float.Model.ofBits b) = b.toBitVec :=
  pack_unpack number

/-- **A number is made from its own bits.** -/
theorem ofBits_toBits {x : Float} (number : ¬ IsNaN (bits x.toModel)) : Float.ofBits x.toBits = x :=
  congrArg Float.ofModel (eq_of_bits_eq (bits_ofBits (b := x.toModel.toBits) number))

/-! ## The parts as numbers -/

theorem toNat_unpackSign (b : Bits) : (unpackSign b).toNat = b.toNat / 2 ^ 63 := by
  have wide : b.toNat < 2 ^ 64 := b.isLt
  have cut : (unpackSign b).toNat = b.toNat >>> 63 % 2 := rfl
  rw [cut, Nat.shiftRight_eq_div_pow]
  omega

theorem toNat_unpackExponent (b : Bits) : (unpackExponent b).toNat = b.toNat / 2 ^ 52 % 2 ^ 11 := by
  have cut : (unpackExponent b).toNat = b.toNat >>> 52 % 2 ^ 11 := rfl
  rw [cut, Nat.shiftRight_eq_div_pow]

theorem toNat_unpackMantissa (b : Bits) : (unpackMantissa b).toNat = b.toNat % 2 ^ 52 := by
  have cut : (unpackMantissa b).toNat = b.toNat >>> 0 % 2 ^ 52 := rfl
  rw [cut, Nat.shiftRight_zero]

theorem blockSize_eq : blockSize = 2 ^ 52 := Nat.one_shiftLeft 52

theorem blockSize_pos : 0 < blockSize := by
  rw [blockSize_eq]
  exact Nat.two_pow_pos 52

theorem infinityRank_eq : infinityRank = 2047 * 2 ^ 52 := congrArg (2047 * ·) blockSize_eq

theorem signBit_eq : signBit = 2 ^ 63 := Nat.one_shiftLeft 63

/-- **Ranks up to that of infinity are ranks of numbers.** -/
theorem not_isNaN_of_rank {b : Bits} (h : b.toNat % signBit ≤ infinityRank) : ¬ IsNaN b := by
  rintro ⟨top, some⟩
  have exponent : (unpackExponent b).toNat = 2047 := by rw [top]; rfl
  have mantissa : (unpackMantissa b).toNat ≠ 0 := fun none => some (BitVec.eq_of_toNat_eq none)
  rw [toNat_unpackExponent] at exponent
  rw [toNat_unpackMantissa] at mantissa
  rw [signBit_eq, infinityRank_eq] at h
  omega

/-- The bits of a sign and a rank. -/
def rankBits (negative : Bool) (rank : Nat) : UInt64 := UInt64.ofNat (rank + if negative then signBit else 0)

theorem toNat_rankBits {negative : Bool} {rank : Nat} (h : rank ≤ infinityRank) :
    (rankBits negative rank).toNat = rank + if negative then signBit else 0 := by
  rw [infinityRank_eq] at h
  have sign := signBit_eq
  rw [rankBits, UInt64.toNat_ofNat']
  refine Nat.mod_eq_of_lt ?_
  split <;> omega

theorem not_isNaN_rankBits {negative : Bool} {rank : Nat} (h : rank ≤ infinityRank) :
    ¬ IsNaN (rankBits negative rank).toBitVec := by
  have rank_eq : (rankBits negative rank).toNat % signBit = rank := by
    rw [infinityRank_eq] at h
    rw [toNat_rankBits (infinityRank_eq ▸ h), signBit_eq]
    split <;> omega
  exact not_isNaN_of_rank (Nat.le_trans (Nat.le_of_eq rank_eq) h)

theorem bits_ofRank {negative : Bool} {rank : Nat} (h : rank ≤ infinityRank) :
    bits (ofRank negative rank).toModel = (rankBits negative rank).toBitVec :=
  bits_ofBits (not_isNaN_rankBits h)

theorem toNat_bits_ofRank {negative : Bool} {rank : Nat} (h : rank ≤ infinityRank) :
    (bits (ofRank negative rank).toModel).toNat = rank + if negative then signBit else 0 := by
  rw [bits_ofRank h]
  exact toNat_rankBits h

/-- **A double made from a sign and a rank is a number**, if perhaps an infinite one. -/
theorem isNaN_ofRank {negative : Bool} {rank : Nat} (h : rank ≤ infinityRank) :
    (ofRank negative rank).isNaN = false := by
  change (UnpackedFloat.unpack .binary64 (bits (ofRank negative rank).toModel)).isNaN = false
  rw [bits_ofRank h]
  exact isNaN_unpack (not_isNaN_rankBits h)

/-- What a finite double's view says of its bits. -/
theorem view_eq_finite {x : Float} {negative : Bool} {rank : Nat} (h : view x = .finite negative rank) :
    rank < infinityRank ∧ x.toBits.toNat % signBit = rank ∧ negative = decide (signBit ≤ x.toBits.toNat) := by
  unfold view at h
  dsimp only at h
  split at h
  next finite =>
    obtain ⟨rfl, rfl⟩ := View.finite.inj h
    exact ⟨finite, rfl, rfl⟩
  next => split at h <;> cases h

/-- **A finite double is that of its sign and rank.** -/
theorem ofRank_of_view {x : Float} {negative : Bool} {rank : Nat} (h : view x = .finite negative rank) :
    ofRank negative rank = x := by
  obtain ⟨finite, rank_eq, sign_eq⟩ := view_eq_finite h
  have small : x.toBits.toNat % signBit ≤ infinityRank := rank_eq ▸ Nat.le_of_lt finite
  have same : rankBits negative rank = x.toBits := by
    apply UInt64.toNat_inj.mp
    have wide : x.toBits.toNat < 2 ^ 64 := x.toBits.toNat_lt
    rw [signBit_eq] at rank_eq sign_eq
    rw [toNat_rankBits (Nat.le_of_lt finite), signBit_eq, sign_eq]
    simp only [decide_eq_true_eq]
    split <;> omega
  have made : Float.ofBits x.toBits = x := ofBits_toBits (not_isNaN_of_rank small)
  rw [← same] at made
  exact made

/-- What is seen of a double made from a sign and a rank. -/
theorem view_ofRank {negative : Bool} {rank : Nat} (finite : rank < infinityRank) :
    view (ofRank negative rank) = .finite negative rank := by
  have bits_eq : (ofRank negative rank).toBits.toNat = rank + if negative then signBit else 0 :=
    toNat_bits_ofRank (Nat.le_of_lt finite)
  have small : rank < 2047 * 2 ^ 52 := infinityRank_eq ▸ finite
  have sign := signBit_eq
  have rank_eq : (ofRank negative rank).toBits.toNat % signBit = rank := by
    rw [bits_eq, sign]
    split <;> omega
  have sign_eq : decide (signBit ≤ (ofRank negative rank).toBits.toNat) = negative := by
    rw [bits_eq]
    cases negative with
    | false => exact decide_eq_false (show ¬ signBit ≤ rank + 0 by omega)
    | true => exact decide_eq_true (Nat.le_add_left signBit rank)
  unfold view
  dsimp only
  rw [rank_eq, sign_eq, if_pos finite]

end Formula.Binary64
