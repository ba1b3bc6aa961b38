import Formula.Proofs.Binary64.Nearest
import Formula.Proofs.Decimal.Positional

/-!
# Denotations — the double that a decimal text denotes

A number reads as a rank when it rounds to it (`ReadsAs`), and a literal denotes the double of the rank that
its value reads as (`Literal.toFloat_eq`): whatever rounds to a rank is nowhere near the sizes that are
read as zero or as infinity without being looked at. So a written number denotes the rank that its value
reads as, and a scan takes it whole (`denotes_written`).
-/

namespace Formula.Decimal

open Binary64

variable {p : Positional} {rank : Nat}

/-! ## Literals as doubles -/

namespace Literal

/-- **The number that a literal is.** -/
def value (l : Literal) : ℚ := l.coefficient * 10 ^ l.exponent

/-- **Only digits, and no zeros that begin them.** -/
structure Normal (l : Literal) : Prop where
  digits : AreDigits l.digits
  first : l.digits.head? ≠ some '0'

variable {l : Literal}

/-- **The size of a literal** bounds its value by powers of ten. -/
theorem Normal.bounds (h : l.Normal) (some : l.digits ≠ []) :
    (10 : ℚ) ^ (l.digits.length + l.exponent - 1) ≤ l.value ∧ l.value < 10 ^ (l.digits.length + l.exponent) := by
  obtain ⟨c, ds, cons⟩ := List.exists_cons_of_ne_nil some
  have first := h.first
  have digits := h.digits
  rw [cons] at first digits
  have scale : (0 : ℚ) < 10 ^ l.exponent := by positivity
  have least : 10 ^ ds.length ≤ l.coefficient := by
    rw [coefficient, cons]
    exact le_ofDigits (digits c List.mem_cons_self) fun zero => first (congrArg Option.some zero)
  have most : l.coefficient < 10 ^ (ds.length + 1) := by
    rw [coefficient, cons]
    exact ofDigits_lt digits
  have least : ((10 : ℚ) ^ ds.length) ≤ l.coefficient := by exact_mod_cast least
  have most : (l.coefficient : ℚ) < 10 ^ (ds.length + 1) := by exact_mod_cast most
  rw [value, cons, List.length_cons]
  constructor
  · rw [show ((ds.length + 1 : Nat) : Int) + l.exponent - 1 = (ds.length : Nat) + l.exponent by omega,
      zpow_add₀ (by norm_num), zpow_natCast]
    exact mul_le_mul_of_nonneg_right least scale.le
  · rw [zpow_add₀ (by norm_num), zpow_natCast]
    exact mul_lt_mul_of_pos_right most scale

end Literal

/-- Half a quantum is more than 10⁻³²⁴. -/
theorem two_mul_quantaPerOne_lt : 2 * quantaPerOne < tens 324 := by decide +kernel

/-- The value of the rank of infinity is less than 10³⁰⁹. -/
theorem quanta_infinityRank_lt : quanta infinityRank < tens 309 * quantaPerOne := by decide +kernel

theorem quantaPerOne_pos : (0 : ℚ) < quantaPerOne := by
  have pos : 0 < quantaPerOne := by decide +kernel
  exact_mod_cast pos

/-- **What rounds to a rank lies between the sizes** that are read as zero and as infinity. -/
theorem bounds_of_roundsTo {x : ℚ} (pos : 0 < rank) (finite : rank < infinityRank)
    (h : RoundsTo rank (x * quantaPerOne)) : (10 : ℚ) ^ (-324 : Int) < x ∧ x < 10 ^ (309 : Int) := by
  have unit := quantaPerOne_pos
  constructor
  · have least : 1 ≤ quanta (rank - 1) + quanta rank := by
      have := quanta_strictMono pos
      omega
    have least : (1 : ℚ) ≤ quanta (rank - 1) + quanta rank := by exact_mod_cast least
    have small : (2 * quantaPerOne : ℚ) < tens 324 := by exact_mod_cast two_mul_quantaPerOne_lt
    have positive : 0 < x * quantaPerOne := by linarith [h.low]
    have positive : 0 < x := (mul_pos_iff_of_pos_right unit).mp positive
    rw [zpow_neg, inv_lt_iff_one_lt_mul₀ (by positivity)]
    calc
      1 ≤ x * (2 * quantaPerOne) := by linarith [h.low]
      _ < x * tens 324 := mul_lt_mul_of_pos_left small positive
      _ = x * 10 ^ (324 : Int) := by rw [cast_tens, Nat.cast_ofNat]
  · have most : quanta rank + quanta (rank + 1) ≤ 2 * quanta infinityRank := by
      have here := quanta_mono (Nat.le_of_lt finite)
      have next : quanta (rank + 1) ≤ quanta infinityRank := quanta_mono finite
      omega
    have most : (quanta rank + quanta (rank + 1) : ℚ) ≤ 2 * quanta infinityRank := by exact_mod_cast most
    have large : (quanta infinityRank : ℚ) < tens 309 * quantaPerOne := by exact_mod_cast quanta_infinityRank_lt
    rw [cast_tens, Nat.cast_ofNat] at large
    exact lt_of_mul_lt_mul_right (by linarith [h.high]) unit.le

/-- **A number reads as a rank**: zero as that of zero, and as any other rank what rounds to it. -/
def ReadsAs (x : ℚ) (rank : Nat) : Prop := rank = 0 ∧ x = 0 ∨ 0 < rank ∧ RoundsTo rank (x * quantaPerOne)

/-- **A literal denotes the double of the rank that its value reads as.** -/
theorem Literal.toFloat_eq {l : Literal} (normal : l.Normal) (finite : rank < infinityRank)
    (h : ReadsAs l.value rank) (negative : Bool) : l.toFloat negative = ofRank negative rank := by
  rcases h with ⟨rfl, zero⟩ | ⟨pos, h⟩
  · have none : l.digits = [] := by
      by_contra some
      have least := (normal.bounds some).1
      rw [zero] at least
      exact absurd least (not_le.mpr (by positivity))
    rw [toFloat, none]
    rfl
  · obtain ⟨least, most⟩ := bounds_of_roundsTo pos finite h
    have some : l.digits ≠ [] := by
      intro none
      have zero : l.value = 0 := by
        rw [value, coefficient, none]
        exact zero_mul _
      rw [zero] at least
      exact absurd least (not_lt.mpr (by positivity))
    obtain ⟨low, high⟩ := normal.bounds some
    have above : -324 < (l.digits.length + l.exponent : Int) :=
      (zpow_lt_zpow_iff_right₀ (by norm_num)).mp (lt_trans least high)
    have below : (l.digits.length + l.exponent - 1 : Int) < 309 :=
      (zpow_lt_zpow_iff_right₀ (by norm_num)).mp (lt_of_le_of_lt low most)
    have begun : l.digits.isEmpty = false := List.isEmpty_eq_false_iff.mpr some
    have kept : ¬ (l.digits.isEmpty = true ∨ (l.digits.length + l.exponent : Int) < vanishesAt) := by
      rw [begun, vanishesAt]
      simp only [Bool.false_eq_true, false_or]
      omega
    have short : ¬ overflowsAt < (l.digits.length + l.exponent : Int) := by
      rw [overflowsAt]
      omega
    rw [toFloat, if_neg kept, if_neg short]
    refine ofRatio_eq negative (tens_pos _) (Nat.le_of_lt finite) ?_
    rw [value, ← tens_div_tens] at h
    rw [Nat.cast_mul, mul_div_assoc]
    exact h

/-! ## Texts as doubles -/

/-- **A text that denotes a rank**: taken whole by a scan, and read as the double of the rank. -/
structure Denotes (cs : List Char) (rank : Nat) : Prop where
  isNumeral : IsNumeral cs
  read : readFloat cs = .ok (ofRank false rank)

theorem toLower_of_isDigit {c : Char} (digit : c.isDigit = true) : c.toLower = c := by
  have most := (Char.isDigit_iff_toNat.mp digit).2
  have letter : ¬ (c.val ≥ 'A'.val ∧ c.val ≤ 'Z'.val) := by
    rintro ⟨least, -⟩
    have least : 'A'.toNat ≤ c.toNat := UInt32.le_iff_toNat_le.mp least
    simp only [Char.reduceToNat] at most least
    omega
  exact dif_neg letter

/-- A text that begins with a digit or a point is no word and has no sign. -/
theorem readFloat_of_begins {c : Char} {cs : List Char} {l : Literal} (begins : c.isDigit = true ∨ c = '.')
    (h : Literal.read? (c :: cs) = some l) : readFloat (c :: cs) = .ok (l.toFloat false) := by
  have other {d : Char} (letter : d.isDigit = false) (nopoint : d ≠ '.') : d ≠ c := by
    rintro rfl
    rcases begins with digit | point
    · exact Bool.false_ne_true (letter.symm.trans digit)
    · exact nopoint point
  have unsigned : splitSign (c :: cs) = (false, c :: cs) := by
    unfold splitSign
    split
    next same => cases same; exact (other rfl (by decide) rfl).elim
    next same => cases same; exact (other rfl (by decide) rfl).elim
    next => rfl
  have lower : c.toLower = c := by
    rcases begins with digit | rfl
    · exact toLower_of_isDigit digit
    · rfl
  have word : ∀ ds : List Char, 'i' :: ds ≠ c :: cs.map Char.toLower ∧ 'n' :: ds ≠ c :: cs.map Char.toLower := by
    intro ds
    constructor <;> (intro same; exact other rfl (by decide) (List.cons.inj same).1)
  have infinite : infinityWords.contains ((c :: cs).map Char.toLower) = false := by
    rw [List.map_cons, lower]
    simp only [infinityWords, List.contains_cons, List.contains_nil, Bool.or_false, Bool.or_eq_false_iff,
      beq_eq_false_iff_ne]
    exact ⟨fun same => (word _).1 same.symm, fun same => (word _).1 same.symm⟩
  have number : (c :: cs).map Char.toLower ≠ nanWord := by
    rw [List.map_cons, lower]
    exact fun same => (word _).2 same.symm
  simp only [readFloat, List.isEmpty_cons, Bool.false_eq_true, if_false, unsigned, infinite, if_neg number, h]

theorem Positional.Valid.exists_digit (h : p.Valid) (x : Option Int) :
    ∃ c cs, written p x = c :: cs ∧ c.isDigit = true := by
  obtain ⟨c, cs, whole⟩ := List.exists_cons_of_ne_nil h.some
  have digit : c.isDigit = true := h.whole c (whole ▸ List.mem_cons_self)
  unfold written Positional.text
  rw [whole]
  split
  · exact ⟨c, _, rfl, digit⟩
  · exact ⟨c, _, rfl, digit⟩

/-- **A written number denotes the rank that its value reads as.** -/
theorem denotes_written (h : p.Valid) {x : Option Int} (small : ∀ y ∈ x, y.natAbs < exponentCap)
    (finite : rank < infinityRank) (reads : ReadsAs (p.value * 10 ^ x.getD 0) rank) :
    Denotes (written p x) rank where
  isNumeral := isNumeral_written h x
  read := by
    have literal := read?_written h small
    obtain ⟨c, cs, text, digit⟩ := h.exists_digit x
    rw [text] at literal ⊢
    rw [readFloat_of_begins (.inl digit) literal]
    refine congrArg Except.ok (Literal.toFloat_eq ⟨?_, ?_⟩ finite ?_ false)
    · intro d hd
      exact (h.whole.append h.fraction) d (List.dropWhile_sublist _ |>.subset hd)
    · intro zero
      have stops := List.head?_dropWhile_not (· == '0') (p.whole ++ p.fraction)
      rw [zero] at stops
      cases stops
    · have value : Literal.value ⟨(p.whole ++ p.fraction).dropWhile (· == '0'), x.getD 0 - p.fraction.length⟩ =
          p.value * 10 ^ x.getD 0 := by
        rw [Literal.value, Literal.coefficient, ofDigits_dropWhile, Positional.value, mul_assoc,
          ← zpow_add₀ (by norm_num), neg_add_eq_sub]
      rw [value]
      exact reads

end Formula.Decimal
