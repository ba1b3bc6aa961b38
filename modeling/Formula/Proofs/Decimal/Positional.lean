import Mathlib.Tactic.FieldSimp
import Formula.Decimal.Read
import Formula.Decimal.Significant
import Formula.Proofs.Decimal.Digits
import Formula.Proofs.Token.Numerals

/-!
# Positional texts — digits around a point, written and read back

Splitting digits at a point keeps what they stand for (`value_place`), and so does dropping the zeros that end
a fraction (`value_trimmed`). A positional text, with an exponent or without, is a literal as a scan takes it
(`isNumeral_written`), and it is taken apart into all its digits and one exponent (`read?_written`).
-/

namespace Formula.Decimal

variable {p : Positional} {ds rest : List Char}

/-! ## Values -/

namespace Positional

/-- **The number that is written.** -/
def value (p : Positional) : ℚ := ofDigits (p.whole ++ p.fraction) * 10 ^ (-(p.fraction.length : Int))

/-- **A positional number as it can be written**: of digits, with at least one before the point. -/
structure Valid (p : Positional) : Prop where
  some : p.whole ≠ []
  whole : AreDigits p.whole
  fraction : AreDigits p.fraction

/-- What is trimmed is zeros. -/
theorem exists_zeros (p : Positional) : ∃ n, p.fraction = p.trimmed.fraction ++ zeros n := by
  have split := congrArg List.reverse (List.takeWhile_append_dropWhile (p := (· == '0')) (l := p.fraction.reverse))
  rw [List.reverse_append, List.reverse_reverse] at split
  have zero : ∀ c ∈ p.fraction.reverse.takeWhile (· == '0'), c = '0' := by
    intro c hc
    exact beq_iff_eq.mp (List.all_eq_true.mp List.all_takeWhile c hc)
  refine ⟨(p.fraction.reverse.takeWhile (· == '0')).length, ?_⟩
  rw [List.eq_replicate_of_mem zero, List.reverse_replicate] at split
  exact split.symm

theorem Valid.trimmed (h : p.Valid) : p.trimmed.Valid where
  some := h.some
  whole := h.whole
  fraction := by
    obtain ⟨n, split⟩ := p.exists_zeros
    intro c hc
    exact h.fraction c (split ▸ List.mem_append_left _ hc)

theorem value_trimmed (p : Positional) : p.trimmed.value = p.value := by
  obtain ⟨n, split⟩ := p.exists_zeros
  have whole : p.trimmed.whole = p.whole := rfl
  rw [value, value, whole, split, ← List.append_assoc, ofDigits_append_zeros, List.length_append, zeros,
    List.length_replicate]
  push_cast
  rw [neg_add, zpow_add₀ (by norm_num), zpow_neg _ (n : Int), zpow_natCast]
  field_simp

end Positional

theorem valid_place (h : AreDigits ds) (point : Int) : (place ds point).Valid := by
  unfold place
  split
  · refine ⟨List.cons_ne_nil _ _, ?_, (areDigits_zeros _).append h⟩
    intro c hc
    rw [List.mem_singleton.mp hc]
    rfl
  · refine ⟨?_, ?_, fun c hc => h c (List.mem_of_mem_drop hc)⟩
    · intro none
      have length := congrArg List.length none
      simp only [List.length_append, List.length_take, zeros, List.length_replicate, List.length_nil] at length
      omega
    · exact AreDigits.append (fun c hc => h c (List.mem_of_mem_take hc)) (areDigits_zeros _)

/-- **Splitting digits at a point** keeps what they stand for. -/
theorem value_place (ds : List Char) (point : Int) :
    (place ds point).value = ofDigits ds * 10 ^ (point - ds.length) := by
  unfold place Positional.value
  split
  next nonpos =>
    have front : ofDigits (['0'] ++ (zeros (-point).toNat ++ ds)) = ofDigits ds := by
      rw [← List.append_assoc]
      exact ofDigits_zeros_append ((-point).toNat + 1) ds
    rw [front, List.length_append, zeros, List.length_replicate]
    congr 2
    omega
  next pos =>
    obtain ⟨n, rfl⟩ := Int.eq_ofNat_of_zero_le (show 0 ≤ point by omega)
    dsimp only
    rw [Int.toNat_natCast, List.length_drop]
    rcases Nat.le_total n ds.length with inner | outer
    · rw [Nat.sub_eq_zero_of_le inner, zeros, List.replicate_zero, List.append_nil, List.take_append_drop]
      congr 2
      omega
    · rw [List.take_of_length_le outer, List.drop_of_length_le outer, List.append_nil, ofDigits_append_zeros,
        Nat.sub_eq_zero_of_le outer, Nat.cast_zero, neg_zero, zpow_zero, mul_one, ← Nat.cast_sub outer,
        zpow_natCast]
      push_cast
      ring

/-! ## Exponents -/

/-- What stands behind the digits: nothing, or a mark and an exponent. -/
def exponentPart : Option Int → List Char
  | none => []
  | some x => 'e' :: exponentText x

/-- The sign and the digits of an exponent. -/
theorem exponentText_eq (x : Int) : ∃ sign ds, exponentText x = sign :: ds ∧ AreDigits ds ∧ ds ≠ [] ∧
    ofDigits ds = x.natAbs ∧ (x < 0 ∧ sign = '-' ∨ 0 ≤ x ∧ sign = '+') := by
  refine ⟨_, _, rfl, (areDigits_zeros _).append (areDigits_digits _), ?_, ?_, ?_⟩
  · exact fun none => Nat.toDigits_ne_nil (List.append_eq_nil_iff.mp none).2
  · rw [ofDigits_zeros_append, ofDigits_digits]
  · by_cases negative : x < 0
    · exact .inl ⟨negative, if_pos negative⟩
    · exact .inr ⟨by omega, if_neg negative⟩

/-- **Digits of an exponent are added up** while their value is below the cap. -/
theorem exponentValue_eq (small : ofDigits ds < exponentCap) : exponentValue ds = ofDigits ds := by
  -- on the digits, whatever value stands before them: no value on the way is larger than the last
  have run : ∀ (ds : List Char) (n : Nat), Nat.ofDigitChars 10 ds n < exponentCap →
      ds.foldl (fun n c => if n < exponentCap then 10 * n + (c.toNat - '0'.toNat) else n) n =
        Nat.ofDigitChars 10 ds n := by
    intro ds
    induction ds with
    | nil => exact fun _ _ => rfl
    | cons d ds ih =>
      intro n small
      have grows : n ≤ Nat.ofDigitChars 10 (d :: ds) n := by
        rw [Nat.ofDigitChars_eq_ofDigitChars_zero]
        exact Nat.le_trans (Nat.le_mul_of_pos_left n (Nat.pow_pos (by decide))) (Nat.le_add_right _ _)
      rw [List.foldl_cons, if_pos (Nat.lt_of_le_of_lt grows small)]
      exact ih _ small
  exact run ds 0 small

theorem readExponent?_exponentPart {x : Option Int} (small : ∀ y ∈ x, y.natAbs < exponentCap) :
    readExponent? (exponentPart x) = some (x.getD 0) := by
  cases x with
  | none => rfl
  | some x =>
    obtain ⟨sign, ds, text, digits, some, value, signs⟩ := exponentText_eq x
    have magnitude : exponentValue ds = x.natAbs := by
      rw [exponentValue_eq (value ▸ small x rfl), value]
    have accepted : (!ds.isEmpty && ds.all Char.isDigit) = true := by
      simp only [Bool.and_eq_true, Bool.not_eq_true', List.isEmpty_eq_false_iff, List.all_eq_true]
      exact ⟨some, digits⟩
    rw [exponentPart, text]
    rcases signs with ⟨negative, rfl⟩ | ⟨nonneg, rfl⟩
    · simp only [readExponent?, splitSign, accepted, magnitude, true_or, if_true, Option.getD_some, Option.some.injEq]
      omega
    · simp only [readExponent?, splitSign, accepted, magnitude, true_or, if_true, Option.getD_some, Option.some.injEq]
      simp only [Bool.false_eq_true, if_false]
      omega

/-! ## Texts as literals -/

/-- **The text of a positional number, with an exponent or without.** -/
def written (p : Positional) (x : Option Int) : List Char := p.text ++ exponentPart x

theorem isNumeral_written (h : p.Valid) (x : Option Int) : IsNumeral (written p x) := by
  have whole : Numeral.Reaches p.whole .whole := Numeral.reaches_digits h.whole h.some
  -- the phase that the digits end in, from which an exponent can go on
  obtain ⟨phase, reaches, marks, complete⟩ : ∃ phase, Numeral.Reaches p.text phase ∧
      phase.move 'e' = .next .mark ∧ phase.complete = true := by
    unfold Positional.text
    split
    · exact ⟨_, whole, rfl, rfl⟩
    · exact ⟨_, whole.point h.fraction, rfl, rfl⟩
  have begun : p.text ≠ [] := by
    unfold Positional.text
    split
    · exact h.some
    · exact fun none => h.some (List.append_eq_nil_iff.mp none).1
  have written_ne : written p x ≠ [] := fun none => begun (List.append_eq_nil_iff.mp none).1
  cases x with
  | none =>
    have plain : written p none = p.text := List.append_nil _
    rw [plain]
    exact reaches.isNumeral begun complete
  | some x =>
    obtain ⟨sign, ds, text, digits, more, -, signs⟩ := exponentText_eq x
    have signed : written p (some x) = p.text ++ 'e' :: sign :: ds := by rw [written, exponentPart, text]
    rw [signed] at written_ne ⊢
    exact (reaches.exponent marks (signs.symm.imp (·.2) (·.2)) digits more).isNumeral written_ne rfl

theorem takeWhile_digits (h : AreDigits ds) (stops : ∀ c ∈ rest.head?, c.isDigit = false) :
    (ds ++ rest).takeWhile Char.isDigit = ds ∧ (ds ++ rest).dropWhile Char.isDigit = rest := by
  rw [List.takeWhile_append_of_pos h, List.dropWhile_append_of_pos h]
  cases rest with
  | nil => exact ⟨List.append_nil _, rfl⟩
  | cons c rest =>
    have stop := Bool.eq_false_iff.mp (stops c rfl)
    rw [List.takeWhile_cons_of_neg stop, List.dropWhile_cons_of_neg stop]
    exact ⟨List.append_nil _, rfl⟩

/-- **A written number reads as all its digits and one exponent.** -/
theorem read?_written (h : p.Valid) {x : Option Int} (small : ∀ y ∈ x, y.natAbs < exponentCap) :
    Literal.read? (written p x) =
      some ⟨(p.whole ++ p.fraction).dropWhile (· == '0'), x.getD 0 - p.fraction.length⟩ := by
  have stops : ∀ c ∈ (exponentPart x).head?, c.isDigit = false := by
    cases x with
    | none => exact fun _ h => nomatch h
    | some x => rintro _ ⟨⟩; rfl
  have exponent := readExponent?_exponentPart small
  have begun : p.whole.isEmpty = false := List.isEmpty_eq_false_iff.mpr h.some
  unfold written Positional.text
  cases fraction : p.fraction with
  | nil =>
    obtain ⟨taken, left⟩ := takeWhile_digits h.whole stops
    simp only [List.isEmpty_nil, if_true, Literal.read?, taken, left, begun, Bool.false_and, Bool.false_eq_true,
      if_false]
    -- no point begins what stands behind the digits
    cases x <;> simp [exponentPart] at exponent ⊢ <;> simp [exponent]
  | cons d ds =>
    have digits : AreDigits (d :: ds) := fraction ▸ h.fraction
    obtain ⟨taken, left⟩ := @takeWhile_digits p.whole ('.' :: (d :: ds ++ exponentPart x)) h.whole (by rintro _ ⟨⟩; rfl)
    obtain ⟨taken', left'⟩ := takeWhile_digits digits stops
    have text : (if (d :: ds).isEmpty = true then p.whole else p.whole ++ '.' :: d :: ds) ++ exponentPart x =
        p.whole ++ '.' :: (d :: ds ++ exponentPart x) := List.append_assoc _ _ _
    rw [text]
    simp only [Literal.read?, taken, left, taken', left', begun, Bool.false_and, Bool.false_eq_true, if_false,
      exponent, Option.map_some]

end Formula.Decimal
