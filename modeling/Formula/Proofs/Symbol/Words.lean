import Formula.Symbol.Builtin

/-!
# Words — a binomial coefficient never leaves its machine words

The coefficient is computed on signed 64-bit words, with a product of 128 bits. Here the computation is
written down once more with every sum, difference and quotient **checked**: it has no result as soon as one
of them does not fit its word, a divisor is zero, or a loop has more turns than it may have. Only the product
that the loop itself asks about may be too large, which ends the exact part.

`checkedChoose_eq`: on words the checked computation always has a result, and it is that of the unchecked one. Whatever
the arguments of the builtin are, cut to whole numbers they are words (`fitsWord_truncate`).
-/

namespace Formula.Binomial

open Binary64

/-! ## Checked arithmetic -/

/-- **What a signed 64-bit word holds.** -/
def FitsWord (x : Int) : Prop := wordMin ≤ x ∧ x ≤ wordMax

instance (x : Int) : Decidable (FitsWord x) := inferInstanceAs (Decidable (_ ∧ _))

/-- A number as a signed 64-bit word. -/
def word? (x : Int) : Option Int := if FitsWord x then some x else none

/-- A number as a signed 128-bit word. -/
def wide? (x : Int) : Option Int := if -(exactMax : Int) - 1 ≤ x ∧ x ≤ exactMax then some x else none

/-- A quotient of 128-bit words, cut toward zero. -/
def quotient? (x y : Int) : Option Int := if y = 0 then none else wide? (x.tdiv y)

/-- The number of the next factor and the value so far, as words; `turns` is more than are needed. -/
def checkedExact (n r : Int) : (turns : Nat) → (i value : Int) → Option (Int × Int)
  | 0, _, _ => none
  | turns + 1, i, value =>
    if i ≤ r then do
      let base ← word? (n - r)
      let factor ← word? (base + i)
      match wide? (value * factor) with
      | none => return (i, value)
      | some product =>
        let value ← quotient? product i
        let i ← word? (i + 1)
        checkedExact n r turns i value
    else return (i, value)

/-- The rest of the factors in doubles, their numbers as words. -/
def checkedRough (n r : Int) : (turns : Nat) → (i : Int) → (value : Float) → Option Float
  | 0, _, _ => none
  | turns + 1, i, value =>
    if i ≤ r ∧ value.isFinite = true then do
      let base ← word? (n - r)
      let factor ← word? (base + i)
      let next ← word? (i + 1)
      checkedRough n r turns next (value * (ofInt factor / ofInt i))
    else return value

/-- **The binomial coefficient of two words**, with everything checked. -/
def checkedChoose (n r : Int) : Option Float :=
  if r < 0 ∨ n < r then some 0
  else do
    let other ← word? (n - r)
    let r := min r other
    let (i, value) ← checkedExact n r (r.toNat + 1) 1 1
    checkedRough n r (r.toNat + 1) i (ofInt value)

/-! ## What fits -/

theorem wordMin_eq : wordMin = -9223372036854775808 := by decide

theorem wordMax_eq : wordMax = 9223372036854775807 := by decide

theorem word?_of_nonneg {x : Int} (nonneg : 0 ≤ x) (le : x ≤ wordMax) : word? x = some x := by
  have low := wordMin_eq
  exact if_pos ⟨by omega, le⟩

/-- A number that is not negative fits 128 bits when it is not too large. -/
theorem wide?_natCast (n : Nat) : wide? n = if n ≤ exactMax then some (n : Int) else none := by
  have low : -(exactMax : Int) - 1 ≤ n := by omega
  simp only [wide?, low, true_and, Int.ofNat_le]

theorem quotient?_natCast {n k : Nat} (fits : n ≤ exactMax) (pos : 0 < k) :
    quotient? n k = some ((n / k : Nat) : Int) := by
  have smaller : n / k ≤ exactMax := Nat.le_trans (Nat.div_le_self n k) fits
  have nonzero : (k : Int) ≠ 0 := by omega
  rw [quotient?, if_neg nonzero, ← Int.ofNat_tdiv, wide?_natCast, if_pos smaller]

/-! ## The two parts -/

section Parts

variable {base r i factors turns : Nat}

/-- **The numbers of a factor are words**: what it counts from, the factor, and the number of the next. -/
theorem words_of_factor (fits : ((base + r : Nat) : Int) ≤ wordMax) (half : r ≤ base) (pos : 0 < i) (le : i ≤ r) :
    word? ((base + r : Nat) - r) = some (base : Int) ∧ word? (base + i) = some ((base + i : Nat) : Int) ∧
      word? ((i : Int) + 1) = some ((i + 1 : Nat) : Int) := by
  have difference : ((base + r : Nat) : Int) - r = base := by omega
  rw [difference, ← Int.natCast_add, ← Int.natCast_succ]
  exact ⟨word?_of_nonneg (by omega) (by omega), word?_of_nonneg (by omega) (by omega),
    word?_of_nonneg (by omega) (by omega)⟩

/-- A turn counts one factor. -/
theorem Progress.next_of_advance? {p q : Progress} (turn : p.advance? base = some q) : q.next = p.next + 1 := by
  obtain ⟨-, same⟩ := Option.ite_none_right_eq_some.mp turn
  rw [← Option.some_inj.mp same]

/-- The exact part counts at most the factors that are left. -/
theorem next_exactRun {p : Progress} :
    p.next ≤ (exactRun base factors p).next ∧ (exactRun base factors p).next ≤ p.next + factors := by
  induction factors generalizing p with
  | zero => exact ⟨Nat.le_refl _, Nat.le_refl _⟩
  | succ factors ih =>
    rw [exactRun]
    split
    next q turn =>
      have next : q.next = p.next + 1 := Progress.next_of_advance? turn
      have more := @ih q
      omega
    next => omega

/-- **The exact part stays in its words**, and is the unchecked one. -/
theorem checkedExact_eq (fits : ((base + r : Nat) : Int) ≤ wordMax) (half : r ≤ base) {p : Progress}
    (left : factors + p.next = r + 1) (pos : 0 < p.next) (enough : factors < turns) :
    checkedExact (base + r : Nat) r turns p.next p.value =
      some (((exactRun base factors p).next : Int), ((exactRun base factors p).value : Int)) := by
  -- on the factors that are left
  induction factors generalizing turns p with
  | zero =>
    obtain ⟨turns, rfl⟩ : ∃ k, turns = k + 1 := ⟨turns - 1, by omega⟩
    have done : ¬ (p.next : Int) ≤ r := by omega
    rw [checkedExact, if_neg done, exactRun]
    rfl
  | succ factors ih =>
    obtain ⟨turns, rfl⟩ : ∃ k, turns = k + 1 := ⟨turns - 1, by omega⟩
    have more : (p.next : Int) ≤ r := by omega
    obtain ⟨difference, factor, next⟩ := words_of_factor fits half pos (Int.ofNat_le.mp more)
    simp only [checkedExact, if_pos more, difference, factor, Option.bind_eq_bind, Option.bind_some]
    rw [← Int.natCast_mul, wide?_natCast, exactRun, Progress.advance?]
    by_cases product : p.value * (base + p.next) ≤ exactMax
    · simp only [if_pos product, quotient?_natCast product pos, next, Option.bind_some]
      exact @ih turns ⟨p.next + 1, p.value * (base + p.next) / p.next⟩ (by simp only; omega) (Nat.succ_pos _) (by omega)
    · simp only [if_neg product]
      rfl

/-- **The rough part keeps the numbers of its factors in words.** -/
theorem checkedRough_eq (fits : ((base + r : Nat) : Int) ≤ wordMax) (half : r ≤ base) {e : Estimate}
    (left : factors + e.next = r + 1) (pos : 0 < e.next) (enough : factors < turns) :
    checkedRough (base + r : Nat) r turns e.next e.value = some (roughRun base factors e).value := by
  -- on the factors that are left
  induction factors generalizing turns e with
  | zero =>
    obtain ⟨turns, rfl⟩ : ∃ k, turns = k + 1 := ⟨turns - 1, by omega⟩
    have done : ¬ ((e.next : Int) ≤ r ∧ e.value.isFinite = true) := by omega
    rw [checkedRough, if_neg done, roughRun]
    rfl
  | succ factors ih =>
    obtain ⟨turns, rfl⟩ : ∃ k, turns = k + 1 := ⟨turns - 1, by omega⟩
    rw [checkedRough, roughRun]
    by_cases finite : e.value.isFinite = true
    · have more : (e.next : Int) ≤ r := by omega
      obtain ⟨difference, factor, next⟩ := words_of_factor fits half pos (Int.ofNat_le.mp more)
      rw [if_pos ⟨more, finite⟩, if_pos finite]
      simp only [difference, factor, next, Option.bind_eq_bind, Option.bind_some]
      exact @ih turns ⟨e.next + 1, e.value * (ofInt (base + e.next : Nat) / ofInt e.next)⟩ (by simp only; omega)
        (Nat.succ_pos _) (by omega)
    · rw [if_neg fun h => finite h.2, if_neg finite]
      rfl

end Parts

/-! ## Both parts -/

/-- **On words the checked computation has the result of the unchecked one.** -/
theorem checkedChoose_eq {n r : Int} (hn : FitsWord n) : checkedChoose n r = some (choose n r) := by
  unfold checkedChoose choose
  by_cases outside : r < 0 ∨ n < r
  · rw [if_pos outside, if_pos outside]
  · rw [if_neg outside, if_neg outside]
    have difference : word? (n - r) = some (n - r) := word?_of_nonneg (by omega) (by have := hn.2; omega)
    simp only [difference, Option.bind_eq_bind, Option.bind_some]
    -- from here on it is the lesser of the two, and what is left of `n`
    obtain ⟨k, hk⟩ := Int.eq_ofNat_of_zero_le (show 0 ≤ min r (n - r) by omega)
    obtain ⟨base, hbase⟩ := Int.eq_ofNat_of_zero_le (show 0 ≤ n - min r (n - r) by omega)
    obtain rfl : n = (base + k : Nat) := by omega
    have half : k ≤ base := by omega
    rw [hbase, hk, Int.toNat_natCast, Int.toNat_natCast]
    have exact : checkedExact (base + k : Nat) k (k + 1) 1 1 = _ :=
      checkedExact_eq hn.2 half (p := ⟨1, 1⟩) rfl Nat.one_pos (Nat.lt_succ_self k)
    rw [exact, estimate]
    obtain ⟨first, last⟩ := @next_exactRun base k ⟨1, 1⟩
    generalize exactRun base k ⟨1, 1⟩ = p at first last
    simp only at first last
    exact checkedRough_eq hn.2 half (e := ⟨p.next, ofInt p.value⟩) (by simp only; omega) first (by omega)

/-- **A double cut to a whole number is a word.** -/
theorem fitsWord_truncate (x : Float) : FitsWord (truncate x) := by
  have low := wordMin_eq
  have high := wordMax_eq
  unfold truncate FitsWord
  split
  · omega
  · split <;> omega
  · dsimp only
    omega

end Formula.Binomial
