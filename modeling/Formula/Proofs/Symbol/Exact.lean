import Formula.Proofs.Symbol.Coefficient
import Formula.Proofs.Symbol.Words

/-!
# The exact part — what holds each time its loop comes round

The exact part of a binomial coefficient takes one turn a factor: it multiplies, then divides. Its **states** are the
first one and whatever a turn leads to while factors are left (`Visited`). They are the coefficients on the way, as
far as their products fit (`visited_iff`), and from each of them the loop goes on to the same end
(`Visited.exactRun_eq`), also when it is computed on words with everything checked (`Visited.checkedExact_eq`).

`stepwise_exactRun`: for words `r ≤ n`, with the lesser of `r` and `n - r` taken for `r`, the value at the head of
the loop is the coefficient of `n - r + i - 1` and `i - 1`, each division is without remainder, each factor lies between
one and `n`, and the loop breaks off before a product that does not fit 128 bits or ends with the coefficient of `n`
and `r`. What becomes of a value at which it breaks off is not said here: the rest is multiplied in doubles.
-/

namespace Formula.Binomial

open Binary64

variable {base factors : Nat} {p q : Progress}

/-! ## The states -/

/-- **The states at the head of the loop**: the first one, and what a turn leads to while factors are left. -/
inductive Visited (base factors : Nat) : Progress → Prop
  | start : Visited base factors ⟨1, 1⟩
  | turn {p q : Progress} : Visited base factors p → p.next ≤ factors → p.advance? base = some q →
      Visited base factors q

/-- **A turn from a coefficient** leads to the next one, and is taken when the product between them fits. -/
theorem Progress.advance?_after_eq_some {j : Nat} :
    (after base j).advance? base = some q ↔ product base (j + 1) ≤ exactMax ∧ after base (j + 1) = q := by
  rw [advance?_after, Option.ite_none_right_eq_some, Option.some_inj]

/-- A coefficient on the way is a state when the product that it comes from fits. -/
theorem visited_after {j : Nat} (most : j ≤ factors) (fits : product base j ≤ exactMax) :
    Visited base factors (.after base j) := by
  induction j with
  | zero =>
    rw [Progress.after_zero]
    exact .start
  | succ j ih =>
    have before : Visited base factors (.after base j) :=
      ih (Nat.le_of_succ_le most) (Nat.le_trans (product_le_succ base j) fits)
    exact before.turn most (Progress.advance?_after_eq_some.mpr ⟨fits, rfl⟩)

/-- **The states are the coefficients on the way**, as far as the products that they come from fit. -/
theorem visited_iff : Visited base factors p ↔ ∃ j ≤ factors, product base j ≤ exactMax ∧ p = .after base j := by
  constructor
  · intro visited
    induction visited with
    | start => exact ⟨0, Nat.zero_le factors, product_zero_le base, (Progress.after_zero base).symm⟩
    | turn _ more turn ih =>
      obtain ⟨j, -, -, rfl⟩ := ih
      obtain ⟨fits, rfl⟩ := Progress.advance?_after_eq_some.mp turn
      exact ⟨j + 1, more, fits, rfl⟩
  · rintro ⟨j, most, fits, rfl⟩
    exact visited_after most fits

/-! ## What holds of a state -/

/-- **The value at the head of the loop** is the coefficient of the factors before, and fits. -/
theorem Visited.value_eq (visited : Visited base factors p) : 1 ≤ p.next ∧ p.next ≤ factors + 1 ∧
    p.value = (base + p.next - 1).choose (p.next - 1) ∧ p.value ≤ exactMax := by
  obtain ⟨j, most, fits, rfl⟩ := visited_iff.mp visited
  exact ⟨Nat.le_add_left 1 j, Nat.succ_le_succ most, rfl, choose_le_of_product fits⟩

/-- **The factor of a turn and the number of the next one are words.** -/
theorem Visited.fitsWord (fits : ((base + factors : Nat) : Int) ≤ wordMax) (half : factors ≤ base)
    (visited : Visited base factors p) (more : p.next ≤ factors) :
    FitsWord ((base : Int) + p.next) ∧ FitsWord ((p.next : Int) + 1) := by
  have low := wordMin_eq
  have begun : 1 ≤ p.next := visited.value_eq.1
  exact ⟨⟨by omega, by omega⟩, ⟨by omega, by omega⟩⟩

/-- **Each division is without remainder.** -/
theorem Visited.dvd (visited : Visited base factors p) : p.next ∣ p.value * (base + p.next) := by
  obtain ⟨j, -, -, rfl⟩ := visited_iff.mp visited
  rw [Progress.value_mul_after]
  exact Nat.dvd_mul_left (j + 1) _

/-- **From each state the loop goes on to the same end.** -/
theorem Visited.exactRun_eq (visited : Visited base factors p) :
    exactRun base (factors + 1 - p.next) p = exactRun base factors ⟨1, 1⟩ := by
  induction visited with
  | start => rw [Nat.add_sub_cancel]
  | @turn p q _ more turn ih =>
    have next : q.next = p.next + 1 := Progress.next_of_advance? turn
    have left : factors + 1 - p.next = (factors + 1 - q.next) + 1 := by omega
    rw [left, exactRun, turn] at ih
    exact ih

/-- **From each state the loop stays in its words**, and goes on to the same end. -/
theorem Visited.checkedExact_eq (fits : ((base + factors : Nat) : Int) ≤ wordMax) (half : factors ≤ base)
    (visited : Visited base factors p) :
    checkedExact (base + factors : Nat) factors (factors + 2 - p.next) p.next p.value =
      some (((exactRun base factors ⟨1, 1⟩).next : Int), ((exactRun base factors ⟨1, 1⟩).value : Int)) := by
  obtain ⟨begun, most, -⟩ := visited.value_eq
  rw [← visited.exactRun_eq]
  exact Binomial.checkedExact_eq fits half (by omega) begun (by omega)

/-- **How the loop ends**: before a product that does not fit, or with all factors multiplied. -/
theorem exists_end (base factors : Nat) : ∃ last, exactRun base factors ⟨1, 1⟩ = last ∧ Visited base factors last ∧
    (last.next ≤ factors ∧ exactMax < last.value * (base + last.next) ∨ last = .after base factors) := by
  obtain ⟨k, most, run, fits, stops⟩ := exists_exactRun_eq base factors
  refine ⟨.after base k, run, visited_after most fits, ?_⟩
  rcases Nat.lt_or_eq_of_le most with less | rfl
  · exact .inl ⟨less, Progress.value_mul_after base k ▸ stops less⟩
  · exact .inr rfl

/-! ## The whole loop -/

/-- **How the exact part runs for `r` of `n`** to its last state, `factors` being the lesser of `r` and `n - r` and
`base` the rest of `n`. -/
structure Stepwise (n r base factors : Nat) (last : Progress) : Prop where
  /-- What is computed before the loop are words. -/
  before : FitsWord ((n : Int) - r) ∧ (factors : Int) = min (r : Int) (n - r) ∧
    FitsWord ((n : Int) - factors) ∧ (base : Int) = n - factors
  /-- **At the head of the loop** the value is the coefficient of the factors before, and fits. -/
  head : ∀ p, Visited base factors p → 1 ≤ p.next ∧ p.next ≤ factors + 1 ∧
    p.value = (base + p.next - 1).choose (p.next - 1) ∧ p.value ≤ exactMax
  /-- **In each turn** the factor lies between one and `n`, and it and the number of the next one are words. -/
  words : ∀ p, Visited base factors p → p.next ≤ factors →
    1 ≤ base + p.next ∧ base + p.next ≤ n ∧ FitsWord ((base : Int) + p.next) ∧ FitsWord ((p.next : Int) + 1)
  /-- **In each turn** the division is without remainder. -/
  division : ∀ p, Visited base factors p → p.next ≤ factors → p.next ∣ p.value * (base + p.next)
  /-- From each state the loop goes on to the last one. -/
  onward : ∀ p, Visited base factors p → exactRun base (factors + 1 - p.next) p = last
  /-- On words, with every sum, difference and quotient checked, the loop gets there as well. -/
  checked : ∀ p, Visited base factors p →
    checkedExact n factors (factors + 2 - p.next) p.next p.value = some ((last.next : Int), (last.value : Int))
  /-- **At the end** the loop breaks off before a product that does not fit, or has multiplied all factors, and then
  the value is the coefficient of `n` and `r`. -/
  ends : Visited base factors last ∧
    (last.next ≤ factors ∧ last.value = (base + last.next - 1).choose (last.next - 1) ∧
        exactMax < last.value * (base + last.next) ∨
      last.next = factors + 1 ∧ last.value = n.choose r)
  /-- The coefficient in doubles goes on from that end. -/
  coefficient : choose n r = (roughRun base (factors + 1 - last.next) ⟨last.next, ofInt last.value⟩).value

/-- **How the exact part runs**, for all words `r ≤ n`. -/
theorem stepwise_exactRun {n r : Nat} (word : FitsWord n) (inside : r ≤ n) :
    Stepwise n r (n - min r (n - r)) (min r (n - r)) (exactRun (n - min r (n - r)) (min r (n - r)) ⟨1, 1⟩) := by
  have low := wordMin_eq
  have most : (n : Int) ≤ wordMax := word.2
  have full := choose_lesser inside
  have result := choose_natCast inside
  have lesser : min r (n - r) ≤ r ∧ min r (n - r) ≤ n - r ∧ (min r (n - r) = r ∨ min r (n - r) = n - r) := by omega
  -- the loop counts with the lesser of the two and with what that leaves of `n`
  generalize min r (n - r) = factors at full result lesser ⊢
  obtain ⟨base, rfl⟩ : ∃ base, n = base + factors := ⟨n - factors, by omega⟩
  rw [Nat.add_sub_cancel] at full result ⊢
  have half : factors ≤ base := by omega
  obtain ⟨last, run, visited, stop⟩ := exists_end base factors
  exact {
    before := ⟨⟨by omega, by omega⟩, by omega, ⟨by omega, by omega⟩, by omega⟩
    head := fun _ visited => visited.value_eq
    words := fun p visited more =>
      ⟨Nat.le_add_left_of_le visited.value_eq.1, Nat.add_le_add_left more base, visited.fitsWord most half more⟩
    division := fun _ visited _ => visited.dvd
    onward := fun _ visited => visited.exactRun_eq
    checked := fun _ visited => visited.checkedExact_eq most half
    ends := by
      rw [run]
      refine ⟨visited, ?_⟩
      rcases stop with off | rfl
      · exact .inl ⟨off.1, visited.value_eq.2.2.1, off.2⟩
      · exact .inr ⟨rfl, full⟩
    coefficient := result }

/-- The greatest word, and three less: the loop breaks off before the third product. -/
theorem stepwise_greatestWord :
    FitsWord (9223372036854775807 : Nat) ∧ 9223372036854775804 ≤ 9223372036854775807 ∧
      Stepwise 9223372036854775807 9223372036854775804 9223372036854775804 3
        ⟨3, 42535295865117307909863395836834086915⟩ := by
  have run : exactRun 9223372036854775804 3 ⟨1, 1⟩ = ⟨3, 42535295865117307909863395836834086915⟩ := by decide
  have steps : Stepwise 9223372036854775807 9223372036854775804 9223372036854775804 3
      (exactRun 9223372036854775804 3 ⟨1, 1⟩) := stepwise_exactRun (by decide) (by decide)
  exact ⟨by decide, by decide, run ▸ steps⟩

end Formula.Binomial
