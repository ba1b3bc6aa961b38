import Formula.Proofs.Decimal.General

/-!
# Formats — the same text from two roundings

A text with `p` significant digits can be had from two plainer formats. The **scientific** format with `p - 1` places
settles the exponent, and where that is large or small its mantissa is the text. Otherwise the **fixed** format with as
many places as the exponent leaves is the text: it rounds the number a second time and knows nothing of the first
rounding. Either is then cut at the zeros that end it. `formatted?` is that text, and it is `significantText?`.

The two roundings agree because they are of one number to one unit (`fixed_eq_place`). Where the first carries into one
more digit, the second has a unit ten times as large and no digit to round in (`roundHalfEven_of_carry`).

So the text of a finite double is one of its value rounded to `p` digits, laid out by the exponent after rounding, from
either computation (`significantText?_general`).

**Where there is no text.** Neither format has more than `maxPlaces` places, so with 65537 digits no finite double has a
text, though one digit may write it (`significantText_ten_missing`).
-/

namespace Formula.Decimal

open Binary64

variable {p n d num den rank : Nat} {x : Int} {negative : Bool} {cs ds sign : List Char}

/-! ## Two formats -/

/-- **A quotient with `n` places after the point**, rounded to the last of them. -/
def fixed (n num den : Nat) : Positional :=
  let ds := padded (n + 1) (roundHalfEven (num * tens n) den)
  ⟨ds.take (ds.length - n), ds.drop (ds.length - n)⟩

/-- A finite double in the fixed format. -/
def fixedText? (negative : Bool) (n rank : Nat) : Option (List Char) :=
  if n ≤ maxPlaces then some (signText negative ++ (fixed n (quanta rank) quantaPerOne).text) else none

/-- A finite double in the scientific format; its exponent has a sign only where it is negative. -/
def scientificText? (negative : Bool) (n rank : Nat) : Option (List Char) :=
  let (d, x) := toSignificant (quanta rank) quantaPerOne (n + 1)
  let mantissa := signText negative ++ (place (padded (n + 1) d) 1).text
  if n ≤ maxPlaces then some (mantissa ++ 'e' :: (signText (decide (x < 0)) ++ digits x.natAbs)) else none

/-- What stands before the mark of an exponent, and what stands after it. -/
def splitMark (cs : List Char) : List Char × List Char :=
  (cs.takeWhile (· != 'e'), (cs.dropWhile (· != 'e')).tail)

/-- The whole number that a text denotes. -/
def readInt? (cs : List Char) : Option Int :=
  let (negative, ds) := splitSign cs
  if !ds.isEmpty && ds.all Char.isDigit then some (if negative then -(ofDigits ds : Int) else ofDigits ds) else none

/-- A text without the `c` that end it. -/
def trimEnd (c : Char) (cs : List Char) : List Char := (cs.reverse.dropWhile (· == c)).reverse

/-- **A text without the zeros that end its fraction**, and without the point when nothing is left behind it. -/
def trimFraction (cs : List Char) : List Char :=
  if '.' ∈ cs then trimEnd '.' (trimEnd '0' cs) else cs

/-- The greatest number of digits that an exponent is compared with. -/
def exponentMax : Int := 2 ^ 63 - 1

/-- **A finite double with at most `p` significant digits**, by way of the two formats. -/
def formattedDigits? (negative : Bool) (p rank : Nat) : Option (List Char) := do
  let scientific ← scientificText? negative (p - 1) rank
  let (mantissa, exponent) := splitMark scientific
  let x := (readInt? exponent).getD 0
  let limit := min (p : Int) exponentMax
  if x < leastPositional ∨ limit ≤ x then return trimFraction mantissa ++ 'e' :: exponentText x
  else
    let positional ← fixedText? negative (limit - 1 - x).toNat rank
    return trimFraction positional

/-- **A double with at most `p` significant digits**, by way of the two formats; at least one is written. -/
def formatted? (x : Float) (p : Nat) : Option String :=
  match view x with
  | .nan => some "nan"
  | .infinite negative => some (if negative then "-inf" else "inf")
  | .finite negative rank => (formattedDigits? negative (max p 1) rank).map String.ofList

/-! ## The second rounding -/

/-- **Where a rounding carries**, the number is so close below the power of ten that it rounds to it in a unit ten times
as large too. -/
theorem roundHalfEven_of_carry {num' den' : Nat} (pos : 0 < p) (denPos : 0 < den) (denPos' : 0 < den')
    (scaled : (num / den : ℚ) = 10 * (num' / den')) (few : num / den < 10 ^ p)
    (carry : roundHalfEven num den = 10 ^ p) : roundHalfEven num' den' = 10 ^ (p - 1) := by
  obtain ⟨near, -⟩ := @roundHalfEven_near num den denPos
  have below : (num / den : ℚ) < 10 ^ p := by
    have denQ : (0 : ℚ) < den := by exact_mod_cast denPos
    rw [div_lt_iff₀ denQ]
    exact_mod_cast (Nat.div_lt_iff_lt_mul denPos).mp few
  have power : (10 : ℚ) ^ p = 10 * 10 ^ (p - 1) := by
    rw [← pow_succ', Nat.sub_add_cancel pos]
  rw [carry, scaled, Nat.cast_pow, Nat.cast_ofNat, power] at near
  rw [scaled, power] at below
  obtain ⟨low, high⟩ := abs_le.mp (show |(10 * 10 ^ (p - 1) - 10 * (num' / den') : ℚ)| ≤ 1 / 2 by linarith)
  refine roundHalfEven_eq denPos' ?_ ?_ fun _ => ⟨?_, ?_⟩ <;> push_cast <;> linarith

/-- **The same quotient is rounded to the same number.** -/
theorem roundHalfEven_congr {num' den' : Nat} (pos : 0 < den) (pos' : 0 < den')
    (same : (num / den : ℚ) = num' / den') : roundHalfEven num den = roundHalfEven num' den' := by
  obtain ⟨near, -⟩ := @roundHalfEven_near num' den' pos'
  have even := @even_roundHalfEven num' den' pos'
  generalize roundHalfEven num' den' = m at near even
  rw [← same] at near even
  obtain ⟨low, high⟩ := abs_le.mp (show |(m - num / den : ℚ)| ≤ 1 / 2 by linarith)
  refine roundHalfEven_eq pos (by linarith) (by linarith) fun odd => ?_
  have inside : 2 * |(m - num / den : ℚ)| ≠ 1 := fun tie => by
    have := Nat.even_iff.mp (even tie)
    omega
  have close : |(m - num / den : ℚ)| < 1 / 2 := lt_of_le_of_ne (by linarith) fun tie => inside (by linarith)
  obtain ⟨low, high⟩ := abs_lt.mp close
  exact ⟨by linarith, by linarith⟩

/-- **The second rounding gives the digits of the first**, whatever that has carried. -/
theorem roundHalfEven_places (denPos : 0 < den) (pos : 0 < p) (rounded : toSignificant num den p = (d, x))
    (high : x < p) : roundHalfEven (num * tens (p - 1 - x : Int).toNat) den = d := by
  rcases Nat.eq_zero_or_pos num with rfl | numPos
  · have zero : toSignificant 0 den p = (0, 0) := if_pos rfl
    rw [zero] at rounded
    cases rounded
    simp [roundHalfEven]
  · obtain ⟨num', den', denPos', quotient, many, few, all⟩ := exists_scaled numPos denPos pos
    rw [all] at rounded
    generalize magnitude num den = m at quotient rounded
    -- the number in units of the last place, which is that of the last digit or ten times it
    have value (k : Nat) (hk : (k : Int) = p - 1 - x) :
        ((num * tens k : Nat) / den : ℚ) = num' / den' * 10 ^ (m - x) := by
      rw [Nat.cast_mul, mul_div_right_comm, ← quotient, cast_tens, mul_assoc, ← zpow_add₀ (by norm_num), hk]
      congr 2
      omega
    have value := value _ (Int.toNat_of_nonneg (show 0 ≤ (p - 1 - x : Int) by omega))
    split_ifs at rounded with carry
    · cases rounded
      refine roundHalfEven_of_carry pos denPos' denPos ?_ few carry
      rw [value, show m - (m + 1) = -1 by omega]
      ring
    · cases rounded
      refine roundHalfEven_congr denPos denPos' ?_
      rw [value, sub_self, zpow_zero, mul_one]

/-- **Split behind its places**, the number of the fixed format is the digits with the point where the exponent puts
it. -/
theorem fixed_eq_place (denPos : 0 < den) (pos : 0 < p) (rounded : toSignificant num den p = (d, x)) (high : x < p)
    (few : d < 10 ^ p) (first : 10 ^ (p - 1) ≤ d ∨ d = 0 ∧ x = 0) :
    fixed (p - 1 - x : Int).toNat num den = place (padded p d) (x + 1) := by
  have second := roundHalfEven_places denPos pos rounded high
  obtain ⟨n, hn⟩ := Int.eq_ofNat_of_zero_le (show 0 ≤ (p - 1 - x : Int) by omega)
  rw [hn, Int.toNat_natCast] at second ⊢
  have length := length_padded pos few
  unfold fixed place
  rw [second]
  dsimp only
  split
  next low =>
    -- the point stands before all digits, and one zero stands before it
    have many := first.resolve_right fun zero => by omega
    have exact := padded_of_width_le (Nat.le_of_eq (width_of_digits many few pos).symm)
    have front : padded (n + 1) d = '0' :: (zeros (-(x + 1)).toNat ++ padded p d) := by
      rw [padded_eq, width_of_digits many few pos, exact, show n + 1 - p = (-(x + 1)).toNat + 1 by omega]
      rfl
    have places : ('0' :: (zeros (-(x + 1)).toNat ++ padded p d)).length - n = 1 := by
      rw [List.length_cons, List.length_append, zeros, List.length_replicate, length]
      omega
    rw [front, places]
    rfl
  next inner =>
    -- there are as many digits as for the first rounding
    have same : padded (n + 1) d = padded p d := by
      rcases first with many | ⟨rfl, rfl⟩
      · have width := width_of_digits many few pos
        rw [padded_of_width_le (by omega), padded_of_width_le (by omega)]
      · rw [show n + 1 = p by omega]
    rw [same, length, show p - n = (x + 1).toNat by omega, Nat.sub_eq_zero_of_le (by omega : (x + 1).toNat ≤ p), zeros,
      List.replicate_zero, List.append_nil]

/-! ## Cutting texts -/

/-- Nothing is cut where the last character is another. -/
theorem trimEnd_of_last {c : Char} (h : ∀ d ∈ cs.getLast?, d ≠ c) : trimEnd c cs = cs := by
  rw [List.getLast?_eq_head?_reverse] at h
  unfold trimEnd
  cases back : cs.reverse with
  | nil => rw [List.reverse_eq_nil_iff.mp back]; rfl
  | cons d ds =>
    rw [back] at h
    have other : ¬ (d == c) = true := fun same => h d rfl (beq_iff_eq.mp same)
    rw [List.dropWhile_cons_of_neg (p := (· == c)) other, ← back, List.reverse_reverse]

theorem trimEnd_concat (c : Char) (cs : List Char) : trimEnd c (cs ++ [c]) = trimEnd c cs := by
  rw [trimEnd, List.reverse_append, List.reverse_singleton, List.singleton_append,
    List.dropWhile_cons_of_pos (p := (· == c)) (beq_self_eq_true c)]
  rfl

/-- Cutting ends at another character. -/
theorem trimEnd_append_cons {c d : Char} (other : d ≠ c) (cs ds : List Char) :
    trimEnd c (cs ++ d :: ds) = cs ++ d :: trimEnd c ds := by
  have stays : ¬ (d == c) = true := fun same => other (beq_iff_eq.mp same)
  unfold trimEnd
  rw [List.reverse_append, List.reverse_cons, List.append_assoc, List.dropWhile_append]
  split
  next none =>
    rw [List.isEmpty_iff.mp none, List.singleton_append, List.dropWhile_cons_of_neg (p := (· == c)) stays,
      List.reverse_cons, List.reverse_reverse]
    rfl
  next => rw [List.reverse_append, List.reverse_append, List.reverse_reverse, List.append_assoc]; rfl

/-- A text of digits does not end in a point. -/
theorem last_of_digits (digits : AreDigits ds) : ∀ c ∈ ds.getLast?, c ≠ '.' := by
  rintro c hc rfl
  cases digits '.' (List.mem_of_getLast? hc)

/-- **A positional text is cut** as the number is trimmed, whatever sign stands before it. -/
theorem trimFraction_text {q : Positional} (h : q.Valid) (pointless : '.' ∉ sign) :
    trimFraction (sign ++ q.text) = sign ++ q.trimmed.text := by
  have trimmed : q.trimmed.fraction = trimEnd '0' q.fraction := rfl
  have whole : q.trimmed.whole = q.whole := rfl
  have last : ∀ c ∈ (sign ++ q.whole).getLast?, c ≠ '.' := by
    rw [List.getLast?_append_of_ne_nil _ h.some]
    exact last_of_digits h.whole
  unfold Positional.text
  cases fraction : q.fraction with
  | nil =>
    have none : '.' ∉ sign ++ q.whole := by
      rw [List.mem_append, not_or]
      exact ⟨pointless, fun point => nomatch h.whole _ point⟩
    rw [fraction] at trimmed
    rw [trimmed, whole]
    exact if_neg none
  | cons f fs =>
    have point : '.' ∈ sign ++ (q.whole ++ '.' :: f :: fs) := by simp
    rw [List.isEmpty_cons, if_neg Bool.false_ne_true, trimFraction, if_pos point, ← List.append_assoc,
      trimEnd_append_cons (by decide), ← fraction, ← trimmed, whole]
    split
    next none =>
      -- nothing is left behind the point, so it is cut as well
      rw [List.isEmpty_iff.mp none, trimEnd_concat, trimEnd_of_last last]
    next some =>
      have some : q.trimmed.fraction ≠ [] := fun none => some (List.isEmpty_iff.mpr none)
      have ends : ∀ c ∈ (sign ++ q.whole ++ '.' :: q.trimmed.fraction).getLast?, c ≠ '.' := by
        rw [List.append_cons, List.getLast?_append_of_ne_nil _ some]
        exact last_of_digits h.trimmed.fraction
      rw [trimEnd_of_last ends, List.append_assoc]

/-! ## Reading the scientific format -/

theorem splitMark_append (unmarked : 'e' ∉ cs) (ds : List Char) : splitMark (cs ++ 'e' :: ds) = (cs, ds) := by
  have other : ∀ c ∈ cs, (c != 'e') = true := fun c hc => bne_iff_ne.mpr fun same => unmarked (same ▸ hc)
  rw [splitMark, List.takeWhile_append_of_pos other, List.dropWhile_append_of_pos other]
  simp

/-- A positional number has no mark in it. -/
theorem unmarked_text {q : Positional} (h : q.Valid) (negative : Bool) : 'e' ∉ signText negative ++ q.text := by
  have whole : 'e' ∉ q.whole := fun mark => nomatch h.whole _ mark
  have fraction : 'e' ∉ q.fraction := fun mark => nomatch h.fraction _ mark
  have sign : 'e' ∉ signText negative := by cases negative <;> decide
  unfold Positional.text
  split <;> simp [sign, whole, fraction]

theorem splitSign_digits (digits : AreDigits ds) : splitSign ds = (false, ds) := by
  unfold splitSign
  split
  next => cases digits _ List.mem_cons_self
  next => cases digits _ List.mem_cons_self
  next => rfl

/-- **A whole number is read** as it is written. -/
theorem readInt?_written (x : Int) : readInt? (signText (decide (x < 0)) ++ digits x.natAbs) = some x := by
  have digits := areDigits_digits x.natAbs
  have begun : (Decimal.digits x.natAbs).isEmpty = false := List.isEmpty_eq_false_iff.mpr Nat.toDigits_ne_nil
  have all : (Decimal.digits x.natAbs).all Char.isDigit = true := List.all_eq_true.mpr digits
  have accepted : (!(Decimal.digits x.natAbs).isEmpty && (Decimal.digits x.natAbs).all Char.isDigit) = true := by
    rw [begun, all]
    rfl
  by_cases low : x < 0
  · have sign : splitSign (signText (decide (x < 0)) ++ Decimal.digits x.natAbs) = (true, Decimal.digits x.natAbs) := by
      rw [decide_eq_true low]
      rfl
    rw [readInt?, sign]
    dsimp only
    rw [if_pos accepted, if_pos rfl, ofDigits_digits, Option.some.injEq]
    omega
  · have sign : splitSign (signText (decide (x < 0)) ++ Decimal.digits x.natAbs) = (false, Decimal.digits x.natAbs) := by
      rw [decide_eq_false low]
      exact splitSign_digits digits
    rw [readInt?, sign]
    dsimp only
    rw [if_pos accepted, if_neg Bool.false_ne_true, ofDigits_digits, Option.some.injEq]
    omega

/-! ## One text -/

/-- A zero and what is rounded to digits begin as their exponent says. -/
theorem toSignificant_first (denPos : 0 < den) (pos : 0 < p) (rounded : toSignificant num den p = (d, x)) :
    d < 10 ^ p ∧ (10 ^ (p - 1) ≤ d ∨ d = 0 ∧ x = 0) := by
  rcases Nat.eq_zero_or_pos num with rfl | numPos
  · have zero : toSignificant 0 den p = (0, 0) := if_pos rfl
    rw [zero] at rounded
    cases rounded
    exact ⟨Nat.pow_pos (by decide), .inr ⟨rfl, rfl⟩⟩
  · obtain ⟨d', x', all, many, few, -⟩ := toSignificant_rounded numPos denPos pos
    rw [all] at rounded
    cases rounded
    exact ⟨few, .inl many⟩

theorem formattedDigits?_eq (pos : 0 < p) (negative : Bool) (rank : Nat) :
    formattedDigits? negative p rank =
      if layoutFits p rank then some (signText negative ++ significantDigits p rank) else none := by
  have one : 0 < quantaPerOne := by exact_mod_cast quantaPerOne_pos
  have places : p - 1 + 1 = p := Nat.sub_add_cancel pos
  rcases rounded : toSignificant (quanta rank) quantaPerOne p with ⟨d, x⟩
  obtain ⟨few, first⟩ := toSignificant_first one pos rounded
  have pointless : '.' ∉ signText negative := by cases negative <;> decide
  have valid (point : Int) := valid_place (areDigits_padded p d) point
  simp only [formattedDigits?, scientificText?, layoutFits, significantExponent, significantDigits, places, rounded]
  by_cases room : p - 1 ≤ maxPlaces
  · have limit : min (p : Int) exponentMax = p := by
      rw [maxPlaces] at room
      rw [exponentMax]
      omega
    rw [if_pos room, Option.bind_eq_bind, Option.bind_some, splitMark_append (unmarked_text (valid 1) negative)]
    dsimp only
    rw [readInt?_written, Option.getD_some, limit, layout, placesAsked, decide_eq_true room, Bool.true_and]
    by_cases outside : x < leastPositional ∨ (p : Int) ≤ x
    · rw [if_pos outside, if_pos outside, if_pos outside, decide_eq_true room, if_pos rfl,
        trimFraction_text (valid 1) pointless, List.append_assoc]
      rfl
    · rw [if_neg outside, if_neg outside, if_neg outside, fixedText?]
      by_cases room' : (p - 1 - x : Int).toNat ≤ maxPlaces
      · rw [if_pos room', Option.bind_some, decide_eq_true room', if_pos rfl,
          fixed_eq_place one pos rounded (by omega) few first, trimFraction_text (valid (x + 1)) pointless]
        rfl
      · rw [if_neg room', decide_eq_false room']
        rfl
  · rw [if_neg room, decide_eq_false room]
    rfl

/-- **Both ways give the same text**, and none in the same cases. -/
theorem formatted?_eq (x : Float) (p : Nat) : formatted? x p = significantText? x p := by
  unfold formatted? significantText? significantText
  cases view x with
  | nan => rfl
  | infinite negative => cases negative <;> rfl
  | finite negative rank =>
    dsimp only
    rw [formattedDigits?_eq (show 0 < max p 1 by omega)]
    cases layoutFits (max p 1) rank <;> rfl

/-- **A text is that of a finite double with at most `p` significant digits**: its sign, and a layout of its value
rounded to them. -/
def IsSignificantText (negative : Bool) (rank p : Nat) (text : String) : Prop :=
  ∃ D x body, RoundedTo p (quanta rank / quantaPerOne) D ∧ HasExponent D x ∧ GeneralText p D x body ∧
    text.toList = signText negative ++ body

/-- **A finite double with at most `p` significant digits**: from one rounding or from two it is the same text, that of
its value rounded, and there is one exactly where the layout has room, as it has with 65532 digits and fewer. -/
theorem significantText?_general {x : Float} (finite : view x = .finite negative rank) (p : Nat) :
    formatted? x p = significantText? x p ∧
      (∀ text ∈ significantText? x p, IsSignificantText negative rank (max p 1) text) ∧
      ((significantText? x p).isSome ↔
        max p 1 - 1 ≤ maxPlaces ∧ placesAsked (max p 1) (significantExponent (max p 1) rank) ≤ maxPlaces) ∧
      (p + 3 ≤ maxPlaces → (significantText? x p).isSome) := by
  have written : significantText? x p = if layoutFits (max p 1) rank then some (significantText x p) else none := by
    simp only [significantText?, finite]
  have text_eq : (significantText x p).toList = signText negative ++ significantDigits (max p 1) rank := by
    simp only [significantText, finite, String.toList_ofList]
  refine ⟨formatted?_eq x p, ?_, ?_, ?_⟩
  · intro text here
    rw [written] at here
    split at here
    next =>
      obtain rfl := Option.some.inj here
      obtain ⟨D, rounded, exponent, general⟩ := generalText_significantDigits (show 0 < max p 1 by omega) rank
      exact ⟨D, _, _, rounded, exponent, general, text_eq⟩
    next => cases here
  · rw [written]
    simp [layoutFits]
  · intro few
    have room : max p 1 + 3 ≤ maxPlaces := by
      rw [maxPlaces] at few ⊢
      omega
    rw [written, layoutFits_of_le room]
    rfl

/-- A tie that carries: 9.5 with one digit is ten, and ten has no place for its second digit. -/
theorem significantText?_carry :
    view 9.5 = .finite false 4621537642612260864 ∧ significantText? 9.5 1 = some "1e+01" ∧
      IsSignificantText false 4621537642612260864 (max 1 1) "1e+01" := by
  have finite : view 9.5 = .finite false 4621537642612260864 := by decide +kernel
  have written : significantText? 9.5 1 = some "1e+01" := by decide +kernel
  exact ⟨finite, written, (significantText?_general finite 1).2.1 _ written⟩

/-- **With 65537 digits there is no text** of the double ten, and so none of it rounded. -/
theorem significantText_ten_missing :
    view 10 = .finite false 4621819117588971520 ∧
      ¬ ∃ text ∈ significantText? 10 65537, IsSignificantText false 4621819117588971520 65537 text := by
  have finite : view 10 = .finite false 4621819117588971520 := by decide +kernel
  have missing : significantText? 10 65537 = none := by simp [significantText?, finite, layoutFits, maxPlaces]
  refine ⟨finite, ?_⟩
  rintro ⟨text, here, -⟩
  rw [missing] at here
  cases here

end Formula.Decimal
