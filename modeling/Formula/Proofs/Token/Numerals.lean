import Formula.Token.Scan

/-!
# Numerals — what the measure of a literal takes

The measure takes no more than there is, and only ASCII (`measure_takes`), and it takes nothing where a
text begins neither with a digit nor with a point (`begins_of_measure`). Digits, perhaps a point and digits,
perhaps a mark, a sign and digits are taken whole wherever what follows does not carry a literal on: that
is what `IsNumeral` says of a text, and these are the spellings in which numbers are written.
-/

namespace Formula

theorem utf8Size_of_isDigit {c : Char} (h : c.isDigit = true) : c.utf8Size = 1 := by
  simp only [Char.isDigit, Bool.and_eq_true, decide_eq_true_eq] at h
  have small : c.val ≤ 0x7f := UInt32.le_trans h.2 (by decide)
  exact if_pos small

namespace Numeral

variable {p q : Phase} {c : Char} {cs ds rest : List Char} {n : Nat}

/-! ## What is taken -/

theorem utf8Size_of_move (h : p.move c = .next q) : c.utf8Size = 1 := by
  unfold Phase.move at h
  split at h
  next digit => exact utf8Size_of_isDigit digit
  next =>
    split at h
    next point => rw [point]; rfl
    next =>
      split at h
      next mark => rcases mark with rfl | rfl <;> rfl
      next =>
        split at h
        next sign => rcases sign with rfl | rfl <;> rfl
        next => cases h

/-- **The measure takes no more than there is, and nothing but ASCII.** -/
theorem measure_takes (h : measure p cs = some n) : n ≤ cs.length ∧ ∀ c ∈ cs.take n, c.utf8Size = 1 := by
  induction cs generalizing p n with
  | nil =>
    unfold measure at h
    split at h
    · obtain rfl := Option.some.inj h
      exact ⟨Nat.le_refl _, fun _ hc => nomatch hc⟩
    · cases h
  | cons c cs ih =>
    unfold measure at h
    split at h
    next q moves =>
      obtain ⟨more, hmore, rfl⟩ := Option.map_eq_some_iff.mp h
      obtain ⟨fits, ascii⟩ := ih hmore
      refine ⟨Nat.succ_le_succ fits, ?_⟩
      rw [List.take_succ_cons]
      exact List.forall_mem_cons.mpr ⟨utf8Size_of_move moves, ascii⟩
    next =>
      split at h
      · obtain rfl := Option.some.inj h
        exact ⟨Nat.zero_le _, fun _ hc => nomatch hc⟩
      · cases h
    next => cases h

/-- Nothing but a digit or a point moves on from the start. -/
theorem begins_of_move (h : Phase.start.move c = .next q) : c.isDigit = true ∨ c = '.' := by
  unfold Phase.move at h
  split at h
  next digit => exact .inl digit
  next =>
    split at h
    next point => exact .inr point
    next =>
      split at h
      · cases h
      · split at h <;> cases h

/-- **A literal begins with a digit or a point.** -/
theorem begins_of_measure (h : measure .start (c :: cs) = some n) : c.isDigit = true ∨ c = '.' := by
  unfold measure at h
  split at h
  next moves => exact begins_of_move moves
  next => cases h
  next => cases h

/-- **A literal that has ended** is complete, and what follows it does not carry it on. -/
theorem measure_eq_zero_iff :
    measure p rest = some 0 ↔ p.complete = true ∧ ∀ c ∈ rest.head?, p.move c = .ends := by
  cases rest with
  | nil =>
    rw [measure]
    cases p.complete <;> simp
  | cons c rest =>
    have head : (∀ d ∈ (c :: rest).head?, p.move d = .ends) ↔ p.move c = .ends := by
      simp only [List.head?_cons, Option.mem_def, Option.some.injEq, forall_eq']
    rw [head, measure]
    cases p.move c with
    | next q => simp
    | ends => cases p.complete <;> simp
    | spoils => simp

/-- A literal that has a length is measured. -/
theorem measure_of_pos (pos : numeralLength cs ≠ 0) : measure .start cs = some (numeralLength cs) := by
  unfold numeralLength at pos ⊢
  cases measured : measure .start cs with
  | none =>
    rw [measured] at pos
    exact (pos rfl).elim
  | some n => rfl

/-! ## Digit by digit -/

theorem measure_next (h : p.move c = .next q) : measure p (c :: cs) = (measure q cs).map (· + 1) := by
  rw [measure, h]

theorem move_digit (h : c.isDigit = true) : p.move c = .next p.afterDigit := if_pos h

/-- **Digits are all taken** in a phase that they do not change. -/
theorem measure_digits (digits : ∀ d ∈ ds, d.isDigit = true) (settled : p.afterDigit = p) (rest : List Char) :
    measure p (ds ++ rest) = (measure p rest).map (· + ds.length) := by
  induction ds with
  | nil => exact Option.map_id'.symm
  | cons d ds ih =>
    obtain ⟨digit, digits⟩ := List.forall_mem_cons.mp digits
    have moves : p.move d = .next p := by rw [move_digit digit, settled]
    rw [List.cons_append, measure_next moves, ih digits, Option.map_map]
    rfl

/-- Digits that begin a part are all taken, and change the phase once. -/
theorem measure_digits_first (digits : ∀ d ∈ ds, d.isDigit = true) (some : ds ≠ []) (rest : List Char) :
    measure p (ds ++ rest) = (measure p.afterDigit rest).map (· + ds.length) := by
  cases ds with
  | nil => exact absurd rfl some
  | cons d ds =>
    obtain ⟨digit, digits⟩ := List.forall_mem_cons.mp digits
    have settled : p.afterDigit.afterDigit = p.afterDigit := by cases p <;> rfl
    rw [List.cons_append, measure_next (move_digit digit), measure_digits digits settled, Option.map_map]
    rfl

/-- **A text is read up to a phase**: a literal that begins with it goes on in that phase. -/
def Reaches (cs : List Char) (p : Phase) : Prop :=
  ∀ rest, measure .start (cs ++ rest) = (measure p rest).map (· + cs.length)

theorem reaches_digits (digits : ∀ d ∈ ds, d.isDigit = true) (some : ds ≠ []) : Reaches ds .whole :=
  measure_digits_first digits some

/-- A point and digits, after digits. -/
theorem Reaches.point (h : Reaches cs .whole) (digits : ∀ d ∈ ds, d.isDigit = true) :
    Reaches (cs ++ '.' :: ds) .fraction := by
  intro rest
  have moves : Phase.whole.move '.' = .next .fraction := rfl
  rw [List.append_assoc, h, List.cons_append, measure_next moves, measure_digits digits rfl, Option.map_map,
    Option.map_map, List.length_append, List.length_cons]
  refine congrArg (Option.map · _) (funext fun n => ?_)
  simp only [Function.comp_apply]
  omega

/-- A mark, a sign and digits, after either part. -/
theorem Reaches.exponent {sign : Char} (h : Reaches cs p) (marks : p.move 'e' = .next .mark)
    (signs : sign = '+' ∨ sign = '-') (digits : ∀ d ∈ ds, d.isDigit = true) (some : ds ≠ []) :
    Reaches (cs ++ 'e' :: sign :: ds) .exponent := by
  intro rest
  have moves : Phase.mark.move sign = .next .sign := by
    rcases signs with rfl | rfl <;> rfl
  rw [List.append_assoc, h, List.cons_append, List.cons_append, measure_next marks, measure_next moves,
    measure_digits_first digits some, Option.map_map, Option.map_map, Option.map_map, List.length_append,
    List.length_cons, List.length_cons]
  refine congrArg (Option.map · _) (funext fun n => ?_)
  simp only [Function.comp_apply]
  omega

end Numeral

/-! ## Literals taken whole -/

/-- **What follows does not carry a word on**: it begins neither like the rest of a name nor with a point. -/
def Delimits (rest : List Char) : Prop := ∀ c ∈ rest.head?, isNamePart c = false ∧ c ≠ '.'

theorem delimits_nil : Delimits [] := fun _ h => nomatch h

theorem delimits_cons {c : Char} (part : isNamePart c = false) (point : c ≠ '.') (rest : List Char) :
    Delimits (c :: rest) := by
  rintro _ ⟨⟩
  exact ⟨part, point⟩

theorem isDigit_of_isNamePart_eq_false {c : Char} (h : isNamePart c = false) : c.isDigit = false := by
  simp only [isNamePart, Char.isAlphanum, Bool.or_eq_false_iff] at h
  exact h.1.2

/-- **Where it is delimited, a complete literal ends.** -/
theorem Numeral.measure_of_delimits {p : Phase} {rest : List Char} (complete : p.complete = true)
    (h : Delimits rest) : measure p rest = some 0 := by
  refine measure_eq_zero_iff.mpr ⟨complete, fun c hc => ?_⟩
  obtain ⟨part, point⟩ := h c hc
  have digit : ¬ c.isDigit = true := Bool.eq_false_iff.mp (isDigit_of_isNamePart_eq_false part)
  have mark : ¬ (c = 'e' ∨ c = 'E') := by
    rintro (rfl | rfl) <;> cases part
  unfold Phase.move
  rw [if_neg digit, if_neg point, if_neg mark]
  cases p with
  | whole | fraction | exponent => exact ite_self _
  | start | point | mark | sign => cases complete

/-- **A text that is taken whole** as a literal, wherever it is delimited. -/
structure IsNumeral (cs : List Char) : Prop where
  some : cs ≠ []
  whole : ∀ rest, Delimits rest → numeralLength (cs ++ rest) = cs.length

/-- **A text read up to a phase in which a literal may end is taken whole.** -/
theorem Numeral.Reaches.isNumeral {cs : List Char} {p : Phase} (h : Reaches cs p) (some : cs ≠ [])
    (complete : p.complete = true) : IsNumeral cs where
  some := some
  whole := by
    intro rest delimits
    rw [numeralLength, h, measure_of_delimits complete delimits, Option.map_some, Option.getD_some, Nat.zero_add]

end Formula
