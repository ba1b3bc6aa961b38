import Formula.Parse.Expression
import Formula.Proofs.Decimal.Denotes
import Formula.Proofs.Token.Slices

/-!
# Literals — what is measured as a literal reads as a number

The measure of a literal goes from phase to phase, and what it takes from a phase on is one of a few shapes
(`Phase.Spells`): digits, a point and digits, a mark and an exponent. From the start it is a literal of the grammar
(`IsLiteral`), and a literal of the grammar has a double that it denotes (`exists_readFloat`). So no numeral of a
source is one that cannot be read (`IsWord.readFloat`).

**What it does not say.** That every literal of the grammar is measured: what follows it has a say in that.
-/

namespace Formula

open Decimal

/-! ## The grammar of literals -/

/-- **What may end a literal**: nothing, or a mark and an exponent, with a sign or without. -/
inductive EndsLiteral : List Char → Prop
  | bare : EndsLiteral []
  | exponent {mark : Char} {sign ds : List Char} (marks : mark = 'e' ∨ mark = 'E')
      (signs : sign = [] ∨ sign = ['+'] ∨ sign = ['-']) (digits : AreDigits ds) (some : ds ≠ []) :
      EndsLiteral (mark :: (sign ++ ds))

/-- **A literal**: digits with at most one point, at least one digit among them, and perhaps an exponent. -/
inductive IsLiteral : List Char → Prop
  | whole {ds tail : List Char} (digits : AreDigits ds) (some : ds ≠ []) (ends : EndsLiteral tail) :
      IsLiteral (ds ++ tail)
  | point {ds fs tail : List Char} (digits : AreDigits ds) (fraction : AreDigits fs) (some : ds ≠ [] ∨ fs ≠ [])
      (ends : EndsLiteral tail) : IsLiteral (ds ++ '.' :: (fs ++ tail))

namespace Numeral

variable {p q : Phase} {c : Char} {cs : List Char} {n : Nat}

/-- **What is left of a literal in a phase.** -/
def Phase.Spells : Phase → List Char → Prop
  | start, cs => IsLiteral cs
  | whole, cs => ∃ ds tail, cs = ds ++ tail ∧ AreDigits ds ∧
      (EndsLiteral tail ∨ ∃ fs more, tail = '.' :: (fs ++ more) ∧ AreDigits fs ∧ EndsLiteral more)
  | point, cs => ∃ fs tail, cs = fs ++ tail ∧ AreDigits fs ∧ fs ≠ [] ∧ EndsLiteral tail
  | fraction, cs => ∃ fs tail, cs = fs ++ tail ∧ AreDigits fs ∧ EndsLiteral tail
  | mark, cs => ∃ sign ds, cs = sign ++ ds ∧ (sign = [] ∨ sign = ['+'] ∨ sign = ['-']) ∧ AreDigits ds ∧ ds ≠ []
  | sign, cs => AreDigits cs ∧ cs ≠ []
  | exponent, cs => AreDigits cs

theorem spells_nil (complete : p.complete = true) : p.Spells [] := by
  cases p with
  | whole => exact ⟨[], [], rfl, areDigits_nil, .inl .bare⟩
  | fraction => exact ⟨[], [], rfl, areDigits_nil, .bare⟩
  | exponent => exact areDigits_nil
  | start | point | mark | sign => cases complete

/-- **What moves a phase on**: a digit, the point, a mark or a sign. -/
theorem move_cases (h : p.move c = .next q) :
    c.isDigit = true ∧ q = p.afterDigit ∨
      c = '.' ∧ (p = .start ∧ q = .point ∨ p = .whole ∧ q = .fraction) ∨
      (c = 'e' ∨ c = 'E') ∧ (p = .whole ∨ p = .fraction) ∧ q = .mark ∨
      (c = '+' ∨ c = '-') ∧ p = .mark ∧ q = .sign := by
  unfold Phase.move at h
  split at h
  next digit => exact .inl ⟨digit, (Move.next.inj h).symm⟩
  next =>
    split at h
    next point =>
      refine .inr (.inl ⟨point, ?_⟩)
      cases p <;> cases h
      · exact .inl ⟨rfl, rfl⟩
      · exact .inr ⟨rfl, rfl⟩
    next =>
      split at h
      next mark =>
        refine .inr (.inr (.inl ⟨mark, ?_⟩))
        cases p <;> cases h
        · exact ⟨.inl rfl, rfl⟩
        · exact ⟨.inr rfl, rfl⟩
      next =>
        split at h
        next sign =>
          refine .inr (.inr (.inr ⟨sign, ?_⟩))
          cases p <;> cases h
          exact ⟨rfl, rfl⟩
        next => cases h

theorem spells_digit (digit : c.isDigit = true) (h : p.afterDigit.Spells cs) : p.Spells (c :: cs) := by
  cases p with
  | start =>
    obtain ⟨ds, tail, rfl, digits, ends | ⟨fs, more, rfl, fraction, ends⟩⟩ := h
    · exact .whole (digits.cons digit) (List.cons_ne_nil _ _) ends
    · exact .point (digits.cons digit) fraction (.inl (List.cons_ne_nil _ _)) ends
  | whole =>
    obtain ⟨ds, tail, rfl, digits, ends⟩ := h
    exact ⟨c :: ds, tail, rfl, digits.cons digit, ends⟩
  | point =>
    obtain ⟨fs, tail, rfl, digits, ends⟩ := h
    exact ⟨c :: fs, tail, rfl, digits.cons digit, List.cons_ne_nil _ _, ends⟩
  | fraction =>
    obtain ⟨fs, tail, rfl, digits, ends⟩ := h
    exact ⟨c :: fs, tail, rfl, digits.cons digit, ends⟩
  | mark => exact ⟨[], c :: cs, rfl, .inl rfl, h.cons digit, List.cons_ne_nil _ _⟩
  | sign => exact ⟨h.cons digit, List.cons_ne_nil _ _⟩
  | exponent => exact h.cons digit

/-- **One more character in front** leads from a phase to the next one. -/
theorem spells_cons (moves : p.move c = .next q) (h : q.Spells cs) : p.Spells (c :: cs) := by
  rcases move_cases moves with ⟨digit, rfl⟩ | ⟨rfl, ⟨rfl, rfl⟩ | ⟨rfl, rfl⟩⟩ | ⟨marks, part, rfl⟩ | ⟨signs, rfl, rfl⟩
  · exact spells_digit digit h
  · obtain ⟨fs, tail, rfl, fraction, some, ends⟩ := h
    exact .point areDigits_nil fraction (.inr some) ends
  · obtain ⟨fs, tail, rfl, fraction, ends⟩ := h
    exact ⟨[], _, rfl, areDigits_nil, .inr ⟨fs, tail, rfl, fraction, ends⟩⟩
  · obtain ⟨sign, ds, rfl, signs, digits, some⟩ := h
    have ends : EndsLiteral (c :: (sign ++ ds)) := .exponent marks signs digits some
    rcases part with rfl | rfl
    · exact ⟨[], _, rfl, areDigits_nil, .inl ends⟩
    · exact ⟨[], _, rfl, areDigits_nil, ends⟩
  · obtain ⟨digits, some⟩ := h
    refine ⟨[c], cs, rfl, .inr ?_, digits, some⟩
    rcases signs with rfl | rfl
    · exact .inl rfl
    · exact .inr rfl

/-- **What is measured from a phase on** has the shape of that phase. -/
theorem spells_of_measure (h : measure p cs = some n) : p.Spells (cs.take n) := by
  induction cs generalizing p n with
  | nil =>
    unfold measure at h
    split at h
    next complete =>
      rw [List.take_nil]
      exact spells_nil complete
    next => cases h
  | cons c cs ih =>
    unfold measure at h
    split at h
    next moves =>
      obtain ⟨more, hmore, rfl⟩ := Option.map_eq_some_iff.mp h
      rw [List.take_succ_cons]
      exact spells_cons moves (ih hmore)
    next =>
      split at h
      next complete =>
        obtain rfl := Option.some.inj h
        exact spells_nil complete
      next => cases h
    next => cases h

end Numeral

/-! ## Literals read -/

variable {cs lexeme rest : List Char}

theorem IsLiteral.begins (h : IsLiteral cs) : ∃ c tail, cs = c :: tail ∧ (c.isDigit = true ∨ c = '.') := by
  cases h with
  | @whole ds tail digits some =>
    obtain ⟨d, ds, rfl⟩ := List.exists_cons_of_ne_nil some
    exact ⟨d, ds ++ tail, rfl, .inl (digits d List.mem_cons_self)⟩
  | @point ds fs tail digits =>
    cases ds with
    | nil => exact ⟨'.', fs ++ tail, rfl, .inr rfl⟩
    | cons d ds => exact ⟨d, _, rfl, .inl (digits d List.mem_cons_self)⟩

/-- What ends a literal begins with a mark. -/
theorem EndsLiteral.head (h : EndsLiteral cs) : ∀ c ∈ cs.head?, c = 'e' ∨ c = 'E' := by
  cases h with
  | bare => exact fun _ hc => nomatch hc
  | exponent marks =>
    rintro _ ⟨⟩
    exact marks

theorem EndsLiteral.stops (h : EndsLiteral cs) : ∀ c ∈ cs.head?, c.isDigit = false := by
  intro c hc
  rcases h.head c hc with rfl | rfl <;> rfl

/-- What ends a literal has an exponent. -/
theorem EndsLiteral.exists_exponent (h : EndsLiteral cs) : ∃ e, readExponent? cs = some e := by
  cases h with
  | bare => exact ⟨0, rfl⟩
  | @exponent mark sign ds marks signs digits some =>
    have split : ∃ negative, splitSign (sign ++ ds) = (negative, ds) := by
      rcases signs with rfl | rfl | rfl
      · obtain ⟨d, ds, rfl⟩ := List.exists_cons_of_ne_nil some
        have digit := digits d List.mem_cons_self
        refine ⟨false, ?_⟩
        unfold splitSign
        split
        next same => cases same; cases digit
        next same => cases same; cases digit
        next => rfl
      · exact ⟨false, rfl⟩
      · exact ⟨true, rfl⟩
    obtain ⟨negative, split⟩ := split
    have all : ds.all Char.isDigit = true := List.all_eq_true.mpr digits
    have begun : ds.isEmpty = false := List.isEmpty_eq_false_iff.mpr some
    rw [readExponent?, if_pos marks]
    simp only [split, begun, all]
    exact ⟨_, rfl⟩

/-- **A literal is taken apart.** -/
theorem IsLiteral.exists_read? (h : IsLiteral cs) : ∃ l, Literal.read? cs = some l := by
  cases h with
  | @whole ds tail digits some ends =>
    obtain ⟨e, exponent⟩ := ends.exists_exponent
    obtain ⟨taken, left⟩ := takeWhile_digits digits ends.stops
    have begun : ds.isEmpty = false := List.isEmpty_eq_false_iff.mpr some
    have marks := ends.head
    simp only [Literal.read?, taken, left, begun, Bool.false_and, Bool.false_eq_true, if_false]
    split
    next =>
      -- what ends a literal does not begin with a point
      rcases marks '.' rfl with h | h <;> cases h
    next => exact ⟨_, by rw [exponent]; rfl⟩
  | @point ds fs tail digits fraction some ends =>
    obtain ⟨e, exponent⟩ := ends.exists_exponent
    obtain ⟨taken, left⟩ := @takeWhile_digits ds ('.' :: (fs ++ tail)) digits (by rintro _ ⟨⟩; rfl)
    obtain ⟨taken', left'⟩ := takeWhile_digits fraction ends.stops
    have begun : (ds.isEmpty && fs.isEmpty) = false := by
      rw [Bool.and_eq_false_iff, List.isEmpty_eq_false_iff, List.isEmpty_eq_false_iff]
      exact some
    simp only [Literal.read?, taken, left, taken', left', begun, Bool.false_eq_true, if_false, exponent]
    exact ⟨_, rfl⟩

/-- **A literal denotes a double.** -/
theorem IsLiteral.exists_readFloat (h : IsLiteral cs) : ∃ x, readFloat cs = .ok x := by
  obtain ⟨l, read⟩ := h.exists_read?
  obtain ⟨c, tail, rfl, begins⟩ := h.begins
  exact ⟨_, readFloat_of_begins begins read⟩

/-- **What is measured is a literal.** -/
theorem isLiteral_of_measured (pos : numeralLength cs ≠ 0) : IsLiteral (cs.take (numeralLength cs)) :=
  Numeral.spells_of_measure (Numeral.measure_of_pos pos)

/-- A numeral is a literal. -/
theorem IsWord.isLiteral (h : IsWord .number lexeme rest) : IsLiteral lexeme := by
  have measured := h.measured
  have length := measured.trans (bytes_eq_length_of_measured measured)
  have pos : numeralLength (lexeme ++ rest) ≠ 0 := by
    rw [measured]
    exact Nat.ne_of_gt h.bytes_pos.1
  have literal := isLiteral_of_measured pos
  rw [length, List.take_left] at literal
  exact literal

/-- **A numeral denotes a double**, and that is the value of its literal. -/
theorem IsWord.readFloat {lexeme : String} (h : IsWord .number lexeme.toList rest) :
    Decimal.readFloat lexeme.toList = .ok (Parser.literalValue lexeme) := by
  obtain ⟨x, read⟩ := h.isLiteral.exists_readFloat
  rw [Parser.literalValue, read]

end Formula
