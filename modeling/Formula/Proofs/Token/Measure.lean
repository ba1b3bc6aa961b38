import Formula.Proofs.Binary64.Bits
import Formula.Proofs.Parse.InOrder

/-!
# Measure — which texts have a length as literals

A text begins with a literal of a length (`BeginsWithLiteral`) when that many of its bytes are a literal of the
grammar and no digit, point or mark comes next. The length that `numeralLength` gives is exactly that one, and zero
where there is none (`measuresLiterals`). One direction goes from phase to phase: what is taken has the shape of the
phase it is taken in, and the character that ends it carries nothing on. The other one goes over the grammar: the
digits, the point, the mark and the sign of a literal are taken one after the other, and the phase after the last
digit ends where nothing carries on.

A literal of the grammar denotes a double, and never NaN, though it may be infinite. So the value of a numeral that is
scanned is always one that was read, and no node of a tree holds NaN.

**What it does not say.** Which double a literal denotes.
-/

namespace Formula

open Binary64 Decimal

/-- **What carries a literal on**, or spoils it: a digit, a point or a mark. A sign does so after a mark only. -/
def CarriesOn (c : Char) : Prop := c.isDigit = true ∨ c = '.' ∨ c = 'e' ∨ c = 'E'

/-- **A literal is bounded** by what follows it. -/
def Bounds (rest : List Char) : Prop := ∀ c ∈ rest.head?, ¬ CarriesOn c

/-- **A text begins with a literal of a length**: its first `n` bytes are a literal, and what follows bounds it. -/
def BeginsWithLiteral (cs : List Char) (n : Nat) : Prop :=
  ∃ lexeme rest, cs = lexeme ++ rest ∧ bytes lexeme = n ∧ IsLiteral lexeme ∧ Bounds rest

namespace Numeral

variable {p q : Phase} {c : Char} {cs rest : List Char} {n : Nat}

/-! ## Where a literal ends -/

theorem not_carriesOn_of_ends (h : p.move c = .ends) : ¬ CarriesOn c := by
  rintro (digit | point | mark)
  · rw [move_digit digit] at h
    cases h
  · subst point
    cases p <;> cases h
  · rcases mark with rfl | rfl <;> cases p <;> cases h

theorem ends_of_complete (complete : p.complete = true) (h : ¬ CarriesOn c) : p.move c = .ends := by
  have digit : ¬ c.isDigit = true := fun digit => h (.inl digit)
  have point : c ≠ '.' := fun point => h (.inr (.inl point))
  have mark : ¬ (c = 'e' ∨ c = 'E') := fun mark => h (.inr (.inr mark))
  unfold Phase.move
  rw [if_neg digit, if_neg point, if_neg mark]
  cases p with
  | whole | fraction | exponent => exact ite_self _
  | start | point | mark | sign => cases complete

/-- **What is measured is bounded** by what follows it. -/
theorem bounds_of_measure (h : measure p cs = some n) : Bounds (cs.drop n) := by
  induction cs generalizing p n with
  | nil =>
    rw [List.drop_nil]
    exact fun _ hc => nomatch hc
  | cons c cs ih =>
    unfold measure at h
    split at h
    next moves =>
      obtain ⟨more, hmore, rfl⟩ := Option.map_eq_some_iff.mp h
      rw [List.drop_succ_cons]
      exact ih hmore
    next ends =>
      split at h
      next =>
        obtain rfl := Option.some.inj h
        rintro _ ⟨⟩
        exact not_carriesOn_of_ends ends
      next => cases h
    next => cases h

/-! ## Literals are taken -/

/-- Where a literal may end and is bounded, nothing more is taken. -/
theorem measure_of_bounds (complete : p.complete = true) (bounds : Bounds rest) : measure p rest = some 0 :=
  measure_eq_zero_iff.mpr ⟨complete, fun c hc => ends_of_complete complete (bounds c hc)⟩

theorem measure_exponent {ds : List Char} (phase : p = .mark ∨ p = .sign) (digits : AreDigits ds) (some : ds ≠ [])
    (bounds : Bounds rest) : measure p (ds ++ rest) = Option.some ds.length := by
  have next : p.afterDigit = .exponent := by rcases phase with rfl | rfl <;> rfl
  rw [measure_digits_first digits some, next, measure_of_bounds rfl bounds, Option.map_some, Nat.zero_add]

/-- **What ends a literal is taken** after either part of its digits. -/
theorem measure_ends (h : EndsLiteral cs) (part : p = .whole ∨ p = .fraction)
    (bounds : Bounds rest) : measure p (cs ++ rest) = some cs.length := by
  cases h with
  | bare =>
    have complete : p.complete = true := by rcases part with rfl | rfl <;> rfl
    exact measure_of_bounds complete bounds
  | @exponent mark sign ds marks signs digits some =>
    have moves : p.move mark = .next .mark := by
      rcases part with rfl | rfl <;> rcases marks with rfl | rfl <;> rfl
    have signed : measure .mark ((sign ++ ds) ++ rest) = Option.some (sign ++ ds).length := by
      rcases signs with rfl | rfl | rfl
      · exact measure_exponent (.inl rfl) digits some bounds
      · rw [List.append_assoc, List.singleton_append, measure_next rfl, measure_exponent (.inr rfl) digits some bounds]
        rfl
      · rw [List.append_assoc, List.singleton_append, measure_next rfl, measure_exponent (.inr rfl) digits some bounds]
        rfl
    rw [List.cons_append, measure_next moves, signed]
    rfl

/-- **A literal is taken whole** where it is bounded. -/
theorem measure_literal (h : IsLiteral cs) (bounds : Bounds rest) : measure .start (cs ++ rest) = some cs.length := by
  cases h with
  | @whole ds tail digits some ends =>
    rw [List.append_assoc, measure_digits_first digits some, Phase.afterDigit, measure_ends ends (.inl rfl) bounds,
      Option.map_some, List.length_append, Nat.add_comm]
  | @point ds fs tail digits fraction some ends =>
    have after : measure .fraction (fs ++ (tail ++ rest)) = Option.some (fs ++ tail).length := by
      rw [measure_digits fraction rfl, measure_ends ends (.inr rfl) bounds, Option.map_some, List.length_append,
        Nat.add_comm]
    rw [List.append_assoc, List.cons_append, List.append_assoc]
    by_cases none : ds = []
    · -- without a digit before the point there is one after it
      subst none
      have first := some.resolve_left (fun h => h rfl)
      have moves : Phase.point.afterDigit = Phase.fraction.afterDigit := rfl
      rw [List.nil_append, measure_next rfl, measure_digits_first fraction first, moves,
        ← measure_digits_first fraction first, after]
      rfl
    · rw [measure_digits_first digits none, Phase.afterDigit, measure_next rfl, after]
      refine congrArg Option.some ?_
      simp only [List.length_append, List.length_cons]
      omega

end Numeral

/-! ## Lengths -/

variable {cs lexeme rest : List Char} {n : Nat}

/-- A literal has as many bytes as characters. -/
theorem IsLiteral.bytes_eq (h : IsLiteral cs) : bytes cs = cs.length := by
  have measured : Numeral.measure .start (cs ++ []) = some cs.length :=
    Numeral.measure_literal h fun _ hc => nomatch hc
  refine bytes_eq_length fun c hc => (Numeral.measure_takes measured).2 c ?_
  rwa [List.append_nil, List.take_length]

/-- **The length of a bounded literal** is that of the literal. -/
theorem numeralLength_of_begins (h : BeginsWithLiteral cs n) : numeralLength cs = n := by
  obtain ⟨lexeme, rest, rfl, rfl, literal, bounds⟩ := h
  rw [numeralLength, Numeral.measure_literal literal bounds, literal.bytes_eq]
  rfl

/-- **A length is that of a bounded literal.** -/
theorem beginsWithLiteral_of_pos (pos : numeralLength cs ≠ 0) : BeginsWithLiteral cs (numeralLength cs) := by
  have measured := Numeral.measure_of_pos pos
  have literal := isLiteral_of_measured pos
  have fits := (Numeral.measure_takes measured).1
  refine ⟨_, _, (List.take_append_drop (numeralLength cs) cs).symm, ?_, literal, Numeral.bounds_of_measure measured⟩
  rw [literal.bytes_eq, List.length_take, Nat.min_eq_left fits]

/-! ## Values -/

/-- **What a literal denotes is never NaN.** -/
theorem Decimal.Literal.isNaN_toFloat (negative : Bool) (l : Literal) : (l.toFloat negative).isNaN = false := by
  unfold Literal.toFloat
  dsimp only
  split
  · exact isNaN_ofRank (Nat.zero_le _)
  · split
    · exact isNaN_ofRank (Nat.le_refl _)
    · exact isNaN_ofRank (Nat.min_le_left _ _)

/-- **A text denotes a number**: it reads as a double that is not NaN. -/
def DenotesNumber (cs : List Char) (x : Float) : Prop := readFloat cs = .ok x ∧ x.isNaN = false

theorem IsLiteral.exists_denotesNumber (h : IsLiteral cs) : ∃ x, DenotesNumber cs x := by
  obtain ⟨l, read⟩ := h.exists_read?
  obtain ⟨c, tail, rfl, begins⟩ := h.begins
  exact ⟨_, readFloat_of_begins begins read, l.isNaN_toFloat false⟩

/-- A literal has the value that the parser takes it for. -/
theorem IsLiteral.denotesNumber {lexeme : String} (h : IsLiteral lexeme.toList) :
    DenotesNumber lexeme.toList (Parser.literalValue lexeme) := by
  obtain ⟨x, denotes⟩ := h.exists_denotesNumber
  rwa [Parser.literalValue, denotes.1]

/-! ## Texts, tokens and trees -/

/-- A numeral that is scanned is a literal. -/
theorem isLiteral_of_mem_words {source : String} {t : Token} (ht : t ∈ (Tokens.ofSource source).words)
    (kind : t.kind = .number) : IsLiteral t.lexeme.toList := by
  obtain ⟨-, rest, -, -, word⟩ := (reading_ofChars 0 source.toList).exists_place ht
  rw [kind] at word
  exact word.isLiteral

/-- **A text is measured by the grammar of literals**, and so is all that is read from it. -/
structure MeasuresLiterals (text : String) : Prop where
  length : ∀ n, 0 < n → (numeralLength text.toList = n ↔ BeginsWithLiteral text.toList n)
  none : (∀ n, 0 < n → ¬ BeginsWithLiteral text.toList n) → numeralLength text.toList = 0
  /-- What is taken reads as a number. -/
  taken : ∀ lexeme rest, text.toList = lexeme ++ rest → bytes lexeme = numeralLength text.toList →
    0 < numeralLength text.toList → ∃ x, DenotesNumber lexeme x
  /-- The value of a numeral is read, and never stands in for one that is not. -/
  numerals : ∀ t ∈ (Tokens.ofSource text).words, t.kind = .number →
    DenotesNumber t.lexeme.toList (Parser.literalValue t.lexeme)
  nodes : ∀ a, (Ast.read text).result = .ok a → ∀ v span, .number v span ∈ a.root.inOrder →
    DenotesNumber (span.slice text).toList v

/-- **Every text is measured by the grammar of literals.** -/
theorem measuresLiterals (text : String) : MeasuresLiterals text where
  length n pos := by
    constructor
    · rintro rfl
      exact beginsWithLiteral_of_pos (Nat.ne_of_gt pos)
    · exact numeralLength_of_begins
  none no := by
    by_contra some
    exact no _ (Nat.pos_of_ne_zero some) (beginsWithLiteral_of_pos some)
  taken lexeme rest split length pos := by
    obtain ⟨lexeme', rest', split', length', literal, -⟩ := beginsWithLiteral_of_pos (Nat.ne_of_gt pos)
    -- as many bytes of one text are the same bytes
    have prefix_eq : some lexeme = some lexeme' := by
      rw [← takeBytes_append lexeme rest, ← split, length, ← length', split', takeBytes_append]
    obtain rfl := Option.some.inj prefix_eq
    exact literal.exists_denotesNumber
  numerals t ht kind := (isLiteral_of_mem_words ht kind).denotesNumber
  nodes a read v span mem := by
    obtain ⟨d, words, -, -, rfl⟩ := exists_derivation_of_read read
    obtain ⟨t, ht, marks⟩ := exists_marks d.marks _ mem
    have word : t ∈ (Tokens.ofSource text).words := words ▸ List.mem_of_mem_filter ht
    cases marks with
    | number kind =>
      rw [slice_of_mem_words word]
      exact (isLiteral_of_mem_words word kind).denotesNumber

/-- A second point spoils the whole literal. -/
example : numeralLength "1.2.3".toList = 0 := by decide

/-- A mark without digits spoils it too. -/
example : numeralLength "2exp".toList = 0 := by decide

end Formula
