import Formula.Proofs.Token.Numerals
import Formula.Proofs.Token.Order

/-!
# Readings — what the tokens of a source are

What a word is can be said without a scanner: a name is a name's beginning and all that a name goes on
with after it, a numeral is as long as its literal is measured, and every other word is one character
(`IsWord`). A **reading** of a source cuts it into words with white space between them, up to the end of
the source or to a place where something stands that begins no word.

A source has one reading, and a scan finds it (`reading_iff`). Each token of a reading has its place in the
source, with the text before it and the text after it (`Reading.exists_place`).

A name is as long as it can be from where it begins: in `1e5x` the numeral comes first, and the name is
`x` alone.
-/

namespace Formula

/-! ## Bytes -/

/-- How many bytes some characters take. -/
def bytes (cs : List Char) : Nat := (String.ofList cs).utf8ByteSize

@[simp] theorem bytes_nil : bytes [] = 0 := rfl

@[simp] theorem bytes_cons (c : Char) (cs : List Char) : bytes (c :: cs) = c.utf8Size + bytes cs := by
  rw [bytes, String.ofList_cons, String.utf8ByteSize_append, String.utf8ByteSize_singleton, bytes]

@[simp] theorem bytes_append (cs ds : List Char) : bytes (cs ++ ds) = bytes cs + bytes ds := by
  rw [bytes, String.ofList_append, String.utf8ByteSize_append, bytes, bytes]

theorem bytes_toList (s : String) : bytes s.toList = s.utf8ByteSize := by
  rw [bytes, String.ofList_toList]

theorem length_le_bytes (cs : List Char) : cs.length ≤ bytes cs := by
  induction cs with
  | nil => exact Nat.le_refl _
  | cons c cs ih =>
    have := c.utf8Size_pos
    rw [bytes_cons, List.length_cons]
    omega

/-- ASCII takes a byte a character. -/
theorem bytes_eq_length {cs : List Char} (ascii : ∀ c ∈ cs, c.utf8Size = 1) : bytes cs = cs.length := by
  induction cs with
  | nil => rfl
  | cons c cs ih =>
    obtain ⟨one, ascii⟩ := List.forall_mem_cons.mp ascii
    rw [bytes_cons, ih ascii, one, List.length_cons, Nat.add_comm]

/-! ## Words -/

/-- **What a word of a kind is**, by its characters and what follows them. -/
inductive IsWord : TokenKind → (lexeme rest : List Char) → Prop
  /-- A name goes on as long as it can. -/
  | name {c : Char} {cs rest : List Char} (begins : isNameStart c = true) (parts : ∀ d ∈ cs, isNamePart d = true)
      (ends : ∀ d ∈ rest.head?, isNamePart d = false) : IsWord .identifier (c :: cs) rest
  /-- A numeral has the length that is measured, in bytes. -/
  | numeral {lexeme rest : List Char} (some : lexeme ≠ [])
      (measured : numeralLength (lexeme ++ rest) = bytes lexeme) : IsWord .number lexeme rest
  /-- An operator or a mark of punctuation is one character. -/
  | symbol {c : Char} {kind : TokenKind} {rest : List Char} (symbol : symbolKind? c = some kind) :
      IsWord kind [c] rest

variable {kind : TokenKind} {lexeme rest cs : List Char} {c : Char} {offset : Nat}

theorem takes_numeralLength (cs : List Char) :
    numeralLength cs ≤ cs.length ∧ ∀ c ∈ cs.take (numeralLength cs), c.utf8Size = 1 := by
  unfold numeralLength
  cases h : Numeral.measure .start cs with
  | none => exact ⟨Nat.zero_le _, fun _ hc => nomatch hc⟩
  | some n => exact Numeral.measure_takes h

theorem begins_of_numeralLength (h : numeralLength (c :: cs) ≠ 0) : c.isDigit = true ∨ c = '.' := by
  unfold numeralLength at h
  cases hm : Numeral.measure .start (c :: cs) with
  | none => rw [hm] at h; exact (h rfl).elim
  | some n => exact Numeral.begins_of_measure hm

/-- A text with the length that is measured in bytes has it in characters. -/
theorem bytes_eq_length_of_measured (measured : numeralLength (lexeme ++ rest) = bytes lexeme) :
    bytes lexeme = lexeme.length := by
  obtain ⟨-, ascii⟩ := takes_numeralLength (lexeme ++ rest)
  rw [measured] at ascii
  refine bytes_eq_length fun c hc => ascii c ?_
  -- the characters that are measured are at least those of the text
  rw [List.take_append, List.take_of_length_le (length_le_bytes lexeme)]
  exact List.mem_append_left _ hc

/-- **A word has a length**, which is one byte when it is neither a name nor a numeral. -/
theorem IsWord.bytes_pos (h : IsWord kind lexeme rest) :
    0 < bytes lexeme ∧ (kind = .identifier ∨ kind = .number ∨ bytes lexeme = 1) := by
  cases h with
  | @name c cs =>
    rw [bytes_cons]
    exact ⟨Nat.add_pos_left c.utf8Size_pos _, .inl rfl⟩
  | numeral some =>
    exact ⟨Nat.lt_of_lt_of_le (List.length_pos_iff.mpr some) (length_le_bytes _), .inr (.inl rfl)⟩
  | @symbol c _ _ symbol =>
    have one : bytes [c] = 1 := by
      unfold symbolKind? at symbol
      split at symbol <;> first | rfl | cases symbol
    rw [one]
    exact ⟨Nat.one_pos, .inr (.inr rfl)⟩

/-! ## A word is what begins a token -/

theorem symbolKind?_of_isNameStart (h : isNameStart c = true) : symbolKind? c = none := by
  unfold symbolKind?
  split <;> first | rfl | cases h

theorem symbolKind?_of_begins (h : c.isDigit = true ∨ c = '.') : symbolKind? c = none := by
  unfold symbolKind?
  split <;> first | rfl | (rcases h with h | h <;> cases h)

theorem isNameStart_of_begins (h : c.isDigit = true ∨ c = '.') : isNameStart c = false := by
  rcases h with h | rfl
  · have digit : 48 ≤ c.val.toNat ∧ c.val.toNat ≤ 57 := by
      simp only [Char.isDigit, Bool.and_eq_true, decide_eq_true_eq, UInt32.le_iff_toNat_le] at h
      exact h
    have below {d : Char} (past : 57 < d.val.toNat) : ¬ c.val ≥ d.val := by
      rw [ge_iff_le, UInt32.le_iff_toNat_le]
      omega
    have upper : c.isUpper = false := decide_eq_false fun letter => below (by decide) letter.1
    have lower : c.isLower = false := by
      apply Bool.and_eq_false_imp.mpr
      intro least
      exact (below (by decide) (of_decide_eq_true least)).elim
    have letter : c.isAlpha = false := by
      show (c.isUpper || c.isLower) = false
      rw [upper, lower, Bool.or_false]
    have underscore : (c == '_') = false := by
      rw [beq_eq_false_iff_ne]
      rintro rfl
      cases h
    rw [isNameStart, letter, underscore]
    rfl
  · rfl

/-- White space begins no token. -/
theorem wordAt_of_isBlank (h : isBlank c = true) (rest : List Char) : wordAt c rest = none := by
  simp only [isBlank, Bool.or_eq_true, beq_iff_eq] at h
  rcases h with ((((rfl | rfl) | rfl) | rfl) | rfl) | rfl <;> rfl

/-- **A word begins a token**, of its kind and length. -/
theorem IsWord.wordAt (h : IsWord kind lexeme rest) :
    ∃ c cs, lexeme = c :: cs ∧ Formula.wordAt c (cs ++ rest) = some (kind, cs.length) := by
  cases h with
  | @name c cs _ begins parts ends =>
    refine ⟨c, cs, rfl, ?_⟩
    have run : (cs ++ rest).takeWhile isNamePart = cs := by
      rw [List.takeWhile_append_of_pos parts]
      cases rest with
      | nil => rw [List.takeWhile_nil, List.append_nil]
      | cons d rest => rw [List.takeWhile_cons_of_neg (Bool.eq_false_iff.mp (ends d rfl)), List.append_nil]
    rw [Formula.wordAt, symbolKind?_of_isNameStart begins, if_pos begins, run]
  | numeral some measured =>
    have length := bytes_eq_length_of_measured measured
    obtain ⟨c, cs, rfl⟩ := List.exists_cons_of_ne_nil some
    have measured : numeralLength (c :: (cs ++ rest)) = cs.length + 1 := measured.trans length
    have begins : c.isDigit = true ∨ c = '.' := begins_of_numeralLength (by rw [measured]; exact Nat.succ_ne_zero _)
    have numeral : (c.isDigit || c == '.') = true := by
      simpa only [Bool.or_eq_true, beq_iff_eq] using begins
    refine ⟨c, cs, rfl, ?_⟩
    rw [Formula.wordAt, symbolKind?_of_begins begins]
    simp only [isNameStart_of_begins begins, numeral, measured, Bool.false_eq_true, if_false, if_true]
  | @symbol c _ _ symbol =>
    refine ⟨c, [], rfl, ?_⟩
    rw [Formula.wordAt, symbol]
    rfl

/-- The characters that a name goes on with are a word with its beginning. -/
theorem isWord_run (begins : isNameStart c = true) (cs : List Char) :
    IsWord .identifier (c :: cs.take (cs.takeWhile isNamePart).length)
      (cs.drop (cs.takeWhile isNamePart).length) := by
  have run : cs.takeWhile isNamePart ++ cs.dropWhile isNamePart = cs := List.takeWhile_append_dropWhile
  have taken : cs.take (cs.takeWhile isNamePart).length = cs.takeWhile isNamePart :=
    (List.prefix_iff_eq_take.mp ⟨_, run⟩).symm
  have left : cs.drop (cs.takeWhile isNamePart).length = cs.dropWhile isNamePart :=
    (congrArg (List.drop _) run.symm).trans List.drop_left
  rw [taken, left]
  refine .name begins ?_ ?_
  · exact List.all_eq_true.mp List.all_takeWhile
  · intro d hd
    have stops := List.head?_dropWhile_not isNamePart cs
    rw [hd] at stops
    exact stops

/-- **A literal that has a length is a word.** -/
theorem isWord_numeral (pos : numeralLength cs ≠ 0) :
    IsWord .number (cs.take (numeralLength cs)) (cs.drop (numeralLength cs)) := by
  obtain ⟨fits, ascii⟩ := takes_numeralLength cs
  have length : (cs.take (numeralLength cs)).length = numeralLength cs := List.length_take_of_le fits
  refine .numeral ?_ ?_
  · intro none
    rw [none] at length
    exact pos length.symm
  · rw [List.take_append_drop, bytes_eq_length ascii, length]

/-- **What begins a token is a word.** -/
theorem isWord_of_wordAt {more : Nat} (h : wordAt c cs = some (kind, more)) :
    IsWord kind (c :: cs.take more) (cs.drop more) := by
  unfold wordAt at h
  split at h
  next symbol =>
    obtain ⟨rfl, rfl⟩ := Prod.mk.inj (Option.some.inj h)
    exact .symbol symbol
  next =>
    split at h
    next begins =>
      obtain ⟨rfl, rfl⟩ := Prod.mk.inj (Option.some.inj h)
      exact isWord_run begins cs
    next =>
      split at h
      next =>
        split at h
        next => cases h
        next more' measured =>
          obtain ⟨rfl, rfl⟩ := Prod.mk.inj (Option.some.inj h)
          have pos : numeralLength (c :: cs) ≠ 0 := by
            rw [measured]
            exact Nat.succ_ne_zero _
          have numeral := isWord_numeral pos
          rw [measured] at numeral
          exact numeral
      next => cases h

/-! ## Readings -/

/-- **Some tokens are a reading of a source** that begins at an offset. -/
inductive Reading : (offset : Nat) → List Char → Tokens → Prop
  /-- White space, a word, and a reading of what follows it. -/
  | word {offset : Nat} {gap lexeme rest : List Char} {kind : TokenKind} {ts : Tokens}
      (blank : ∀ c ∈ gap, isBlank c = true) (word : IsWord kind lexeme rest)
      (more : Reading (offset + bytes gap + bytes lexeme) rest ts) :
      Reading offset (gap ++ (lexeme ++ rest)) (ts.cons ⟨kind, offset + bytes gap, String.ofList lexeme⟩)
  /-- White space, and then the end. -/
  | ended {offset : Nat} {gap : List Char} (blank : ∀ c ∈ gap, isBlank c = true) :
      Reading offset gap ⟨[], .endOfInput (offset + bytes gap)⟩
  /-- White space, and then something that is no white space and begins no word. -/
  | stuck {offset : Nat} {gap : List Char} {c : Char} {rest : List Char} (blank : ∀ c ∈ gap, isBlank c = true)
      (unread : isBlank c = false) (none : ∀ kind lexeme left, lexeme ++ left = c :: rest → ¬ IsWord kind lexeme left) :
      Reading offset (gap ++ c :: rest) ⟨[], .invalid (offset + bytes gap) (String.ofList (c :: rest))⟩

variable {gap : List Char} {ts : Tokens} {t : Token} {offset' : Nat}

/-- A step passes over white space. -/
theorem step_gap (blank : ∀ c ∈ gap, isBlank c = true) (offset : Nat) (cs : List Char) :
    step offset (gap ++ cs) = step (offset + bytes gap) cs := by
  induction gap generalizing offset with
  | nil => rfl
  | cons c gap ih =>
    obtain ⟨here, blank⟩ := List.forall_mem_cons.mp blank
    rw [List.cons_append, step, if_pos here, ih blank, bytes_cons, Nat.add_assoc]

/-- **A step reads a word.** -/
theorem IsWord.step (h : IsWord kind lexeme rest) (offset : Nat) :
    step offset (lexeme ++ rest) =
      .word ⟨kind, offset, String.ofList lexeme⟩ (offset + bytes lexeme) rest := by
  obtain ⟨c, cs, rfl, word⟩ := h.wordAt
  have dark : ¬ isBlank c = true := by
    intro blank
    rw [wordAt_of_isBlank blank] at word
    cases word
  rw [List.cons_append, Formula.step, if_neg dark, word]
  simp only [List.take_left, List.drop_left, bytes]

/-- **A step stops where no word begins.** -/
theorem step_of_stuck (unread : isBlank c = false)
    (none : ∀ kind lexeme left, lexeme ++ left = c :: rest → ¬ IsWord kind lexeme left) (offset : Nat) :
    step offset (c :: rest) = .stop (.invalid offset (String.ofList (c :: rest))) := by
  rw [step, if_neg (Bool.eq_false_iff.mp unread)]
  cases word : wordAt c rest with
  | none => rfl
  | some w =>
    have whole : c :: rest.take w.2 ++ rest.drop w.2 = c :: rest := congrArg (c :: ·) (List.take_append_drop _ _)
    exact (none _ _ _ whole (isWord_of_wordAt word)).elim

/-- **A scan finds every reading.** -/
theorem Reading.eq_ofChars (h : Reading offset cs ts) : ts = Tokens.ofChars offset cs := by
  induction h with
  | word blank word _ ih => rw [Tokens.ofChars_of_word ((step_gap blank _ _).trans (word.step _)), ih]
  | @ended offset gap blank =>
    have stop : step offset gap = .stop (.endOfInput (offset + bytes gap)) := by
      have passed := step_gap blank offset []
      rw [List.append_nil] at passed
      exact passed
    rw [Tokens.ofChars_of_stop stop]
  | stuck blank unread none =>
    rw [Tokens.ofChars_of_stop ((step_gap blank _ _).trans (step_of_stuck unread none _))]

/-- One more white space in front changes nothing. -/
theorem Reading.blank (blank : isBlank c = true) (h : Reading (offset + c.utf8Size) cs ts) :
    Reading offset (c :: cs) ts := by
  have passed (gap : List Char) : offset + c.utf8Size + bytes gap = offset + bytes (c :: gap) := by
    rw [bytes_cons, Nat.add_assoc]
  cases h with
  | word blanks word more =>
    rw [passed] at more ⊢
    exact .word (List.forall_mem_cons.mpr ⟨blank, blanks⟩) word more
  | ended blanks =>
    rw [passed]
    exact .ended (List.forall_mem_cons.mpr ⟨blank, blanks⟩)
  | stuck blanks unread none =>
    rw [passed]
    exact .stuck (List.forall_mem_cons.mpr ⟨blank, blanks⟩) unread none

theorem Reading.here (word : IsWord kind lexeme rest) (more : Reading (offset + bytes lexeme) rest ts) :
    Reading offset (lexeme ++ rest) (ts.cons ⟨kind, offset, String.ofList lexeme⟩) :=
  .word (List.forall_mem_nil _) word more

theorem Reading.stuckHere (unread : isBlank c = false)
    (none : ∀ kind lexeme left, lexeme ++ left = c :: rest → ¬ IsWord kind lexeme left) :
    Reading offset (c :: rest) ⟨[], .invalid offset (String.ofList (c :: rest))⟩ :=
  .stuck (List.forall_mem_nil _) unread none

theorem reading_of_word (h : step offset cs = .word t offset' rest) (more : Reading offset' rest ts) :
    Reading offset cs (ts.cons t) := by
  induction cs generalizing offset with
  | nil => cases h
  | cons c cs ih =>
    unfold step at h
    split at h
    next blank => exact (ih h).blank blank
    next =>
      split at h
      next => cases h
      next kind length word =>
        obtain ⟨rfl, rfl, rfl⟩ := Scanned.word.inj h
        have read := Reading.here (isWord_of_wordAt word) more
        rw [List.cons_append, List.take_append_drop] at read
        exact read

theorem reading_of_stop {s : Stop} (h : step offset cs = .stop s) : Reading offset cs ⟨[], s⟩ := by
  induction cs generalizing offset with
  | nil =>
    obtain rfl := Scanned.stop.inj h
    exact .ended fun _ hc => nomatch hc
  | cons c cs ih =>
    unfold step at h
    split at h
    next blank => exact (ih h).blank blank
    next dark =>
      split at h
      next none =>
        obtain rfl := Scanned.stop.inj h
        refine .stuckHere (Bool.eq_false_iff.mpr dark) ?_
        intro kind lexeme left whole word
        obtain ⟨d, ds, rfl, begins⟩ := word.wordAt
        rw [List.cons_append, List.cons.injEq] at whole
        obtain ⟨rfl, rfl⟩ := whole
        rw [none] at begins
        cases begins
      next => cases h

theorem reading_ofChars (offset : Nat) (cs : List Char) : Reading offset cs (Tokens.ofChars offset cs) := by
  fun_induction Tokens.ofChars offset cs with
  | case1 offset cs s h => exact reading_of_stop h
  | case2 offset cs t offset' rest h ih => exact reading_of_word h ih

/-- **The tokens of a source are its one reading.** -/
theorem reading_iff : Reading offset cs ts ↔ ts = Tokens.ofChars offset cs :=
  ⟨Reading.eq_ofChars, fun h => h ▸ reading_ofChars offset cs⟩

/-! ## Places -/

/-- **The end lies behind all of the source.** -/
theorem Reading.end_offset (h : Reading offset cs ts) {e : Nat} (ended : ts.stop = .endOfInput e) :
    e = offset + bytes cs := by
  induction h with
  | word blank word more ih =>
    rw [ih ended, bytes_append, bytes_append]
    omega
  | ended blank => exact (Stop.endOfInput.inj ended).symm
  | stuck => cases ended

/-- **A word stands in the source**, after all that lies before its offset, with what it has to be there. -/
theorem Reading.exists_place (h : Reading offset cs ts) (ht : t ∈ ts.words) :
    ∃ before after, cs = before ++ (t.lexeme.toList ++ after) ∧ t.offset = offset + bytes before ∧
      IsWord t.kind t.lexeme.toList after := by
  induction h with
  | @word offset gap lexeme rest kind ts blank word more ih =>
    rcases List.mem_cons.mp ht with rfl | ht
    · exact ⟨gap, rest, by rw [String.toList_ofList], rfl, by rwa [String.toList_ofList]⟩
    · obtain ⟨before, after, rfl, place, here⟩ := ih ht
      refine ⟨gap ++ (lexeme ++ before), after, ?_, ?_, here⟩
      · simp only [List.append_assoc]
      · rw [place, bytes_append, bytes_append]
        omega
  | ended | stuck => cases ht

/-- **What cannot be read stands in the source**, up to its end, and no literal begins it. -/
theorem Reading.exists_unread (h : Reading offset cs ts) {e : Nat} {unread : String}
    (stuck : ts.stop = .invalid e unread) :
    numeralLength unread.toList = 0 ∧ ∃ before, cs = before ++ unread.toList ∧ e = offset + bytes before := by
  induction h with
  | @word offset gap lexeme rest kind ts blank word more ih =>
    obtain ⟨none, before, rfl, place⟩ := ih stuck
    refine ⟨none, gap ++ (lexeme ++ before), ?_, ?_⟩
    · simp only [List.append_assoc]
    · rw [place, bytes_append, bytes_append]
      omega
  | ended => cases stuck
  | @stuck offset gap c rest _ _ none =>
    obtain ⟨rfl, rfl⟩ := Stop.invalid.inj stuck
    rw [String.toList_ofList]
    refine ⟨Decidable.byContradiction fun pos => ?_, gap, rfl, rfl⟩
    exact none _ _ _ (List.take_append_drop _ _) (isWord_numeral pos)

end Formula
