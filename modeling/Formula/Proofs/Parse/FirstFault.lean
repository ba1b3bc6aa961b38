import Formula.Proofs.Parse.Acceptance

/-!
# First faults — where a malformed source goes wrong

The error of a parse points at the first token that no sentence goes on with: the tokens before it begin
a sentence, and with it they do not (`read_error`). Its kind says which token that is and what was wanted
there. An error that is a limit's says nothing of the sentence; but where the source is a sentence there
is no other error.

**What it does not say.** Which kinds of tokens could have stood there is in the message, and not here.
-/

namespace Formula

/-- The three kinds of errors that a token makes; the other two are those of the limits. -/
def ParseErrorKind.isSyntax : ParseErrorKind → Bool
  | unexpectedToken | expectedExpression | unexpectedEndOfInput => true
  | tooManyArguments | nestingTooDeep => false

/-- **No sentence goes on with a token** after some tokens; where it is the end, they are none. -/
def Refuses (before : List Token) (t : Token) : Prop :=
  if t.kind = .endOfInput then ¬ IsSentence before else ¬ IsSentenceStart (before ++ [t])

/-- **The kind of an error fits the token found** and what stands before it. -/
structure Fits (kind : ParseErrorKind) (before : List Token) (t : Token) : Prop where
  atEnd : kind = .unexpectedEndOfInput ↔ t.kind = .endOfInput
  operand : kind = .expectedExpression ↔ t.kind ≠ .endOfInput ∧ WantsOperand before
  token : kind = .unexpectedToken ↔ t.kind ≠ .endOfInput ∧ ¬ WantsOperand before

/-! ## Kinds -/

variable {cause : FaultCause} {found : Token} {taken left before : List Token} {ts : Tokens} {f : Fault}

theorem FaultCause.isSyntax_kindAt (found : TokenKind) {kind : ParseErrorKind} (h : kind.isSyntax = true) :
    (kindAt found kind).isSyntax = true := by
  unfold kindAt
  split
  · rfl
  · exact h

theorem FaultCause.isSyntax_kind (cause : FaultCause) : cause.kind.isSyntax = !cause.limits := by
  cases cause with
  | expected wanted found => exact isSyntax_kindAt found rfl
  | noOperand found => exact isSyntax_kindAt found rfl
  | tooManyArguments | tooDeep => rfl

/-- **A cause that is right about the token found has the kind that fits.** -/
theorem Describes.fits (h : Describes cause found before) (grammar : cause.limits = false) :
    Fits cause.kind before found := by
  cases cause with
  | tooManyArguments | tooDeep => cases grammar
  | expected wanted kind =>
    obtain ⟨rfl, ends⟩ := h
    by_cases ended : found.kind = .endOfInput
    · have kind : FaultCause.kind (.expected wanted found.kind) = .unexpectedEndOfInput := if_pos ended
      rw [kind]
      exact ⟨iff_of_true rfl ended, iff_of_false (nomatch ·) fun h => h.1 ended,
        iff_of_false (nomatch ·) fun h => h.1 ended⟩
    · have kind : FaultCause.kind (.expected wanted found.kind) = .unexpectedToken := if_neg ended
      rw [kind]
      exact ⟨iff_of_false (nomatch ·) ended, iff_of_false (nomatch ·) fun h => ends.not_wantsOperand h.2,
        iff_of_true rfl ⟨ended, ends.not_wantsOperand⟩⟩
  | noOperand kind =>
    obtain ⟨rfl, wants⟩ := h
    by_cases ended : found.kind = .endOfInput
    · have kind : FaultCause.kind (.noOperand found.kind) = .unexpectedEndOfInput := if_pos ended
      rw [kind]
      exact ⟨iff_of_true rfl ended, iff_of_false (nomatch ·) fun h => h.1 ended,
        iff_of_false (nomatch ·) fun h => h.1 ended⟩
    · have kind : FaultCause.kind (.noOperand found.kind) = .expectedExpression := if_neg ended
      rw [kind]
      exact ⟨iff_of_false (nomatch ·) ended, iff_of_true rfl ⟨ended, wants⟩,
        iff_of_false (nomatch ·) fun h => h.2 wants⟩

/-! ## The token found -/

theorem Terminal.isWord {kind : TokenKind} (t : Terminal kind) (h : kind.isWord = true) :
    t.token.kind.isWord = true := by
  rw [t.kind_eq, h]

theorem Derivation.isWord {n : Nonterminal} (d : Derivation n) : ∀ t ∈ d.tokens, t.kind.isWord = true := by
  induction d with
  | expression d ih | product d ih | factor d ih | unsigned d ih | plainPower d ih | plainCall d ih => exact ih
  | chain first more ih ih' => exact List.forall_mem_append.mpr ⟨ih, ih'⟩
  | noLink | noArgument =>
    intro t ht
    cases ht
  | link op level operator right more ih ih' =>
    have word : operator.token.kind.isWord = true := operator.isWord (by cases op <;> rfl)
    exact List.forall_mem_cons.mpr ⟨word, List.forall_mem_append.mpr ⟨ih, ih'⟩⟩
  | signed sign mark operand ih =>
    exact List.forall_mem_cons.mpr ⟨mark.isWord (by cases sign <;> rfl), ih⟩
  | raised base caret exponent ih ih' =>
    exact List.forall_mem_append.mpr ⟨ih, List.forall_mem_cons.mpr ⟨caret.isWord rfl, ih'⟩⟩
  | emptyCall callee opening closing =>
    simp only [tokens, List.forall_mem_cons, callee.isWord rfl, opening.isWord rfl, closing.isWord rfl, true_and]
    intro t ht
    cases ht
  | fullCall callee opening first more closing ih ih' =>
    have last := List.forall_mem_append.mpr ⟨ih', List.forall_mem_singleton.mpr (closing.isWord rfl)⟩
    exact List.forall_mem_cons.mpr ⟨callee.isWord rfl,
      List.forall_mem_cons.mpr ⟨opening.isWord rfl, List.forall_mem_append.mpr ⟨ih, last⟩⟩⟩
  | argument comma d more ih ih' =>
    exact List.forall_mem_cons.mpr ⟨comma.isWord rfl, List.forall_mem_append.mpr ⟨ih, ih'⟩⟩
  | number t | name t => exact List.forall_mem_singleton.mpr (t.isWord rfl)
  | group opening d closing ih =>
    have last := List.forall_mem_append.mpr ⟨ih, List.forall_mem_singleton.mpr (closing.isWord rfl)⟩
    exact List.forall_mem_cons.mpr ⟨opening.isWord rfl, last⟩

/-- **Where a fault is no limit's, no sentence goes on with the token found.** -/
theorem BreaksOff.refuses (h : BreaksOff ts f taken left) (words : ∀ t ∈ ts.words, t.kind.isWord = true)
    (grammar : f.cause.limits = false) : Refuses taken (⟨left, ts.stop⟩ : Tokens).head := by
  have refuted (d : Derivation .expression) (goesOn : List Token) (hd : d.tokens = taken ++ goesOn)
      (heads : goesOn.head? = left.head?) (ended : left = [] → ts.stop.token.kind = .endOfInput) : False := by
    have limit := (h.refutes d goesOn hd heads ended).1
    rw [grammar] at limit
    cases limit
  unfold Refuses
  cases left with
  | cons t left =>
    have word := words t (by rw [h.split]; exact List.mem_append_right _ List.mem_cons_self)
    have unended : t.kind ≠ .endOfInput := by
      intro ended
      rw [ended] at word
      cases word
    rw [Tokens.head_cons, if_neg unended]
    rintro ⟨rest, d, hd⟩
    rw [List.append_assoc] at hd
    exact refuted d (t :: rest) hd rfl fun h => nomatch h
  | nil =>
    rw [Tokens.head_nil]
    split
    next ended =>
      rintro ⟨d, hd⟩
      exact refuted d [] (by rw [List.append_nil, hd]) rfl fun _ => ended
    next unended =>
      -- where the scan is stuck there is no word at all
      have stuck : ts.stop.token.kind = .invalid := (Tokens.kind_stop ts.stop).resolve_left unended
      rintro ⟨rest, d, hd⟩
      have found : ts.stop.token ∈ d.tokens := by
        rw [hd]
        exact List.mem_append_left _ (List.mem_append_right _ (List.mem_singleton_self _))
      have word := d.isWord _ found
      rw [stuck] at word
      cases word

/-- A sentence is refused by nothing but a limit. -/
theorem BreaksOff.limits_of_isSentence (h : BreaksOff ts f taken left) (sentence : IsSentence ts.words)
    (ended : ts.stop.token.kind = .endOfInput) : f.cause.limits = true := by
  obtain ⟨d, hd⟩ := sentence
  exact (h.refutes d left (hd.trans h.split) rfl fun _ => ended).1

/-- **The error of a source is about the first token that no sentence goes on with**, or about a limit; and
about a limit when the source is a sentence. -/
theorem read_error {source : String} {e : ParseError} (h : (Ast.read source).result = .error e) :
    (∃ t, (Tokens.ofSource source).at? e.offset = some t ∧
      (e.kind.isSyntax = true →
        IsSentenceStart ((Tokens.ofSource source).before e.offset) ∧
        Refuses ((Tokens.ofSource source).before e.offset) t ∧
        Fits e.kind ((Tokens.ofSource source).before e.offset) t)) ∧
    ((∀ t ∈ (Tokens.ofSource source).toList, t.kind ≠ .invalid) → IsSentence (Tokens.ofSource source).words →
      e.kind = .nestingTooDeep ∨ e.kind = .tooManyArguments) := by
  have order := Tokens.inOrder_ofSource source
  rcases read_cases source with ⟨d, -, -, -, result⟩ | ⟨f, taken, left, e', breaks, result, kind, offset⟩
  · rw [result] at h
    cases h
  · obtain rfl : e' = e := Except.error.inj (result.symm.trans h)
    have place : e'.offset = (⟨left, (Tokens.ofSource source).stop⟩ : Tokens).head.offset :=
      offset.trans breaks.offset_eq
    rw [place, order.before_eq breaks.split, order.at?_eq breaks.split, kind]
    -- the offset of the error is the place where the words are cut
    refine ⟨⟨_, rfl, fun grammar => ?_⟩, fun valid sentence => ?_⟩
    · rw [FaultCause.isSyntax_kind, Bool.not_eq_true'] at grammar
      exact ⟨breaks.viable grammar, breaks.refuses order.words grammar, breaks.describes.fits grammar⟩
    · have limit := breaks.limits_of_isSentence sentence (stop_kind_of_valid valid)
      cases hf : f.cause with
      | expected | noOperand =>
        rw [hf] at limit
        cases limit
      | tooManyArguments => exact .inr rfl
      | tooDeep => exact .inl rfl

/-- In `(x*)` the operand of the product is missing: `(x*` begins a sentence, and `(x*)` begins none. -/
theorem read_error_missingOperand :
    (Ast.read "(x*)").result = .error ⟨.expectedExpression, FlagSet.single .expectedExpression, 3⟩ ∧
      (Tokens.ofSource "(x*)").at? 3 = some ⟨.closeParen, 3, ")"⟩ ∧
      IsSentenceStart ((Tokens.ofSource "(x*)").before 3) ∧
      ¬ IsSentenceStart ((Tokens.ofSource "(x*)").before 3 ++ [⟨.closeParen, 3, ")"⟩]) := by
  have scan : Tokens.ofSource "(x*)" =
      ⟨[⟨.openParen, 0, "("⟩, ⟨.identifier, 1, "x"⟩, ⟨.star, 2, "*"⟩, ⟨.closeParen, 3, ")"⟩], .endOfInput 4⟩ := by
    have source : "(x*)".toList = ['(', 'x', '*', ')'] := rfl
    rw [Tokens.ofSource, source, Tokens.ofChars_of_word rfl, Tokens.ofChars_of_word rfl,
      Tokens.ofChars_of_word rfl, Tokens.ofChars_of_word rfl, Tokens.ofChars_of_stop rfl]
    rfl
  have result : (Ast.read "(x*)").result =
      .error ⟨.expectedExpression, FlagSet.single .expectedExpression, 3⟩ := by
    rw [read_result, scan]
    rfl
  obtain ⟨⟨t, found, place⟩, -⟩ := read_error result
  obtain ⟨viable, refuses, -⟩ := place rfl
  have here : (Tokens.ofSource "(x*)").at? 3 = some ⟨.closeParen, 3, ")"⟩ := by
    rw [scan]
    rfl
  obtain rfl := Option.some.inj (found.symm.trans here)
  exact ⟨result, here, viable, refuses⟩

end Formula
