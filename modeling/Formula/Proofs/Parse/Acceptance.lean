import Formula.Proofs.Parse.Decision
import Formula.Proofs.Token.Order
import Formula.Report

/-!
# Acceptance — which sources have a tree, and which tree

A source has a tree exactly when a token begins everywhere in it, its words are a sentence of the grammar,
and the derivation of the sentence keeps the limits; the tree is that of the derivation, and there is no
other derivation (`read_eq_ok_iff`).

`whole_answers` is the verdict on a whole source, from which the theory of errors starts as well: an
expression and then the end, or a fault that shows where the words break off (`BreaksOff`).
-/

namespace Formula

/-- **A fault shows where the words of a source break off.** -/
structure BreaksOff (ts : Tokens) (f : Fault) (taken left : List Token) : Prop where
  split : ts.words = taken ++ left
  /-- The fault is at the token behind the cut. -/
  offset_eq : f.offset = (⟨left, ts.stop⟩ : Tokens).head.offset
  /-- The cause is right about that token. -/
  describes : Describes f.cause (⟨left, ts.stop⟩ : Tokens).head taken
  /-- What stands before the cut begins a sentence. -/
  viable : f.cause.limits = false → IsSentenceStart taken
  /-- What goes on with the token behind the cut is no sentence, or one past the limits. -/
  refutes : ∀ (d : Derivation .expression) (goesOn : List Token), d.tokens = taken ++ goesOn →
    goesOn.head? = left.head? → (left = [] → ts.stop.token.kind = .endOfInput) →
    f.cause.limits = true ∧ ¬ d.Within 0

variable {ts : Tokens} {f : Fault} {taken left rest : List Token}

theorem Breaks.breaksOff (h : Breaks .expression (·.Within 0) f taken left ts.stop)
    (split : ts.words = taken ++ left) : BreaksOff ts f taken left where
  split := split
  offset_eq := h.offset_eq
  describes := h.describes
  viable := by
    intro grammar
    obtain ⟨d, more, hd⟩ := h.viable grammar
    exact ⟨more, d, hd⟩
  refutes := by
    intro d goesOn hd heads _
    exact h.refutes d [] goesOn (by rw [List.append_nil, hd]) stops_nil heads

theorem breaksOff_trailing (d : Derivation .expression) (split : ts.words = d.tokens ++ rest)
    (stops : Stops .expression d.tokens rest) (unended : (⟨rest, ts.stop⟩ : Tokens).head.kind ≠ .endOfInput) :
    BreaksOff ts
      ⟨.expected ending (⟨rest, ts.stop⟩ : Tokens).head.kind, (⟨rest, ts.stop⟩ : Tokens).head.offset⟩
      d.tokens rest where
  split := split
  offset_eq := rfl
  describes := ⟨rfl, EndsOperand.of_or d.endsOperand rfl⟩
  viable _ := ⟨[], d, (List.append_nil _).symm⟩
  refutes := by
    intro d' goesOn hd heads ended
    have hd' : d'.tokens ++ [] = d.tokens ++ goesOn := by rw [List.append_nil, hd]
    obtain ⟨-, rfl⟩ := d'.unique d hd' stops_nil (stops.of_head?_eq heads)
    obtain rfl : rest = [] := List.head?_eq_none_iff.mp heads.symm
    exact (unended (ended rfl)).elim

/-- **The verdict on a whole source.** -/
theorem whole_answers (ts : Tokens) (words : ∀ t ∈ ts.words, t.kind.isWord = true) :
    (∃ d : Derivation .expression, ts.words = d.tokens ∧ d.Within 0 ∧ ts.stop.token.kind = .endOfInput ∧
      Parser.whole.answer ts = ⟨some d.tree, ⟨[], ts.stop⟩, []⟩) ∨
    ∃ f taken left, BreaksOff ts f taken left ∧ Parser.whole.FailsAt ts f := by
  have verdict := Parser.decides_expression (Nat.zero_add maxNesting) ts.words ts.stop
  cases verdict with
  | fails f taken left split first breaks =>
    refine .inr ⟨f, taken, left, breaks.breaksOff split, ?_⟩
    rw [Parser.FailsAt, Parser.whole, Parser.answer_arrive]
    exact Parser.FailsAt.bind first _
  | reads d rest split stops keeps answers =>
    cases seen : ending.contains (⟨rest, ts.stop⟩ : Tokens).head.kind with
    | true =>
      have ended : (⟨rest, ts.stop⟩ : Tokens).head.kind = .endOfInput := (FlagSet.contains_single _ _).mp seen
      cases rest with
      | cons t rest =>
        -- the end is no word, so none can be left
        have word := words t (by rw [split]; exact List.mem_append_right _ List.mem_cons_self)
        rw [Tokens.head_cons] at ended
        rw [ended] at word
        cases word
      | nil =>
        refine .inl ⟨d, by rw [split, List.append_nil], keeps, ended, ?_⟩
        rw [Parser.whole, Parser.answer_arrive, Parser.answer_bind answers, Parser.answer_expect seen]
        rfl
    | false =>
      have unended : (⟨rest, ts.stop⟩ : Tokens).head.kind ≠ .endOfInput := by
        intro ended
        exact Bool.false_ne_true (seen.symm.trans ((FlagSet.contains_single _ _).mpr ended))
      refine .inr ⟨_, _, _, breaksOff_trailing d split stops unended, ?_⟩
      rw [Parser.FailsAt, Parser.whole, Parser.answer_arrive, Parser.answer_bind answers]
      exact Parser.failsAt_expect seen _

/-! ## From faults to the error -/

/-- **The error of a parse has kind and offset of the first fault.** -/
theorem ParseError.ofFaults_of_head? {fs : List Fault} (h : fs.head? = some f) :
    ∃ e, ofFaults fs = some e ∧ e.kind = f.cause.kind ∧ e.offset = f.offset := by
  obtain ⟨fs, rfl⟩ := List.head?_eq_some_iff.mp h
  exact ⟨_, ofFaults_cons f fs, rfl, rfl⟩

theorem read_result (source : String) :
    (Ast.read source).result =
      parseResult source (Parser.whole.answer (Tokens.ofSource source)).value
        (Parser.whole.answer (Tokens.ofSource source)).faults := rfl

/-- **A source either has the tree of its derivation or the error of its first fault.** -/
theorem read_cases (source : String) :
    (∃ d : Derivation .expression, (Tokens.ofSource source).words = d.tokens ∧ d.Within 0 ∧
      (Tokens.ofSource source).stop.token.kind = .endOfInput ∧ (Ast.read source).result = .ok ⟨source, d.tree⟩) ∨
    ∃ f taken left e, BreaksOff (Tokens.ofSource source) f taken left ∧ (Ast.read source).result = .error e ∧
      e.kind = f.cause.kind ∧ e.offset = f.offset := by
  rcases whole_answers (Tokens.ofSource source) (Tokens.inOrder_ofSource source).words with
    ⟨d, words, keeps, ended, answers⟩ | ⟨f, taken, left, breaks, first⟩
  · refine .inl ⟨d, words, keeps, ended, ?_⟩
    rw [read_result, answers]
    rfl
  · obtain ⟨e, he, kind, offset⟩ := ParseError.ofFaults_of_head? first
    refine .inr ⟨f, taken, left, e, breaks, ?_, kind, offset⟩
    rw [read_result]
    unfold parseResult
    rw [he]

/-! ## Acceptance -/

variable {source : String}

/-- **A source derived within the limits up to its end has the tree of the derivation.** -/
theorem read_of_derivation {d : Derivation .expression} (words : (Tokens.ofSource source).words = d.tokens)
    (keeps : d.Within 0) (ended : (Tokens.ofSource source).stop.token.kind = .endOfInput) :
    (Ast.read source).result = .ok ⟨source, d.tree⟩ := by
  rcases read_cases source with ⟨d', words', -, -, result⟩ | ⟨f, taken, left, e, breaks, -, -, -⟩
  · rw [result, Derivation.eq_of_tokens_eq (words.symm.trans words')]
  · -- the derivation goes on with the token that the fault is at
    have cut : d.tokens = taken ++ left := words.symm.trans breaks.split
    exact ((breaks.refutes d left cut rfl fun _ => ended).2 keeps).elim

/-- **A source that has a tree is derived within the limits up to its end**, and has the tree of the derivation. -/
theorem exists_derivation_of_read {a : Ast} (h : (Ast.read source).result = .ok a) :
    ∃ d : Derivation .expression, (Tokens.ofSource source).words = d.tokens ∧ d.Within 0 ∧
      (Tokens.ofSource source).stop.token.kind = .endOfInput ∧ a = ⟨source, d.tree⟩ := by
  rcases read_cases source with ⟨d, words, keeps, ended, result⟩ | ⟨f, taken, left, e, -, result, -, -⟩
  · exact ⟨d, words, keeps, ended, Except.ok.inj (h.symm.trans result)⟩
  · rw [result] at h
    cases h

/-- Where a token begins everywhere, a scan stops at the end. -/
theorem stop_kind_of_valid (valid : ∀ t ∈ ts.toList, t.kind ≠ .invalid) : ts.stop.token.kind = .endOfInput := by
  have stuck : ts.stop.token.kind ≠ .invalid := valid _ (List.mem_append_right _ (List.mem_singleton_self _))
  exact (Tokens.kind_stop ts.stop).resolve_right stuck

/-- Where a scan stops at the end, a token begins everywhere. -/
theorem valid_of_stop_kind (words : ∀ t ∈ ts.words, t.kind.isWord = true)
    (ended : ts.stop.token.kind = .endOfInput) : ∀ t ∈ ts.toList, t.kind ≠ .invalid := by
  intro t ht invalid
  rcases List.mem_append.mp ht with ht | ht
  · have word := words t ht
    rw [invalid] at word
    cases word
  · rw [List.mem_singleton.mp ht, ended] at invalid
    cases invalid

/-- **A source has a tree exactly when it is a sentence within the limits, and the tree is that of its one
derivation.** -/
theorem read_eq_ok_iff (source : String) (a : Ast) :
    (Ast.read source).result = .ok a ↔
      (∀ t ∈ (Tokens.ofSource source).toList, t.kind ≠ .invalid) ∧
      ∃ d : Derivation .expression, d.tokens = (Tokens.ofSource source).words ∧ d.Within 0 ∧
        a = ⟨source, d.tree⟩ ∧ ∀ d' : Derivation .expression, d'.tokens = (Tokens.ofSource source).words → d' = d := by
  constructor
  · intro h
    obtain ⟨d, words, keeps, ended, rfl⟩ := exists_derivation_of_read h
    refine ⟨valid_of_stop_kind (Tokens.inOrder_ofSource source).words ended, d, words.symm, keeps, rfl, ?_⟩
    exact fun d' h => Derivation.eq_of_tokens_eq (h.trans words)
  · rintro ⟨valid, d, words, keeps, rfl, -⟩
    exact read_of_derivation words.symm keeps (stop_kind_of_valid valid)

end Formula
