import Formula.Proofs.Grammar.Unambiguous
import Formula.Proofs.Parse.Answer

/-!
# Verdicts — a parser against a nonterminal

A parser **decides** a nonterminal when on all tokens it comes to one of two verdicts. Either it reads a
phrase: the tokens begin with those of a derivation, nothing after them carries the phrase on, the
derivation keeps the limits, and the value is what the derivation means. Or its first fault says where
the tokens break off (`Breaks`): some phrase begins with all that stands before the fault, and none goes
on with what stands there; where the fault is a limit, one does, and it breaks the limit.

The two verdicts exclude each other, so soundness, completeness and the place of the first fault are one
statement and have one proof. Parsers are put together by `Verdict.bind`: what is asked for there is where
a part stands in a phrase (`Awaits`), a fact of the grammar alone.
-/

namespace Formula

/-- Whether a cause is a limit, and not what stands in the source. -/
def FaultCause.limits : FaultCause → Bool
  | .expected .. | .noOperand _ => false
  | .tooManyArguments | .tooDeep => true

/-- The kinds of tokens after which an operand is wanted. -/
def openers : List TokenKind := [.plus, .minus, .star, .slash, .percent, .caret, .openParen, .comma]

/-- **After some tokens an operand is wanted**: there is none, or the last one is an operator, a sign, a
parenthesis that opens, or a comma. -/
def WantsOperand (ts : List Token) : Prop := ∀ t ∈ ts.getLast?, t.kind ∈ openers

section WantsOperand

variable {ts us : List Token} {t : Token}

theorem wantsOperand_nil : WantsOperand [] := by
  intro t ht
  cases ht

theorem wantsOperand_concat (ts : List Token) (h : t.kind ∈ openers) : WantsOperand (ts ++ [t]) := by
  unfold WantsOperand
  rw [List.getLast?_append]
  rintro _ ⟨⟩
  exact h

theorem WantsOperand.append_left (h : WantsOperand us) (some : us ≠ []) (ts : List Token) :
    WantsOperand (ts ++ us) := by
  unfold WantsOperand
  rw [List.getLast?_append, Option.or_of_isSome (List.getLast?_isSome.mpr some)]
  exact h

theorem WantsOperand.append (h : WantsOperand ts) (more : WantsOperand us) : WantsOperand (ts ++ us) := by
  by_cases some : us = []
  · rwa [some, List.append_nil]
  · exact more.append_left some ts

/-- **Where an operand ends, none is wanted.** -/
theorem EndsOperand.not_wantsOperand (h : EndsOperand ts) : ¬ WantsOperand ts := by
  obtain ⟨t, ht, closes⟩ := h
  intro wants
  have opens := wants t ht
  revert closes opens
  cases t.kind <;> decide

end WantsOperand

/-- **What a cause says of the token found and of the tokens before it.** A limit says nothing. -/
def Describes : FaultCause → (found : Token) → (taken : List Token) → Prop
  | .expected _ kind, found, taken => kind = found.kind ∧ EndsOperand taken
  | .noOperand kind, found, taken => kind = found.kind ∧ WantsOperand taken
  | .tooManyArguments, _, _ | .tooDeep, _, _ => True

/-- Tokens further to the front do not change what a cause says, when at the beginning an operand is
wanted. -/
theorem Describes.append_left {cause : FaultCause} {found : Token} {taken before : List Token}
    (h : Describes cause found taken)
    (context : WantsOperand before ∨ (cause.limits = false → taken ≠ [])) :
    Describes cause found (before ++ taken) := by
  cases cause with
  | expected => exact ⟨h.1, h.2.append_left before⟩
  | noOperand =>
    refine ⟨h.1, ?_⟩
    rcases context with wants | moved
    · exact wants.append h.2
    · exact h.2.append_left (moved rfl) before
  | tooManyArguments | tooDeep => trivial

/-- **A fault shows where the tokens break off**: `taken` stands before it, `left` begins at it. -/
structure Breaks (n : Nonterminal) (ok : Derivation n → Prop) (f : Fault) (taken left : List Token)
    (stop : Stop) : Prop where
  /-- The fault is at the token found. -/
  offset_eq : f.offset = (⟨left, stop⟩ : Tokens).head.offset
  /-- The cause is right about the token found. -/
  describes : Describes f.cause (⟨left, stop⟩ : Tokens).head taken
  /-- A repetition finds nothing wrong before it has begun to repeat. -/
  moved : n.repeats = true → f.cause.limits = false → taken ≠ []
  /-- What stands before the fault begins a phrase. -/
  viable : f.cause.limits = false → ∃ (d : Derivation n) (more : List Token), d.tokens = taken ++ more
  /-- What goes on with the token found is no phrase, or one past the limits. -/
  refutes : ∀ (d : Derivation n) (r goesOn : List Token), d.tokens ++ r = taken ++ goesOn →
    Stops n d.tokens r → goesOn.head? = left.head? → f.cause.limits = true ∧ ¬ ok d

/-- **What an answer says of some tokens.** -/
inductive Verdict {α : Type} (n : Nonterminal) (ok : Derivation n → Prop) (value : Derivation n → α)
    (words : List Token) (stop : Stop) (a : Answer α) : Prop
  | reads (d : Derivation n) (rest : List Token) (split : words = d.tokens ++ rest)
      (stops : Stops n d.tokens rest) (keeps : ok d) (answers : a = ⟨value d, ⟨rest, stop⟩, []⟩)
  | fails (f : Fault) (taken left : List Token) (split : words = taken ++ left)
      (first : a.faults.head? = some f) (breaks : Breaks n ok f taken left stop)

/-- **A parser decides a nonterminal**, within what is `ok`. -/
def Parser.Decides {α : Type} (p : Parser α) (n : Nonterminal) (ok : Derivation n → Prop)
    (value : Derivation n → α) : Prop :=
  ∀ (words : List Token) (stop : Stop), Verdict n ok value words stop (p.answer ⟨words, stop⟩)

/-! ## Parts of a phrase -/

variable {n m : Nonterminal} {ok : Derivation n → Prop} {okm : Derivation m → Prop}
  {before taken left words : List Token} {stop : Stop} {f : Fault}

/-- **After `before`, a phrase of one nonterminal goes on with one of another**, at `words`. -/
structure Awaits (n : Nonterminal) (ok : Derivation n → Prop) (before : List Token) (m : Nonterminal)
    (okm : Derivation m → Prop) (words : List Token) : Prop where
  /-- The part is a repetition, or an operand is wanted. -/
  context : WantsOperand before ∨ m.repeats = true
  /-- A repetition has begun to repeat. -/
  moved : n.repeats = true → before ≠ []
  /-- The part can be any, and is part of some phrase. -/
  complete : ∀ d : Derivation m, ∃ (e : Derivation n) (more : List Token), e.tokens = before ++ (d.tokens ++ more)
  /-- Every phrase that goes on with the same token has such a part here. -/
  align : ∀ (e : Derivation n) (r goesOn : List Token), e.tokens ++ r = before ++ goesOn → Stops n e.tokens r →
    goesOn.head? = words.head? →
    ∃ (d : Derivation m) (r' : List Token), d.tokens ++ r' = goesOn ∧ Stops m d.tokens r' ∧ (ok e → okm d)

/-- **Where a part breaks off, so does the phrase.** -/
theorem Breaks.whole (h : Breaks m okm f taken left stop) (part : Awaits n ok before m okm (taken ++ left)) :
    Breaks n ok f (before ++ taken) left stop where
  offset_eq := h.offset_eq
  describes := h.describes.append_left (part.context.imp_right h.moved)
  moved := by
    rintro repeats - e
    exact part.moved repeats (List.append_eq_nil_iff.mp e).1
  viable := by
    intro grammar
    obtain ⟨d, more, hd⟩ := h.viable grammar
    obtain ⟨e, more', he⟩ := part.complete d
    exact ⟨e, more ++ more', by rw [he, hd, List.append_assoc, List.append_assoc]⟩
  refutes := by
    intro e r goesOn he stops heads
    rw [List.append_assoc] at he
    -- whatever `taken` is, the part sees the same first token in both
    have same : (taken ++ goesOn).head? = (taken ++ left).head? := by
      rw [List.head?_append, heads, List.head?_append]
    obtain ⟨d, r', hd, stops', keeps⟩ := part.align e r _ he stops same
    obtain ⟨limit, breaks⟩ := h.refutes d r' goesOn hd stops' heads
    exact ⟨limit, fun hok => breaks (keeps hok)⟩

section part

variable {α β : Type} {value : Derivation n → β} {valuem : Derivation m → α}

/-- **A part in the middle of a phrase.** After `before`, the parser of the next part is followed by
whatever reads the rest of the phrase. -/
theorem Verdict.bind {p : Parser α} {k : α → Parser β} (before : List Token)
    (h : Verdict m okm valuem words stop (p.answer ⟨words, stop⟩))
    (part : Awaits n ok before m okm words)
    (reads : ∀ (d : Derivation m) (rest : List Token), words = d.tokens ++ rest → Stops m d.tokens rest → okm d →
      Verdict n ok value (before ++ words) stop ((k (valuem d)).answer ⟨rest, stop⟩)) :
    Verdict n ok value (before ++ words) stop ((p >>= k).answer ⟨words, stop⟩) := by
  cases h with
  | reads d rest split stops keeps answers =>
    rw [Parser.answer_bind answers]
    exact reads d rest split stops keeps
  | fails f taken left split first breaks =>
    have whole := breaks.whole (split ▸ part)
    exact .fails f _ left (by rw [split, List.append_assoc]) (Parser.FailsAt.bind first k) whole

/-- **The last part of a phrase**, whose answer is that of the phrase. -/
theorem Verdict.last {a : Answer β} {valuem : Derivation m → β} (before : List Token)
    (h : Verdict m okm valuem words stop a) (part : Awaits n ok before m okm words)
    (reads : ∀ (d : Derivation m) (rest : List Token), words = d.tokens ++ rest → Stops m d.tokens rest → okm d →
      ∃ e : Derivation n, e.tokens = before ++ d.tokens ∧ Stops n (before ++ d.tokens) rest ∧ ok e ∧
        value e = valuem d) :
    Verdict n ok value (before ++ words) stop a := by
  cases h with
  | reads d rest split stops keeps answers =>
    obtain ⟨e, tokens_eq, stops', keeps', value_eq⟩ := reads d rest split stops keeps
    refine .reads e rest ?_ (tokens_eq ▸ stops') keeps' (by rw [answers, value_eq])
    rw [tokens_eq, split, List.append_assoc]
  | fails f taken left split first breaks =>
    have whole := breaks.whole (split ▸ part)
    exact .fails f _ left (by rw [split, List.append_assoc]) first whole

end part

end Formula
