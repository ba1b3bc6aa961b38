import Formula.Proofs.Parse.Answer

/-!
# Histories — what a parse does, step by step

A parser of the grammar takes words, notes faults and goes deeper. A **history** is what it may do: it takes
words and never the token of a stop, it goes no deeper than there is room, and it notes a fault at the token
at the front, all but one: an argument too many is noted at its comma, once the argument has been read.
`History` relates the tokens before, the trace and the tokens after, so what holds of every parse is proved by
induction on the steps and not once more for every parser.

That each parser keeps to it is proved together with what comes of its value (`Parser.Does`): where no fault
is noted nothing is missing. The other way round, a part that is missing has been noted
(`Parser.notesMissing`).

**What it does not say.** Which step comes when: that is the grammar's, and a matter of verdicts.
-/

namespace Formula

/-- **What a parser with some room does**, from the tokens before to the tokens after. -/
inductive History : (room : Nat) → Tokens → (trace : List Event) → Tokens → Prop
  | idle {room : Nat} {ts : Tokens} : History room ts [] ts
  /-- A word is taken, and what stands behind it comes to the front. -/
  | takes {room : Nat} {t : Token} {words : List Token} {stop : Stop} :
      History room ⟨t :: words, stop⟩ (.took t :: Parser.arrival ⟨words, stop⟩) ⟨words, stop⟩
  /-- A fault is noted at the token at the front. -/
  | notes {room : Nat} {ts : Tokens} (cause : FaultCause) : History room ts [.fault ⟨cause, ts.head.offset⟩] ts
  /-- An argument too many is noted where it has begun. -/
  | surplus {room : Nat} {ts : Tokens} (offset : Nat) : History room ts [.fault ⟨.tooManyArguments, offset⟩] ts
  | deeper {room : Nat} {ts us : Tokens} {trace : List Event} (h : History room ts trace us) :
      History (room + 1) ts (.opened :: (trace ++ [.closed])) us
  | next {room : Nat} {ts us vs : Tokens} {trace more : List Event} (h : History room ts trace us)
      (h' : History room us more vs) : History room ts (trace ++ more) vs

namespace Parser

variable {α β : Type} {room : Nat} {ts : Tokens} {good : α → Prop} {good' : β → Prop}

/-- **What a parser does is a history**, and a good value comes of it where no fault is noted. -/
structure Does (room : Nat) (p : Parser α) (ts : Tokens) (good : α → Prop) : Prop where
  history : History room ts (p.run ts).trace (p.run ts).rest
  good_of_silent : faultsOf (p.run ts).trace = [] → good (p.run ts).value

namespace Does

/-! ## One parser after another -/

theorem mono {more : α → Prop} {p : Parser α} (h : Does room p ts good) (imp : ∀ a, good a → more a) :
    Does room p ts more :=
  ⟨h.history, fun silent => imp _ (h.good_of_silent silent)⟩

protected theorem pure {a : α} (h : good a) : Does room (pure a) ts good := ⟨.idle, fun _ => h⟩

/-- **In sequence**, the second parser may count on the value of the first one: where that is not good, a fault
has been noted. -/
protected theorem bind {p : Parser α} {f : α → Parser β} (h : Does room p ts good)
    (h' : Does room (f (p.run ts).value) (p.run ts).rest fun b => good (p.run ts).value → good' b) :
    Does room (p >>= f) ts good' := by
  refine ⟨h.history.next h'.history, fun silent => ?_⟩
  rw [bind_run, faultsOf_append, List.append_eq_nil_iff] at silent
  exact h'.good_of_silent silent.2 (h.good_of_silent silent.1)

/-! ## The parsers that the grammar is made of -/

protected theorem sees {kinds : TokenSet} {f : Bool → Parser α}
    (h : ∀ seen, kinds.contains ts.head.kind = seen → Does room (f seen) ts good) :
    Does room (sees kinds >>= f) ts good := ⟨(h _ rfl).history, (h _ rfl).good_of_silent⟩

protected theorem peek {f : Token → Parser α} (h : Does room (f ts.head) ts good) :
    Does room (peek >>= f) ts good := ⟨h.history, h.good_of_silent⟩

protected theorem wordsLeft {f : Nat → Parser α} (h : Does room (f ts.words.length) ts good) :
    Does room (wordsLeft >>= f) ts good := ⟨h.history, h.good_of_silent⟩

/-- **A word at the front is taken.** -/
protected theorem take {t : Token} {words : List Token} {stop : Stop} {f : Token → Parser α}
    (h : Does room (f t) ⟨words, stop⟩ good) : Does room (take >>= f) ⟨t :: words, stop⟩ good := by
  have taken : Does room take ⟨t :: words, stop⟩ fun _ => True := ⟨.takes, fun _ => trivial⟩
  exact taken.bind (h.mono fun _ value _ => value)

protected theorem fault (cause : FaultCause) : Does room (fault cause ts.head.offset) ts fun _ => False :=
  ⟨.notes cause, fun silent => nomatch silent⟩

protected theorem tooDeep {good : Option α → Prop} : Does room tooDeep ts good :=
  ⟨.notes .tooDeep, fun silent => nomatch silent⟩

protected theorem deeper {p : Parser α} (h : Does room p ts good) : Does (room + 1) (deeper p) ts good := by
  refine ⟨h.history.deeper, fun silent => h.good_of_silent ?_⟩
  have same : faultsOf ((Parser.deeper p).run ts).trace = faultsOf (p.run ts).trace :=
    congrArg Answer.faults (answer_deeper p)
  rw [← same, silent]

/-- **What is needed is taken, or missing and noted.** -/
protected theorem expect {wanted : TokenSet} (ends : wanted.contains .endOfInput = false)
    (stuck : wanted.contains .invalid = false) : Does room (expect wanted) ts (·.isSome = true) := by
  obtain ⟨words, stop⟩ := ts
  refine Does.sees fun seen hseen => ?_
  cases seen with
  | true =>
    obtain ⟨t, words, rfl, -⟩ := Tokens.exists_word ends stuck hseen
    exact Does.take (Does.pure rfl)
  | false => exact Does.peek ((Does.fault _).bind (Does.pure fun noted => noted.elim))

end Does

/-! ## The grammar -/

/-- **A part is there, or it is missing and noted.** -/
abbrev Yields (room : Nat) (p : Parser Part) : Prop := ∀ ts, Does room p ts (·.isSome = true)

variable {operand expression unary : Parser Part}

theorem isSome_joined {left right : Part} {t : Token} (known : (BinaryOp.ofKind? t.kind).isSome = true)
    (hl : left.isSome = true) (hr : right.isSome = true) : (joined left t right).isSome = true := by
  obtain ⟨l, rfl⟩ := Option.isSome_iff_exists.mp hl
  obtain ⟨op, hop⟩ := Option.isSome_iff_exists.mp known
  obtain ⟨r, rfl⟩ := Option.isSome_iff_exists.mp hr
  simp [joined, hop]

/-- **The rest of a chain** is there when what it goes on from is. -/
theorem does_chain {operators : TokenSet}
    (known : ∀ kind, operators.contains kind = true → (BinaryOp.ofKind? kind).isSome = true)
    (h : Yields room operand) (fits : Nat) : ∀ (left : Part) (ts : Tokens),
      Does room (chain operators operand fits left) ts fun e => left.isSome = true → e.isSome = true := by
  -- the token of a stop writes no operator
  have ends : operators.contains .endOfInput = false := Bool.eq_false_iff.mpr fun seen => nomatch known _ seen
  have stuck : operators.contains .invalid = false := Bool.eq_false_iff.mpr fun seen => nomatch known _ seen
  induction fits with
  | zero =>
    intro left ts
    refine Does.sees fun seen _ => ?_
    cases seen with
    | true => exact Does.tooDeep
    | false => exact Does.pure id
  | succ fits ih =>
    rintro left ⟨words, stop⟩
    refine Does.sees fun seen hseen => ?_
    cases seen with
    | false => exact Does.pure id
    | true =>
      obtain ⟨t, words, rfl, operator⟩ := Tokens.exists_word ends stuck hseen
      refine Does.take ((h _).bind ((ih _ _).mono ?_))
      exact fun e more right left => more (isSome_joined (known _ operator) left right)

theorem yields_multiplication (h : Yields room unary) : Yields room (multiplication room unary) := fun ts =>
  (h ts).bind (does_chain (fun kind => by cases kind <;> decide) h room _ _)

theorem yields_addition (h : Yields room unary) : Yields room (addition room unary) := fun ts =>
  (yields_multiplication h ts).bind
    (does_chain (fun kind => by cases kind <;> decide) (yields_multiplication h) room _ _)

/-- **The further arguments** are all there, or one is missing and noted. -/
theorem does_moreArguments (h : Yields room expression) (turns : Nat) : ∀ (slots : Nat) (noted : Bool) (ts : Tokens),
    Does room (moreArguments expression turns slots noted) ts fun es => ∀ e ∈ es, e.isSome = true := by
  induction turns with
  | zero => exact fun slots noted ts => Does.pure fun _ he => nomatch he
  | succ turns ih =>
    rintro slots noted ⟨words, stop⟩
    refine Does.sees fun seen hseen => ?_
    cases seen with
    | false => exact Does.pure fun _ he => nomatch he
    | true =>
      obtain ⟨comma, words, rfl, -⟩ := Tokens.exists_word (by decide) (by decide) hseen
      refine Does.take ((h _).bind ?_)
      cases slots with
      | succ slots =>
        refine (ih slots noted _).bind (Does.pure fun more argument => ?_)
        exact List.forall_mem_cons.mpr ⟨argument, more⟩
      | zero =>
        -- the argument is dropped, and that it is too many is noted once
        cases noted with
        | true => exact (ih 0 true _).mono fun _ more _ => more
        | false =>
          have note (us : Tokens) : Does room (fault .tooManyArguments comma.offset) us fun _ => True :=
            ⟨.surplus comma.offset, fun _ => trivial⟩
          refine (note _).bind ?_
          exact (ih 0 true _).mono fun _ more _ _ => more

theorem isSome_allOf : ∀ {es : List Part}, (∀ e ∈ es, e.isSome = true) → (allOf es).isSome = true
  | [], _ => rfl
  | none :: _, h => nomatch h none List.mem_cons_self
  | some e :: es, h => by
    rw [allOf, Option.isSome_map]
    exact isSome_allOf fun e he => h e (List.mem_cons_of_mem _ he)

theorem does_arguments (h : Yields room expression) {t : Token} {words : List Token} {stop : Stop} :
    Does room (arguments expression) ⟨t :: words, stop⟩ (·.isSome = true) := by
  refine Does.take (Does.sees fun seen hseen => ?_)
  cases seen with
  | true =>
    obtain ⟨close, words, rfl, -⟩ := Tokens.exists_word (by decide) (by decide) hseen
    exact Does.take (Does.pure rfl)
  | false =>
    refine (h _).bind (Does.wordsLeft ((does_moreArguments h _ _ _ _).bind ?_))
    refine (Does.expect (by decide) (by decide)).bind ?_
    split
    next => exact Does.pure fun _ more first => isSome_allOf (List.forall_mem_cons.mpr ⟨first, more⟩)
    next unclosed =>
      rw [unclosed]
      exact Does.pure fun closed => nomatch closed

/-- A word that is an operand by itself. -/
theorem does_operand {words : List Token} {stop : Stop} {kind : TokenKind} {e : Expr} (ends : kind ≠ .endOfInput)
    (stuck : kind ≠ .invalid) (found : (⟨words, stop⟩ : Tokens).head.kind = kind) :
    Does room (take >>= fun _ => pure (some e)) ⟨words, stop⟩ (·.isSome = true) := by
  cases words with
  | cons t words => exact Does.take (Does.pure rfl)
  | nil =>
    rcases Tokens.kind_stop stop with atEnd | invalid
    · exact absurd (found.symm.trans atEnd) ends
    · exact absurd (found.symm.trans invalid) stuck

theorem yields_basic (h : Yields room expression) : Yields room (basic expression) := by
  rintro ⟨words, stop⟩
  refine Does.peek ?_
  split
  next opened =>
    have seen : opening.contains (⟨words, stop⟩ : Tokens).head.kind = true := by rw [opened]; decide
    obtain ⟨t, words, rfl, -⟩ := Tokens.exists_word (by decide) (by decide) seen
    refine Does.take ((h _).bind ((Does.expect (by decide) (by decide)).bind ?_))
    split
    next => exact Does.pure fun _ inner => inner
    next unclosed =>
      rw [unclosed]
      exact Does.pure fun closed => nomatch closed
  next number => exact does_operand (by decide) (by decide) number
  next named => exact does_operand (by decide) (by decide) named
  next => exact (Does.fault _).bind (Does.pure fun noted => noted.elim)

theorem yields_call (h : Yields room expression) : Yields room (call expression) := by
  rintro ⟨words, stop⟩
  refine Does.sees fun named hnamed => ?_
  cases named with
  | false => exact yields_basic h _
  | true =>
    obtain ⟨callee, words, rfl, -⟩ := Tokens.exists_word (by decide) (by decide) hnamed
    refine Does.take (Does.sees fun opens hopens => ?_)
    cases opens with
    | false => exact Does.pure rfl
    | true =>
      obtain ⟨t, words, rfl, -⟩ := Tokens.exists_word (by decide) (by decide) hopens
      refine (does_arguments h).bind (Does.pure fun args => ?_)
      rw [Option.isSome_map]
      exact args

theorem yields_power (he : Yields room expression) (hu : Yields room unary) : Yields room (power expression unary) := by
  intro ts
  refine (yields_call he ts).bind ?_
  generalize ((call expression).run ts).rest = us
  obtain ⟨words, stop⟩ := us
  refine Does.sees fun seen hseen => ?_
  cases seen with
  | false => exact Does.pure id
  | true =>
    obtain ⟨t, words, rfl, raises⟩ := Tokens.exists_word (by decide) (by decide) hseen
    have known : (BinaryOp.ofKind? t.kind).isSome = true := by
      revert raises
      cases t.kind <;> decide
    refine Does.take ((hu _).bind (Does.pure fun exponent base => ?_))
    exact isSome_joined known base exponent

theorem yields_signed (he : Yields room expression) (hu : Yields room unary) :
    Yields room (signed expression unary) := by
  rintro ⟨words, stop⟩
  refine Does.sees fun seen hseen => ?_
  cases seen with
  | false => exact yields_power he hu _
  | true =>
    obtain ⟨t, words, rfl, -⟩ := Tokens.exists_word (by decide) (by decide) hseen
    refine Does.take ((hu _).bind (Does.pure fun operand => ?_))
    rw [Option.isSome_map]
    exact operand

theorem yields_unary : ∀ room, Yields room (Parser.unary room)
  | 0 => fun _ => Does.tooDeep
  | room + 1 => fun ts =>
    Does.deeper (yields_signed (yields_addition (yields_unary room)) (yields_unary room) ts)

theorem yields_expression (room : Nat) : Yields room (Parser.expression room) := yields_addition (yields_unary room)

/-! ## What is missing -/

/-- **A parser notes what is missing**: where there is no value, it has noted a fault. -/
def Notes (p : Parser (Option α)) (ts : Tokens) : Prop := (p.run ts).value = none → faultsOf (p.run ts).trace ≠ []

theorem Does.notes {p : Parser (Option α)} (h : Does room p ts (·.isSome = true)) : p.Notes ts := by
  intro missing silent
  have value := h.good_of_silent silent
  rw [missing] at value
  cases value

theorem notes_expect (wanted : TokenSet) (ts : Tokens) : (expect wanted).Notes ts := by
  intro missing
  cases seen : wanted.contains ts.head.kind with
  | true =>
    simp only [expect, sees, bind_run, seen] at missing
    cases missing
  | false =>
    simp only [expect, sees, bind_run, seen]
    exact List.cons_ne_nil _ _

/-- **Every parser of the grammar notes what is missing**, with any room; arguments are parsed where a word stands. -/
structure NotesMissing (room : Nat) : Prop where
  expect : ∀ wanted ts, (Parser.expect wanted).Notes ts
  expression : ∀ ts, (Parser.expression room).Notes ts
  multiplication : ∀ ts, (Parser.multiplication room (Parser.unary room)).Notes ts
  unary : ∀ ts, (Parser.unary room).Notes ts
  signed : ∀ ts, (Parser.signed (Parser.expression room) (Parser.unary room)).Notes ts
  power : ∀ ts, (Parser.power (Parser.expression room) (Parser.unary room)).Notes ts
  call : ∀ ts, (Parser.call (Parser.expression room)).Notes ts
  arguments : ∀ t words stop, (Parser.arguments (Parser.expression room)).Notes ⟨t :: words, stop⟩
  basic : ∀ ts, (Parser.basic (Parser.expression room)).Notes ts

theorem notesMissing (room : Nat) : NotesMissing room where
  expect := notes_expect
  expression ts := (yields_expression room ts).notes
  multiplication ts := (yields_multiplication (yields_unary room) ts).notes
  unary ts := (yields_unary room ts).notes
  signed ts := (yields_signed (yields_expression room) (yields_unary room) ts).notes
  power ts := (yields_power (yields_expression room) (yields_unary room) ts).notes
  call ts := (yields_call (yields_expression room) ts).notes
  arguments _ _ _ := (does_arguments (yields_expression room)).notes
  basic ts := (yields_basic (yields_expression room) ts).notes

end Parser

end Formula
