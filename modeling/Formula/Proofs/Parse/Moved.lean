import Formula.Proofs.Parse.Answer
import Formula.Proofs.Token.Padding

/-!
# Moved tokens — a parse does not look at offsets

Where a token stands matters to a parse only for what it hands on: spans, and the places of faults. So a parse of
moved tokens does what the parse of the tokens does, with all places moved along (`Parser.moves_whole`): value, trace
and what is left are the same up to that.

`Parser.Moves` says so of one parser, or of two that differ in what has been handed to them before. It is kept by
sequence (`Parser.Moves.bind`) and holds of each parser that the grammar is made of, and so of the grammar.
-/

namespace Formula

/-! ## Places moved -/

def Span.move (f : Nat → Nat) (s : Span) : Span := { s with offset := f s.offset }

mutual
/-- **An expression with its spans moved.** -/
def Expr.move (f : Nat → Nat) : Expr → Expr
  | .number value span => .number value (span.move f)
  | .identifier name span => .identifier name (span.move f)
  | .unary sign operand span => .unary sign (operand.move f) (span.move f)
  | .binary op left right span => .binary op (left.move f) (right.move f) (span.move f)
  | .call name arguments span => .call name (moveAll f arguments) (span.move f)
/-- Some expressions with their spans moved. -/
def moveAll (f : Nat → Nat) : List Expr → List Expr
  | [] => []
  | e :: es => e.move f :: moveAll f es
end

def Fault.move (f : Nat → Nat) (fault : Fault) : Fault := { fault with offset := f fault.offset }

/-- **What a parser did, with all places moved.** -/
def Event.move (f : Nat → Nat) : Event → Event
  | .took t => .took (t.move f)
  | .unreadable unread => .unreadable unread
  | .opened => .opened
  | .closed => .closed
  | .fault wrong => .fault (wrong.move f)

/-- An outcome with all places moved; how a value is moved depends on what it is. -/
def Outcome.move {α : Type} (f : Nat → Nat) (g : α → α) (o : Outcome α) : Outcome α :=
  ⟨g o.value, o.rest.move f, o.trace.map (·.move f)⟩

namespace Parser

variable {α β : Type} {f : Nat → Nat} {g : α → α} {g' : β → β}

/-- **Moved tokens are parsed alike**: what the second parser makes of them is what the first one makes of the tokens,
with all places moved. -/
def Moves (f : Nat → Nat) (g : α → α) (p q : Parser α) : Prop := ∀ ts, q.run (ts.move f) = (p.run ts).move f g

/-! ## The parsers that the grammar is made of -/

theorem Moves.pure (a : α) : Moves f g (Pure.pure a) (Pure.pure (g a)) := fun _ => rfl

theorem Moves.bind {p q : Parser α} {k l : α → Parser β} (h : Moves f g p q)
    (h' : ∀ a, Moves f g' (k a) (l (g a))) : Moves f g' (p >>= k) (q >>= l) := by
  intro ts
  rw [bind_run, bind_run, h ts]
  simp only [Outcome.move, h' _ _, List.map_append]

theorem arrival_move (ts : Tokens) : arrival (ts.move f) = (arrival ts).map (·.move f) := by
  obtain ⟨words, stop⟩ := ts
  cases words <;> cases stop <;> rfl

theorem moves_arrive : Moves f id arrive arrive := by
  intro ts
  simp only [arrive, Outcome.move, arrival_move, id]

theorem moves_peek : Moves f (·.move f) peek peek := by
  intro ts
  simp only [peek, Outcome.move, Tokens.head_move, List.map_nil]

theorem moves_sees (kinds : TokenSet) : Moves f id (sees kinds) (sees kinds) := by
  intro ts
  simp only [sees, Outcome.move, Tokens.head_move, id, List.map_nil]
  rfl

theorem moves_take : Moves f (·.move f) take take := by
  rintro ⟨words, stop⟩
  have tail := Tokens.tail_move f ⟨words, stop⟩
  have head := Tokens.head_move f ⟨words, stop⟩
  cases words with
  | nil => simp only [take, Outcome.move, head, tail]; rfl
  | cons t words => simp only [take, Outcome.move, head, tail, arrival_move]; rfl

theorem moves_wordsLeft : Moves f id wordsLeft wordsLeft := by
  intro ts
  simp only [wordsLeft, Outcome.move, id, List.map_nil, Tokens.move, List.length_map]

theorem moves_fault (cause : FaultCause) (offset : Nat) : Moves f id (fault cause offset) (fault cause (f offset)) :=
  fun _ => rfl

theorem Moves.deeper {p : Parser α} (h : Moves f g p p) : Moves f g (deeper p) (deeper p) := by
  intro ts
  simp only [Parser.deeper, h ts, Outcome.move, List.map_cons, List.map_append, List.map_nil]
  rfl

theorem moves_expect (wanted : TokenSet) : Moves f (Option.map (·.move f)) (expect wanted) (expect wanted) := by
  refine (moves_sees wanted).bind fun seen => ?_
  cases seen with
  | true => exact moves_take.bind fun t => Moves.pure (some t)
  | false => exact moves_peek.bind fun t => (moves_fault _ t.offset).bind fun _ => Moves.pure none

theorem moves_tooDeep {g : α → α} : Moves f (Option.map g) tooDeep tooDeep :=
  moves_peek.bind fun t => (moves_fault _ t.offset).bind fun _ => Moves.pure none

/-! ## The grammar -/

/-- A part of an expression moved, when it is there. -/
abbrev movePart (f : Nat → Nat) : Part → Part := Option.map (·.move f)

variable {operand expression unary : Parser Part}

theorem joined_move (left : Part) (t : Token) (right : Part) :
    joined (movePart f left) (t.move f) (movePart f right) = movePart f (joined left t right) := by
  have kind : (t.move f).kind = t.kind := rfl
  unfold joined
  rw [kind]
  cases left <;> cases BinaryOp.ofKind? t.kind <;> cases right <;> rfl

theorem moves_chain (operators : TokenSet) (h : Moves f (movePart f) operand operand) (room : Nat) :
    ∀ left,
      Moves f (movePart f) (chain operators operand room left) (chain operators operand room (movePart f left)) := by
  induction room with
  | zero =>
    intro left
    refine (moves_sees operators).bind fun seen => ?_
    cases seen with
    | true => exact moves_tooDeep
    | false => exact Moves.pure left
  | succ room ih =>
    intro left
    refine (moves_sees operators).bind fun seen => ?_
    cases seen with
    | true =>
      refine moves_take.bind fun operator => h.bind fun right => ?_
      have more := ih (joined left operator right)
      rw [← joined_move] at more
      exact more
    | false => exact Moves.pure left

theorem moves_multiplication (room : Nat) (h : Moves f (movePart f) unary unary) :
    Moves f (movePart f) (multiplication room unary) (multiplication room unary) :=
  h.bind fun first => moves_chain multiplicative h room first

theorem moves_addition (room : Nat) (h : Moves f (movePart f) unary unary) :
    Moves f (movePart f) (addition room unary) (addition room unary) :=
  (moves_multiplication room h).bind fun first => moves_chain additive (moves_multiplication room h) room first

theorem moves_moreArguments (h : Moves f (movePart f) expression expression) (turns : Nat) : ∀ slots noted,
    Moves f (List.map (movePart f)) (moreArguments expression turns slots noted)
      (moreArguments expression turns slots noted) := by
  induction turns with
  | zero => exact fun _ _ => Moves.pure []
  | succ turns ih =>
    intro slots noted
    refine (moves_sees separator).bind fun seen => ?_
    cases seen with
    | false => exact Moves.pure []
    | true =>
      refine moves_take.bind fun comma => h.bind fun argument => ?_
      cases slots with
      | succ slots => exact (ih slots noted).bind fun more => Moves.pure (argument :: more)
      | zero =>
        cases noted with
        | true => exact ih 0 true
        | false => exact (moves_fault _ comma.offset).bind fun _ => ih 0 true

theorem allOf_move (es : List Part) : allOf (es.map (movePart f)) = (allOf es).map (moveAll f) := by
  induction es with
  | nil => rfl
  | cons e es ih =>
    cases e with
    | none => rfl
    | some e =>
      rw [List.map_cons, movePart, Option.map_some, allOf, allOf, ih, Option.map_map, Option.map_map]
      rfl

theorem moves_arguments (h : Moves f (movePart f) expression expression) :
    Moves f (Option.map (moveAll f)) (arguments expression) (arguments expression) := by
  refine moves_take.bind fun _ => (moves_sees closing).bind fun seen => ?_
  cases seen with
  | true => exact moves_take.bind fun _ => Moves.pure (some [])
  | false =>
    refine h.bind fun first => moves_wordsLeft.bind fun turns => ?_
    refine (moves_moreArguments h turns _ _).bind fun more => (moves_expect closing).bind fun closed => ?_
    cases closed with
    | none => exact Moves.pure none
    | some t =>
      have all : Moves f (Option.map (moveAll f)) (Pure.pure (allOf (first :: more)))
          (Pure.pure ((allOf (first :: more)).map (moveAll f))) := Moves.pure _
      rw [← allOf_move] at all
      exact all

theorem moves_basic (h : Moves f (movePart f) expression expression) :
    Moves f (movePart f) (basic expression) (basic expression) := by
  refine moves_peek.bind fun t => ?_
  obtain ⟨kind, offset, lexeme⟩ := t
  cases kind with
  | openParen =>
    refine moves_take.bind fun _ => h.bind fun e => (moves_expect closing).bind fun closed => ?_
    cases closed with
    | none => exact Moves.pure none
    | some t => exact Moves.pure e
  | number | identifier => exact moves_take.bind fun _ => Moves.pure (some _)
  | _ => exact (moves_fault _ offset).bind fun _ => Moves.pure none

theorem moves_call (h : Moves f (movePart f) expression expression) :
    Moves f (movePart f) (call expression) (call expression) := by
  refine (moves_sees nameStart).bind fun named => ?_
  cases named with
  | false => exact moves_basic h
  | true =>
    refine moves_take.bind fun callee => (moves_sees opening).bind fun opens => ?_
    cases opens with
    | false => exact Moves.pure (some _)
    | true =>
      refine (moves_arguments h).bind fun args => ?_
      cases args with
      | none => exact Moves.pure none
      | some args => exact Moves.pure (some _)

theorem moves_power (he : Moves f (movePart f) expression expression) (hu : Moves f (movePart f) unary unary) :
    Moves f (movePart f) (power expression unary) (power expression unary) := by
  refine (moves_call he).bind fun base => (moves_sees powerMark).bind fun seen => ?_
  cases seen with
  | false => exact Moves.pure base
  | true =>
    refine moves_take.bind fun operator => hu.bind fun exponent => ?_
    rw [joined_move]
    exact Moves.pure _

theorem moves_signed (he : Moves f (movePart f) expression expression) (hu : Moves f (movePart f) unary unary) :
    Moves f (movePart f) (signed expression unary) (signed expression unary) := by
  refine (moves_sees signs).bind fun seen => ?_
  cases seen with
  | false => exact moves_power he hu
  | true =>
    refine moves_take.bind fun t => hu.bind fun operand => ?_
    cases operand with
    | none => exact Moves.pure none
    | some e => exact Moves.pure (some _)

theorem moves_unary : ∀ room, Moves f (movePart f) (Parser.unary room) (Parser.unary room)
  | 0 => moves_tooDeep
  | room + 1 => (moves_signed (moves_addition room (moves_unary room)) (moves_unary room)).deeper

/-- **A parse of moved tokens is the parse of the tokens**, with all places moved. -/
theorem moves_whole : Moves f (movePart f) whole whole := by
  refine moves_arrive.bind fun _ => (moves_addition maxNesting (moves_unary maxNesting)).bind fun root => ?_
  exact (moves_expect ending).bind fun _ => Moves.pure root

end Parser

end Formula
