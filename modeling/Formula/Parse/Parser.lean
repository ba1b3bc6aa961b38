import Formula.Parse.Error
import Formula.Token.Basic

/-!
# Parsers — functions on tokens that say what they did

A **parser** reads from the front of some tokens and answers with a value, the tokens left, and a
**trace**: what it did, in order. The trace records every token taken, every level of nesting entered and
left, every fault, and the moment when the place where no token begins comes to the front. Messages and
errors are read off the trace, and so is what a parse consumed: no parser keeps them anywhere else.

Traces of parsers in sequence are joined in sequence, which `bind_run` says in one equation.
-/

namespace Formula

/-- **What a parser did.** -/
inductive Event
  | took (t : Token)
  /-- The place where no token begins came to the front; the source from there on. -/
  | unreadable (unread : String)
  | opened
  | closed
  | fault (f : Fault)
deriving DecidableEq, Repr

/-- What came out of a parser. -/
structure Outcome (α : Type) where
  value : α
  rest : Tokens
  trace : List Event

/-- **A parser**: a function on tokens. -/
structure Parser (α : Type) where
  run : Tokens → Outcome α

namespace Parser

variable {α β : Type}

/-- The parser that does nothing and has a value. -/
protected def pure (a : α) : Parser α := ⟨fun ts => ⟨a, ts, []⟩⟩

/-- One parser, then another that may use the first one's value. -/
protected def bind (p : Parser α) (f : α → Parser β) : Parser β :=
  ⟨fun ts =>
    let a := p.run ts
    let b := (f a.value).run a.rest
    ⟨b.value, b.rest, a.trace ++ b.trace⟩⟩

instance : Monad Parser where
  pure := Parser.pure
  bind := Parser.bind

@[simp] theorem pure_run (a : α) (ts : Tokens) : (pure a : Parser α).run ts = ⟨a, ts, []⟩ := rfl

/-- **In sequence, the second parser goes on where the first one stopped, and the traces are joined.** -/
@[simp] theorem bind_run (p : Parser α) (f : α → Parser β) (ts : Tokens) :
    (p >>= f).run ts =
      ⟨((f (p.run ts).value).run (p.run ts).rest).value, ((f (p.run ts).value).run (p.run ts).rest).rest,
        (p.run ts).trace ++ ((f (p.run ts).value).run (p.run ts).rest).trace⟩ := rfl

/-! ## The front of the tokens -/

/-- The event that some tokens coming to the front make: one, when they begin with the place where no
token begins. -/
def arrival (ts : Tokens) : List Event :=
  match ts.words, ts.stop with
  | [], .invalid _ unread => [.unreadable unread]
  | _, _ => []

/-- Notices what stands at the front, before anything is taken. -/
def arrive : Parser Unit := ⟨fun ts => ⟨(), ts, arrival ts⟩⟩

def peek : Parser Token := ⟨fun ts => ⟨ts.head, ts, []⟩⟩

/-- Whether the token at the front is of one of some kinds. -/
def sees (kinds : TokenSet) : Parser Bool := ⟨fun ts => ⟨kinds.contains ts.head.kind, ts, []⟩⟩

/-- **Takes the token at the front.** The stop's token stays where it is, and what comes to the front
behind it is no news. -/
def take : Parser Token :=
  ⟨fun ts => ⟨ts.head, ts.tail, .took ts.head :: if ts.words.isEmpty then [] else arrival ts.tail⟩⟩

def wordsLeft : Parser Nat := ⟨fun ts => ⟨ts.words.length, ts, []⟩⟩

/-! ## Faults and nesting -/

def fault (cause : FaultCause) (offset : Nat) : Parser Unit := ⟨fun ts => ⟨(), ts, [.fault ⟨cause, offset⟩]⟩⟩

def deeper (p : Parser α) : Parser α :=
  ⟨fun ts => let a := p.run ts; ⟨a.value, a.rest, .opened :: (a.trace ++ [.closed])⟩⟩

/-- **Takes the token at the front if it is of one of some kinds**; otherwise notes a fault and leaves it. -/
def expect (wanted : TokenSet) : Parser (Option Token) := do
  if ← sees wanted then
    let t ← take
    return some t
  else
    let found ← peek
    fault (.expected wanted found.kind) found.offset
    return none

/-- Notes, at the token at the front, that a parse may go no deeper; there is no value. -/
def tooDeep : Parser (Option α) := do
  let found ← peek
  fault .tooDeep found.offset
  return none

end Parser

/-! ## Reading a trace -/

def faultsOf (trace : List Event) : List Fault :=
  trace.filterMap fun
    | .fault f => some f
    | _ => none

def takenOf (trace : List Event) : List Token :=
  trace.filterMap fun
    | .took t => some t
    | _ => none

end Formula
