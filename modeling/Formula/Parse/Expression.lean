import Formula.Decimal.Read
import Formula.Expr.Basic
import Formula.Parse.Parser

/-!
# Parsing expressions — the grammar and its limits

The grammar, from the loosest to the tightest:

    expression     := addition
    addition       := multiplication (("+" | "-") multiplication)*
    multiplication := unary (("*" | "/" | "%") unary)*
    unary          := ("-" | "+") unary | power
    power          := call ("^" unary)?
    call           := name "(" (expression ("," expression)*)? ")" | basic
    basic          := number | name | "(" expression ")"

Additions and multiplications associate to the left, powers to the right, and a sign binds looser than
the power after it.

**The limits.** Every `unary` is one level deeper than what it stands in, and no level lies deeper than
`maxNesting`; each further operator of one chain needs a level more. `room` counts the levels that are
still free, and it is what the recursion runs on: a `unary` without room is a fault, and one with room
parses its insides with one level less. A call keeps `maxArguments` arguments; those past them are read
and dropped.

**Faults.** A parser that finds a fault goes on, so that one parse shows all of them. A part that is
missing has no value, and what needs it has none; by then a fault has been noted.
-/

namespace Formula

/-! ## The kinds that decide -/

def additive : TokenSet := FlagSet.ofList [.plus, .minus]

def multiplicative : TokenSet := FlagSet.ofList [.star, .slash, .percent]

def powerMark : TokenSet := FlagSet.ofList [.caret]

def signs : TokenSet := FlagSet.ofList [.minus, .plus]

def nameStart : TokenSet := FlagSet.ofList [.identifier]

def opening : TokenSet := FlagSet.ofList [.openParen]

def closing : TokenSet := FlagSet.ofList [.closeParen]

def separator : TokenSet := FlagSet.ofList [.comma]

def ending : TokenSet := FlagSet.single .endOfInput

namespace Parser

/-- What stands for a part of an expression: the expression, or nothing when it is missing. -/
abbrev Part := Option Expr

/-! ## Chains -/

/-- Two operands joined by the operator that a token writes, when both are there. -/
def joined (left : Part) (operator : Token) (right : Part) : Part := do
  let l ← left
  let op ← BinaryOp.ofKind? operator.kind
  let r ← right
  return .binary op l r operator.span

/-- **The rest of a chain**: operators of one tier and their right operands, joined to the left. At most
`room` operators fit. -/
def chain (operators : TokenSet) (operand : Parser Part) : (room : Nat) → (left : Part) → Parser Part
  | 0, left => do
    if ← sees operators then tooDeep else return left
  | room + 1, left => do
    if ← sees operators then
      let operator ← take
      let right ← operand
      chain operators operand room (joined left operator right)
    else return left

/-- A multiplication with some room, over a way to parse its operands. -/
def multiplication (room : Nat) (unary : Parser Part) : Parser Part := do
  let first ← unary
  chain multiplicative unary room first

/-- An addition with some room, over a way to parse the operands of its multiplications. -/
def addition (room : Nat) (unary : Parser Part) : Parser Part := do
  let first ← multiplication room unary
  chain additive (multiplication room unary) room first

/-! ## Operands -/

/-- The expressions of a list, when all are there. -/
def allOf : List Part → Option (List Expr)
  | [] => some []
  | none :: _ => none
  | some e :: es => (allOf es).map (e :: ·)

/-- **The further arguments of a call**, each after a comma. The first `slots` of them are kept; the
first one past them is a fault at its comma, noted once it has been read. Each turn takes a comma, so the
words left at the start, `turns`, are enough turns. -/
def moreArguments (expression : Parser Part) : (turns slots : Nat) → (noted : Bool) → Parser (List Part)
  | 0, _, _ => return []
  | turns + 1, slots, noted => do
    if ← sees separator then
      let comma ← take
      let argument ← expression
      match slots with
      | slots + 1 =>
        let more ← moreArguments expression turns slots noted
        return argument :: more
      | 0 =>
        unless noted do fault .tooManyArguments comma.offset
        moreArguments expression turns 0 true
    else return []

/-- The arguments of a call, from the parenthesis that opens them to the one that closes them. -/
def arguments (expression : Parser Part) : Parser (Option (List Expr)) := do
  let _ ← take
  if ← sees closing then
    let _ ← take
    return some []
  else
    let first ← expression
    let turns ← wordsLeft
    let more ← moreArguments expression turns (maxArguments - 1) false
    match ← expect closing with
    | some _ => return allOf (first :: more)
    | none => return none

/-- The double that a literal denotes. -/
def literalValue (lexeme : String) : Float :=
  match Decimal.readFloat lexeme.toList with
  | .ok x => x
  | .error _ => Binary64.nan

/-- A number, a name or a group; anything else is a fault. Where `call` comes first, it takes the names. -/
def basic (expression : Parser Part) : Parser Part := do
  let t ← peek
  match t.kind with
  | .openParen =>
    let _ ← take
    let e ← expression
    match ← expect closing with
    | some _ => return e
    | none => return none
  | .number =>
    let _ ← take
    return some (.number (literalValue t.lexeme) t.span)
  | .identifier =>
    let _ ← take
    return some (.identifier t.lexeme t.span)
  | found =>
    fault (.noOperand found) t.offset
    return none

/-- **A call, a name, or what is neither.** A name with an opening parenthesis after it is a call,
whether or not there is such a function. -/
def call (expression : Parser Part) : Parser Part := do
  if ← sees nameStart then
    let callee ← take
    if ← sees opening then
      let args ← arguments expression
      return args.map fun as => .call callee.lexeme as callee.span
    else return some (.identifier callee.lexeme callee.span)
  else basic expression

/-- **A power**: the exponent is a `unary`, so powers associate to the right. -/
def power (expression unary : Parser Part) : Parser Part := do
  let base ← call expression
  if ← sees powerMark then
    let operator ← take
    let exponent ← unary
    return joined base operator exponent
  else return base

def signed (expression unary : Parser Part) : Parser Part := do
  if ← sees signs then
    let t ← take
    let sign := (Sign.ofKind? t.kind).getD .plus
    let operand ← unary
    return operand.map fun e => .unary sign e t.span
  else power expression unary

/-- **A `unary` with some room**: one level deeper, and no further than there is room. -/
def unary : (room : Nat) → Parser Part
  | 0 => tooDeep
  | room + 1 => deeper (signed (addition room (unary room)) (unary room))

def expression (room : Nat) : Parser Part := addition room (unary room)

/-- **A whole source**: one expression, and then the end. -/
def whole : Parser Part := do
  arrive
  let root ← expression maxNesting
  let _ ← expect ending
  return root

end Parser

end Formula
