import Formula.Parse.Expression

/-!
# Derivations — the grammar as data

The grammar of expressions says which token sequences are expressions and how each one is built. Here
it is an indexed family: a term of `Derivation n` is one way to derive a token sequence from the
nonterminal `n`, with the tokens themselves at its leaves. `tokens` reads the sequence back, `tree` is
the expression that the derivation makes.

The nonterminals are those of the grammar, written for both tiers of chains at once: an addition is a
chain of multiplications, a multiplication a chain of unaries (`Nonterminal.operand`). The two
repetitions of the grammar, the further links of a chain and the further arguments of a call, are
nonterminals too. What a chain's links mean is a function of the expression to their left, so chains
associate to the left by the definition of `tree`, and powers to the right by the shape of the family.

**The limits** (`Within`) count depth from the outside. A derivation says nothing of them by itself: one
that nests too deep or has too many arguments derives its tokens all the same.

**What it does not say.** Where a token stands in a source and how it is spelled is free, so a
derivation is of tokens, and not of a text.
-/

namespace Formula

def BinaryOp.kind : BinaryOp → TokenKind
  | add => .plus
  | sub => .minus
  | mul => .star
  | div => .slash
  | rem => .percent
  | pow => .caret

def Sign.kind : Sign → TokenKind
  | minus => .minus
  | plus => .plus

inductive Tier
  | addition | multiplication
deriving DecidableEq, Repr

/-- The tier whose chains an operator links; a power is no chain. -/
def BinaryOp.tier? : BinaryOp → Option Tier
  | add | sub => some .addition
  | mul | div | rem => some .multiplication
  | pow => none

/-- **A token of a kind.** -/
structure Terminal (kind : TokenKind) where
  token : Token
  kind_eq : token.kind = kind

/-- **What is derived.** -/
inductive Nonterminal
  | expression
  /-- A chain of operands: an addition or a multiplication. -/
  | chain (tier : Tier)
  | operand (tier : Tier)
  /-- The further operands of a chain, each with its operator. -/
  | links (tier : Tier)
  | unary | power | call
  /-- The further arguments of a call, each after a comma. -/
  | further
  | basic
deriving DecidableEq, Repr

/-- **What a derivation from a nonterminal means**: an expression; for the links of a chain, what they
make of the expression to their left; for further arguments, their list. -/
abbrev Nonterminal.Meaning : Nonterminal → Type
  | .links _ => Expr → Expr
  | .further => List Expr
  | _ => Expr

/-- **A derivation in the grammar of expressions.** -/
inductive Derivation : Nonterminal → Type
  /-- `expression := addition` -/
  | expression (sum : Derivation (.chain .addition)) : Derivation .expression
  /-- `addition := multiplication (("+" | "-") multiplication)*`, and the same a tier below. -/
  | chain {tier : Tier} (first : Derivation (.operand tier)) (more : Derivation (.links tier)) :
      Derivation (.chain tier)
  | product (d : Derivation (.chain .multiplication)) : Derivation (.operand .addition)
  | factor (d : Derivation .unary) : Derivation (.operand .multiplication)
  | noLink {tier : Tier} : Derivation (.links tier)
  | link {tier : Tier} (op : BinaryOp) (level : op.tier? = some tier) (operator : Terminal op.kind)
      (right : Derivation (.operand tier)) (more : Derivation (.links tier)) : Derivation (.links tier)
  /-- `unary := ("-" | "+") unary` -/
  | signed (sign : Sign) (mark : Terminal sign.kind) (operand : Derivation .unary) : Derivation .unary
  /-- `unary := power` -/
  | unsigned (d : Derivation .power) : Derivation .unary
  /-- `power := call` -/
  | plainPower (d : Derivation .call) : Derivation .power
  /-- `power := call "^" unary` -/
  | raised (base : Derivation .call) (caret : Terminal .caret) (exponent : Derivation .unary) :
      Derivation .power
  /-- `call := name "(" ")"` -/
  | emptyCall (callee : Terminal .identifier) (opening : Terminal .openParen)
      (closing : Terminal .closeParen) : Derivation .call
  /-- `call := name "(" expression ("," expression)* ")"` -/
  | fullCall (callee : Terminal .identifier) (opening : Terminal .openParen)
      (first : Derivation .expression) (more : Derivation .further) (closing : Terminal .closeParen) :
      Derivation .call
  /-- `call := basic` -/
  | plainCall (d : Derivation .basic) : Derivation .call
  | noArgument : Derivation .further
  | argument (comma : Terminal .comma) (d : Derivation .expression) (more : Derivation .further) :
      Derivation .further
  /-- `basic := number` -/
  | number (literal : Terminal .number) : Derivation .basic
  /-- `basic := name` -/
  | name (word : Terminal .identifier) : Derivation .basic
  /-- `basic := "(" expression ")"` -/
  | group (opening : Terminal .openParen) (d : Derivation .expression) (closing : Terminal .closeParen) :
      Derivation .basic

namespace Derivation

/-- **The tokens that a derivation derives**, in order. -/
def tokens : {n : Nonterminal} → Derivation n → List Token
  | _, expression d => d.tokens
  | _, chain first more => first.tokens ++ more.tokens
  | _, product d => d.tokens
  | _, factor d => d.tokens
  | _, noLink => []
  | _, link _ _ operator right more => operator.token :: (right.tokens ++ more.tokens)
  | _, signed _ mark operand => mark.token :: operand.tokens
  | _, unsigned d => d.tokens
  | _, plainPower d => d.tokens
  | _, raised base caret exponent => base.tokens ++ caret.token :: exponent.tokens
  | _, emptyCall callee opening closing => [callee.token, opening.token, closing.token]
  | _, fullCall callee opening first more closing =>
    callee.token :: opening.token :: (first.tokens ++ (more.tokens ++ [closing.token]))
  | _, plainCall d => d.tokens
  | _, noArgument => []
  | _, argument comma d more => comma.token :: (d.tokens ++ more.tokens)
  | _, number literal => [literal.token]
  | _, name word => [word.token]
  | _, group opening d closing => opening.token :: (d.tokens ++ [closing.token])

/-- **The expression that a derivation makes.** Groups leave no trace; each node has the span of the
token that makes it what it is. -/
def tree : {n : Nonterminal} → Derivation n → n.Meaning
  | _, expression d => d.tree
  | _, chain first more => more.tree first.tree
  | _, product d => d.tree
  | _, factor d => d.tree
  | _, noLink => fun left => left
  | _, link op _ operator right more => fun left =>
    more.tree (.binary op left right.tree operator.token.span)
  | _, signed sign mark operand => .unary sign operand.tree mark.token.span
  | _, unsigned d => d.tree
  | _, plainPower d => d.tree
  | _, raised base caret exponent => .binary .pow base.tree exponent.tree caret.token.span
  | _, emptyCall callee _ _ => .call callee.token.lexeme [] callee.token.span
  | _, fullCall callee _ first more _ =>
    .call callee.token.lexeme (first.tree :: more.tree) callee.token.span
  | _, plainCall d => d.tree
  | _, noArgument => []
  | _, argument _ d more => d.tree :: more.tree
  | _, number literal => .number (Parser.literalValue literal.token.lexeme) literal.token.span
  | _, name word => .identifier word.token.lexeme word.token.span
  | _, group _ d _ => d.tree

/-- How many times a repetition repeats: the links of a chain, the further arguments of a call. -/
def length : {n : Nonterminal} → Derivation n → Nat
  | _, link _ _ _ _ more => more.length + 1
  | _, argument _ _ more => more.length + 1
  | _, _ => 0

/-- **A derivation reached at a depth keeps the limits.** A unary lives one level deeper than it is
reached, and so does all inside it. A chain needs a level for each of its operators, and the levels of
two chains are not added up. A call has its first argument and the further ones. -/
def Within : {n : Nonterminal} → Derivation n → (depth : Nat) → Prop
  | _, expression d, depth => d.Within depth
  | _, chain first more, depth => depth + more.length ≤ maxNesting ∧ first.Within depth ∧ more.Within depth
  | _, product d, depth => d.Within depth
  | _, factor d, depth => d.Within depth
  | _, noLink, _ => True
  | _, link _ _ _ right more, depth => right.Within depth ∧ more.Within depth
  | _, signed _ _ operand, depth => depth + 1 ≤ maxNesting ∧ operand.Within (depth + 1)
  | _, unsigned d, depth => depth + 1 ≤ maxNesting ∧ d.Within (depth + 1)
  | _, plainPower d, depth => d.Within depth
  | _, raised base _ exponent, depth => base.Within depth ∧ exponent.Within depth
  | _, emptyCall .., _ => True
  | _, fullCall _ _ first more _, depth =>
    more.length + 1 ≤ maxArguments ∧ first.Within depth ∧ more.Within depth
  | _, plainCall d, depth => d.Within depth
  | _, noArgument, _ => True
  | _, argument _ d more, depth => d.Within depth ∧ more.Within depth
  | _, number _, _ => True
  | _, name _, _ => True
  | _, group _ d _, depth => d.Within depth

end Derivation

/-- **A sentence of the grammar**: the tokens of some expression, whatever the limits. -/
def IsSentence (ts : List Token) : Prop := ∃ d : Derivation .expression, d.tokens = ts

/-- **What a sentence may begin with.** -/
def IsSentenceStart (ts : List Token) : Prop := ∃ rest, IsSentence (ts ++ rest)

end Formula
