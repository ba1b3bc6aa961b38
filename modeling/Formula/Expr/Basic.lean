import Formula.Operator
import Formula.Span

/-!
# Expressions — the tree of a source

An **expression** is a number, a name, a signed operand, an operation on two operands, or a call of a
named function. Parentheses leave no trace. Each node has the span of the token that makes it what it
is: the literal, the name, the sign, the operator, or the name of the function called.
-/

namespace Formula

/-- **An arithmetic expression.** -/
inductive Expr
  | number (value : Float) (span : Span)
  | identifier (name : String) (span : Span)
  | unary (sign : Sign) (operand : Expr) (span : Span)
  | binary (op : BinaryOp) (left right : Expr) (span : Span)
  | call (name : String) (arguments : List Expr) (span : Span)
deriving Inhabited

namespace Expr

/-- The span of the token that makes the node what it is. -/
def span : Expr → Span
  | number _ s => s
  | identifier _ s => s
  | unary _ _ s => s
  | binary _ _ _ s => s
  | call _ _ s => s

def kindName : Expr → String
  | number .. => "number"
  | identifier .. => "identifier"
  | unary .. => "unary"
  | binary .. => "binary"
  | call .. => "call"

end Expr

/-- **An expression with the source that it was read from.** -/
structure Ast where
  source : String
  root : Expr
deriving Inhabited

end Formula
