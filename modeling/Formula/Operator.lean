import Formula.Binary64.Basic
import Formula.Token.Kind

/-!
# Operators — the signs and the six binary operators

What an expression does to its operands' values: two prefix signs and six binary operators on doubles.
Addition, subtraction, multiplication and division are the machine's; `%` is the exact remainder of the
division cut toward zero, and `^` the library power. None of them fails: what has no value is not a
number.

Two stacked signs are one sign (`Sign.combine`), so a chain of signs never needs more than one.
-/

namespace Formula

/-- **A prefix sign.** -/
inductive Sign
  | minus | plus
deriving DecidableEq, Repr, Inhabited

namespace Sign

/-- The one sign that does what `outer` does to what `inner` gives. -/
def combine : (outer inner : Sign) → Sign
  | minus, minus => plus
  | plus, plus => plus
  | minus, plus => minus
  | plus, minus => minus

def apply : Sign → Float → Float
  | minus, x => -x
  | plus, x => x

def symbol : Sign → String
  | minus => "-"
  | plus => "+"

/-- The sign that a kind of token writes. -/
def ofKind? : TokenKind → Option Sign
  | .minus => some minus
  | .plus => some plus
  | _ => none

end Sign

/-- **A binary operator.** -/
inductive BinaryOp
  | add | sub | mul | div | rem | pow
deriving DecidableEq, Repr, Inhabited

namespace BinaryOp

def apply : BinaryOp → Float → Float → Float
  | add, x, y => x + y
  | sub, x, y => x - y
  | mul, x, y => x * y
  | div, x, y => x / y
  | rem, x, y => Binary64.remainder x y
  | pow, x, y => Float.pow x y

def symbol : BinaryOp → String
  | add => "+"
  | sub => "-"
  | mul => "*"
  | div => "/"
  | rem => "%"
  | pow => "^"

/-- The operator that a kind of token writes. -/
def ofKind? : TokenKind → Option BinaryOp
  | .plus => some add
  | .minus => some sub
  | .star => some mul
  | .slash => some div
  | .percent => some rem
  | .caret => some pow
  | _ => none

end BinaryOp

end Formula
