import Formula.Operator
import Formula.Parse.Error
import Formula.Symbol.Table

/-!
# Nodes — a formula ready to be evaluated

A **node** is an expression with its names resolved: a variable is the name of a cell to read, and a call
has the native function itself. Evaluating a node needs only the values of the cells (`Node.eval`), and
has no value when some native is given fewer arguments than it reads.

A call evaluates its arguments from the left and hands over `maxArguments` of them at most; those past
them are not evaluated.
-/

namespace Formula

/-- **A resolved formula.** -/
inductive Node
  | number (value : Float)
  /-- The value of a variable, read at each evaluation. -/
  | cell (name : String)
  | unary (sign : Sign) (operand : Node)
  | binary (op : BinaryOp) (left right : Node)
  | call (function : Native) (arguments : List Node)
deriving Inhabited

namespace Node

mutual
/-- **The value of a node**, the cells having the values that `read` gives. -/
def eval (read : String → Float) : Node → Option Float
  | number v => some v
  | cell x => some (read x)
  | unary s n => (n.eval read).map s.apply
  | binary op l r => do
    let x ← l.eval read
    let y ← r.eval read
    return op.apply x y
  | call f as => (evalAll read maxArguments as).bind f
/-- The values of the first `slots` arguments. -/
def evalAll (read : String → Float) : (slots : Nat) → List Node → Option (List Float)
  | 0, _ => some []
  | _ + 1, [] => some []
  | slots + 1, n :: ns => do
    let x ← n.eval read
    let xs ← evalAll read slots ns
    return x :: xs
end

def constant? : Node → Option Float
  | number v => some v
  | _ => none

mutual
def size : Node → Nat
  | number _ => 1
  | cell _ => 1
  | unary _ n => 1 + n.size
  | binary _ l r => 1 + (l.size + r.size)
  | call _ as => 1 + sizeAll as
def sizeAll : List Node → Nat
  | [] => 0
  | n :: ns => n.size + sizeAll ns
end

end Node

end Formula
