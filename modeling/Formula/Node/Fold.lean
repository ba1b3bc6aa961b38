import Formula.Node.Basic

/-!
# Folding — nodes computed as they are built

The **folding constructors** build a node and compute it at once when everything below it is constant. A
sign goes into a constant operand, and merges with the sign of a signed operand, so no two signs stack.
An operation on two constants is their value, and so is a call whose arguments are all constant; a call
without arguments counts as one of these. A call that folds hands over all its arguments.

Folding a call calls the native function, so like an evaluation it may have no result.
-/

namespace Formula.Node

/-- **A signed operand**, folded. -/
def signed (s : Sign) : Node → Node
  | number v => number (s.apply v)
  | unary inner n => unary (s.combine inner) n
  | n => unary s n

/-- **An operation**, folded. -/
def operation (op : BinaryOp) (l r : Node) : Node :=
  match l, r with
  | number x, number y => number (op.apply x y)
  | _, _ => binary op l r

/-- The values of some nodes, when all are numbers. -/
def constants? : List Node → Option (List Float)
  | [] => some []
  | n :: ns => do
    let x ← n.constant?
    let xs ← constants? ns
    return x :: xs

/-- **A call**, folded; no result when it folds and the native has no value. -/
def calling (f : Native) (as : List Node) : Option Node :=
  match constants? as with
  | some xs => (f xs).map number
  | none => some (call f as)

end Formula.Node
