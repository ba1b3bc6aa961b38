import Formula.Node.Fold
import Formula.Proofs.Binary64.Negation

/-!
# Folding — folded nodes have the values of the nodes they stand for

Each folding constructor has one law: what it builds has, whatever the cells hold, the value that the
plain constructor's node would have (`eval_signed`, `eval_operation`, `eval_calling`). For a call that is
the value of the native at all its arguments, as long as there are no more than an evaluation hands over.
-/

namespace Formula.Node

variable {read : String → Float} {n : Node} {x : Float}

/-! ## Arguments -/

/-- **An evaluation hands over all arguments** when there are slots for them. -/
theorem evalAll_eq_mapM (read : String → Float) : ∀ {slots : Nat} {ns : List Node}, ns.length ≤ slots →
    evalAll read slots ns = ns.mapM (eval read)
  | 0, [], _ => by rw [evalAll, List.mapM_nil, Option.pure_def]
  | 0, _ :: _, h => (Nat.not_succ_le_zero _ h).elim
  | _ + 1, [], _ => by rw [evalAll, List.mapM_nil, Option.pure_def]
  | slots + 1, n :: ns, h => by
    rw [evalAll, List.mapM_cons, evalAll_eq_mapM read (Nat.le_of_succ_le_succ h)]

theorem eval_of_constant? (h : n.constant? = some x) : n.eval read = some x := by
  cases n with
  | number v =>
    obtain rfl : v = x := Option.some.inj h
    rw [eval]
  | cell | unary | binary | call => cases h

theorem mapM_of_constants? : ∀ {ns : List Node} {xs : List Float}, constants? ns = some xs →
    ns.mapM (eval read) = some xs
  | [], xs, h => by
    obtain rfl : [] = xs := Option.some.inj h
    rw [List.mapM_nil, Option.pure_def]
  | n :: ns, xs, h => by
    obtain ⟨y, hn, h⟩ := Option.bind_eq_some_iff.mp h
    obtain ⟨ys, hns, h⟩ := Option.bind_eq_some_iff.mp h
    obtain rfl : y :: ys = xs := Option.some.inj h
    rw [List.mapM_cons, eval_of_constant? hn, mapM_of_constants? hns]
    rfl

/-! ## The folding constructors -/

/-- **A signed operand has the value of the sign on the operand's value.** -/
theorem eval_signed (s : Sign) (n : Node) : (signed s n).eval read = (n.eval read).map s.apply := by
  have plain (n : Node) : (unary s n).eval read = (n.eval read).map s.apply := by rw [eval]
  cases n with
  | number v => rw [signed, eval, eval, Option.map_some]
  | unary inner n =>
    -- the signs merge, and the merged sign does what both do
    rw [signed, eval, eval, Option.map_map]
    exact congrArg (Option.map · (n.eval read)) (funext (s.apply_combine inner))
  | cell | binary | call => exact plain _

/-- **An operation has the value of the operator on the operands' values.** -/
theorem eval_operation (op : BinaryOp) (l r : Node) :
    (operation op l r).eval read = do
      let x ← l.eval read
      let y ← r.eval read
      return op.apply x y := by
  unfold operation
  split
  · rw [eval, eval, eval]
    rfl
  · rw [eval]

/-- **A call has the value of the native at the arguments' values.** -/
theorem eval_calling {f : Native} {as : List Node} (h : calling f as = some n) (fits : as.length ≤ maxArguments) :
    n.eval read = (as.mapM (eval read)).bind f := by
  unfold calling at h
  cases hc : constants? as with
  | some xs =>
    rw [hc] at h
    obtain ⟨v, hv, rfl⟩ := Option.map_eq_some_iff.mp h
    rw [eval, mapM_of_constants? hc, Option.bind_some, hv]
  | none =>
    rw [hc] at h
    obtain rfl := Option.some.inj h
    rw [eval, evalAll_eq_mapM read fits]

/-- A call fails to be folded when its arguments are constant and its native has no value at them. -/
theorem calling_eq_none {f : Native} {as : List Node} (h : calling f as = none) :
    ∃ xs, constants? as = some xs ∧ f xs = none := by
  unfold calling at h
  split at h
  next xs constant => exact ⟨xs, constant, Option.map_eq_none_iff.mp h⟩
  next => cases h

end Formula.Node
