import Formula.Compile

/-!
# Preorder — the nodes of a tree, each before the nodes below it

What holds throughout a tree is said of the members of a list of its nodes, and what comes first or comes in order
is said of the list. The list has each node before those below it, and those below it from left to right: for an
expression (`Expr.preOrder`), and for the node that it compiles to (`Node.preOrder`).

The leaves of a tree stand in that list as they are read from left to right. So do the cells that a node reads
(`Node.cells`).
-/

namespace Formula

/-! ## Expressions -/

mutual
/-- **The nodes of an expression**, each before the nodes below it. -/
def Expr.preOrder : Expr → List Expr
  | .number value span => [.number value span]
  | .identifier name span => [.identifier name span]
  | .unary sign operand span => .unary sign operand span :: operand.preOrder
  | .binary op left right span => .binary op left right span :: (left.preOrder ++ right.preOrder)
  | .call name arguments span => .call name arguments span :: preOrderAll arguments
/-- The nodes of some expressions, one expression after the other. -/
def preOrderAll : List Expr → List Expr
  | [] => []
  | e :: es => e.preOrder ++ preOrderAll es
end

theorem preOrderAll_eq_flatMap (es : List Expr) : preOrderAll es = es.flatMap Expr.preOrder := by
  induction es with
  | nil => rfl
  | cons e es ih => rw [preOrderAll, ih, List.flatMap_cons]

/-! ## Nodes -/

namespace Node

mutual
/-- **The nodes of a node**, itself among them, each before the nodes below it. -/
def preOrder : Node → List Node
  | number v => [number v]
  | cell x => [cell x]
  | unary s n => unary s n :: n.preOrder
  | binary op l r => binary op l r :: (l.preOrder ++ r.preOrder)
  | call f as => call f as :: preOrderAll as
/-- The nodes of some nodes, one after the other. -/
def preOrderAll : List Node → List Node
  | [] => []
  | n :: ns => n.preOrder ++ preOrderAll ns
end

theorem preOrderAll_eq_flatMap (ns : List Node) : preOrderAll ns = ns.flatMap preOrder := by
  induction ns with
  | nil => rfl
  | cons n ns ih => rw [preOrderAll, ih, List.flatMap_cons]

theorem mem_preOrder_self (n : Node) : n ∈ n.preOrder := by
  cases n <;> exact List.mem_cons_self

mutual
/-- The nodes below a node of a node are nodes of it. -/
theorem preOrder_subset : ∀ {n m : Node}, m ∈ n.preOrder → m.preOrder ⊆ n.preOrder
  | number _, m, h => by
    rw [List.mem_singleton.mp h]
    exact List.Subset.refl _
  | cell _, m, h => by
    rw [List.mem_singleton.mp h]
    exact List.Subset.refl _
  | unary s n, m, h => by
    rcases List.mem_cons.mp h with rfl | h
    · exact List.Subset.refl _
    · exact List.Subset.trans (preOrder_subset h) (List.subset_cons_self ..)
  | binary op l r, m, h => by
    rcases List.mem_cons.mp h with rfl | h
    · exact List.Subset.refl _
    · refine List.Subset.trans ?_ (List.subset_cons_self ..)
      rcases List.mem_append.mp h with h | h
      · exact List.Subset.trans (preOrder_subset h) (List.subset_append_left ..)
      · exact List.Subset.trans (preOrder_subset h) (List.subset_append_right ..)
  | call f as, m, h => by
    rcases List.mem_cons.mp h with rfl | h
    · exact List.Subset.refl _
    · exact List.Subset.trans (preOrder_subset_preOrderAll h) (List.subset_cons_self ..)
theorem preOrder_subset_preOrderAll : ∀ {ns : List Node} {m : Node}, m ∈ preOrderAll ns →
    m.preOrder ⊆ preOrderAll ns
  | [], _, h => nomatch h
  | n :: ns, m, h => by
    rcases List.mem_append.mp h with h | h
    · exact List.Subset.trans (preOrder_subset h) (List.subset_append_left ..)
    · exact List.Subset.trans (preOrder_subset_preOrderAll h) (List.subset_append_right ..)
end

/-- The cell that a node reads by itself. -/
def cell? : Node → Option String
  | cell x => some x
  | _ => none

/-- **The cells that a node reads**, from left to right. -/
def cells (n : Node) : List String := n.preOrder.filterMap cell?

variable {op : BinaryOp} {s : Sign} {f : Native}

@[simp] theorem cells_number (v : Float) : (number v).cells = [] := rfl

@[simp] theorem cells_cell (x : String) : (cell x).cells = [x] := rfl

@[simp] theorem cells_unary (n : Node) : (unary s n).cells = n.cells := rfl

@[simp] theorem cells_binary (l r : Node) : (binary op l r).cells = l.cells ++ r.cells :=
  List.filterMap_append

@[simp] theorem cells_call (as : List Node) : (call f as).cells = as.flatMap cells := by
  change (preOrderAll as).filterMap cell? = _
  rw [preOrderAll_eq_flatMap, List.filterMap_flatMap]
  rfl

end Node

end Formula
