import Formula.Proofs.Compile.PreOrder
import Formula.Proofs.Compile.Run

/-!
# Normal form — what is compiled has nothing left to fold

A node is **foldable** when its operands are known already: a sign on a number or on another sign, an operation on
two numbers, a call of which every argument is a number, one without arguments among them. No folding constructor
builds one from operands that have none, not even by merging signs, and each keeps the cells that its operands read,
in order, and adds one node at most (`Folds`). So all of a compiled expression is in that **normal form**, and reads
the mutable variables of the expression, each where it was named (`inNormalForm_compile`).

A node in normal form that reads no cell is a number: what is constant about an expression is exactly that it names
no mutable variable.
-/

namespace Formula

namespace Node

/-- **A node that can be computed at once**, or whose sign can be merged. -/
inductive Foldable : Node → Prop
  | signedNumber {s : Sign} {v : Float} : Foldable (unary s (number v))
  | signedTwice {s inner : Sign} {n : Node} : Foldable (unary s (unary inner n))
  | numbers {op : BinaryOp} {x y : Float} : Foldable (binary op (number x) (number y))
  | constantCall {f : Native} {as : List Node} (all : ∀ a ∈ as, ∃ v, a = number v) : Foldable (call f as)

/-- **Nothing in a node can be folded.** -/
def IsFolded (n : Node) : Prop := ∀ m ∈ n.preOrder, ¬ m.Foldable

variable {n l r : Node} {s : Sign} {op : BinaryOp} {f : Native} {as : List Node}

theorem isFolded_number (v : Float) : (number v).IsFolded :=
  List.forall_mem_singleton.mpr nofun

theorem isFolded_cell (x : String) : (cell x).IsFolded :=
  List.forall_mem_singleton.mpr nofun

theorem isFolded_unary : (unary s n).IsFolded ↔ ¬ (unary s n).Foldable ∧ n.IsFolded :=
  List.forall_mem_cons

theorem isFolded_binary : (binary op l r).IsFolded ↔ ¬ (binary op l r).Foldable ∧ l.IsFolded ∧ r.IsFolded := by
  rw [IsFolded, preOrder, List.forall_mem_cons, List.forall_mem_append]
  rfl

theorem isFolded_call : (call f as).IsFolded ↔ ¬ (call f as).Foldable ∧ ∀ a ∈ as, a.IsFolded := by
  rw [IsFolded, preOrder, List.forall_mem_cons, preOrderAll_eq_flatMap]
  simp only [List.mem_flatMap, forall_exists_index, and_imp, IsFolded]
  exact and_congr_right fun _ => ⟨fun h a ha m hm => h m a ha hm, fun h m a ha hm => h a ha m hm⟩

/-! ## Constant nodes -/

/-- The arguments of a call are constant when each of them is a number. -/
theorem constants?_isSome_iff : (constants? as).isSome = true ↔ ∀ a ∈ as, ∃ v, a = number v := by
  induction as with
  | nil => exact iff_of_true rfl nofun
  | cons a as ih =>
    rw [List.forall_mem_cons, ← ih, constants?]
    cases a with
    | number v =>
      cases constants? as with
      | none => exact iff_of_false nofun fun h => nomatch h.2
      | some xs => exact iff_of_true rfl ⟨⟨v, rfl⟩, rfl⟩
    | cell | unary | binary | call => exact iff_of_false nofun fun h => nomatch h.1

/-- Constant arguments read no cell. -/
theorem cells_of_constants? {xs : List Float} (h : constants? as = some xs) : as.flatMap cells = [] := by
  have numbers := constants?_isSome_iff.mp (Option.isSome_iff_exists.mpr ⟨xs, h⟩)
  rw [List.flatMap_eq_nil_iff]
  intro a ha
  obtain ⟨v, rfl⟩ := numbers a ha
  rfl

mutual
/-- **A node in normal form that reads no cell is a number.** -/
theorem exists_number : ∀ {n : Node}, n.IsFolded → n.cells = [] → ∃ v, n = number v
  | number v, _, _ => ⟨v, rfl⟩
  | cell x, _, unread => nomatch unread
  | unary s n, folded, unread => by
    obtain ⟨foldable, operand⟩ := isFolded_unary.mp folded
    obtain ⟨v, rfl⟩ := exists_number operand unread
    exact (foldable .signedNumber).elim
  | binary op l r, folded, unread => by
    obtain ⟨foldable, left, right⟩ := isFolded_binary.mp folded
    rw [cells_binary, List.append_eq_nil_iff] at unread
    obtain ⟨x, rfl⟩ := exists_number left unread.1
    obtain ⟨y, rfl⟩ := exists_number right unread.2
    exact (foldable .numbers).elim
  | call f as, folded, unread => by
    obtain ⟨foldable, arguments⟩ := isFolded_call.mp folded
    rw [cells_call] at unread
    exact (foldable (.constantCall (exists_numbers arguments unread))).elim
theorem exists_numbers : ∀ {as : List Node}, (∀ a ∈ as, a.IsFolded) → as.flatMap cells = [] →
    ∀ a ∈ as, ∃ v, a = number v
  | [], _, _ => nofun
  | a :: as, folded, unread => by
    obtain ⟨here, more⟩ := List.forall_mem_cons.mp folded
    rw [List.flatMap_cons, List.append_eq_nil_iff] at unread
    exact List.forall_mem_cons.mpr ⟨exists_number here unread.1, exists_numbers more unread.2⟩
end

/-- **A node in normal form is constant exactly when it reads no cell.** -/
theorem IsFolded.constant?_isSome_iff (h : n.IsFolded) : n.constant?.isSome = true ↔ n.cells = [] := by
  constructor
  · intro constant
    cases n with
    | number v => rfl
    | cell | unary | binary | call => cases constant
  · intro unread
    obtain ⟨v, rfl⟩ := exists_number h unread
    rfl

/-! ## The folding constructors -/

/-- **A node is in normal form**, reads some cells, and has no more than some number of nodes. -/
structure Folds (n : Node) (reads : List String) (most : Nat) : Prop where
  isFolded : n.IsFolded
  cells_eq : n.cells = reads
  size_le : n.size ≤ most

/-- **Some nodes are in normal form**, read some cells, and have no more than some number of nodes. -/
structure FoldsAll (ns : List Node) (reads : List String) (most : Nat) : Prop where
  isFolded : ∀ n ∈ ns, n.IsFolded
  cells_eq : ns.flatMap cells = reads
  size_le : sizeAll ns ≤ most

variable {xs ys : List String} {j k : Nat}

theorem Folds.number (v : Float) : Folds (number v) [] 1 := ⟨isFolded_number v, rfl, Nat.le_refl _⟩

theorem FoldsAll.nil : FoldsAll [] [] 0 := ⟨nofun, rfl, Nat.le_refl _⟩

theorem FoldsAll.cons {ns : List Node} (h : Folds n xs j) (hs : FoldsAll ns ys k) :
    FoldsAll (n :: ns) (xs ++ ys) (j + k) where
  isFolded := List.forall_mem_cons.mpr ⟨h.isFolded, hs.isFolded⟩
  cells_eq := by rw [List.flatMap_cons, h.cells_eq, hs.cells_eq]
  size_le := by
    rw [sizeAll]
    exact Nat.add_le_add h.size_le hs.size_le

/-- A sign in front of what is no number and has no sign. -/
theorem Folds.unary (h : Folds n xs k) (unfoldable : ¬ (unary s n).Foldable) : Folds (unary s n) xs (k + 1) where
  isFolded := isFolded_unary.mpr ⟨unfoldable, h.isFolded⟩
  cells_eq := h.cells_eq
  size_le := by
    rw [size, Nat.add_comm]
    exact Nat.succ_le_succ h.size_le

/-- **A signed operand** reads what the operand reads. -/
theorem Folds.signed (h : Folds n xs k) (s : Sign) : Folds (signed s n) xs (k + 1) := by
  cases n with
  | number v => exact ⟨isFolded_number _, h.cells_eq, Nat.le_add_left 1 k⟩
  | unary inner m =>
    -- the merged sign is as unfoldable as the one that was there
    obtain ⟨unfoldable, operand⟩ := isFolded_unary.mp h.isFolded
    refine ⟨isFolded_unary.mpr ⟨?_, operand⟩, h.cells_eq, Nat.le_succ_of_le h.size_le⟩
    intro foldable
    cases foldable with
    | signedNumber => exact unfoldable .signedNumber
    | signedTwice => exact unfoldable .signedTwice
  | cell | binary | call => exact h.unary nofun

/-- **An operation** reads what its operands read. -/
theorem Folds.operation (hl : Folds l xs j) (hr : Folds r ys k) (op : BinaryOp) :
    Folds (operation op l r) (xs ++ ys) (j + k + 1) := by
  have cells : l.cells ++ r.cells = xs ++ ys := by rw [hl.cells_eq, hr.cells_eq]
  unfold Node.operation
  split
  · exact ⟨isFolded_number _, cells, Nat.le_add_left 1 _⟩
  next unknown =>
    refine ⟨isFolded_binary.mpr ⟨?_, hl.isFolded, hr.isFolded⟩, (cells_binary l r).trans cells, ?_⟩
    · intro foldable
      cases foldable
      exact unknown _ _ rfl rfl
    · rw [size, Nat.add_comm]
      exact Nat.succ_le_succ (Nat.add_le_add hl.size_le hr.size_le)

/-- **A call** reads what its arguments read. -/
theorem FoldsAll.calling (h : FoldsAll as xs k) (called : calling f as = some n) : Folds n xs (k + 1) := by
  unfold Node.calling at called
  split at called
  next ys constant =>
    obtain ⟨v, -, rfl⟩ := Option.map_eq_some_iff.mp called
    have unread : xs = [] := h.cells_eq.symm.trans (cells_of_constants? constant)
    exact ⟨isFolded_number v, unread.symm, Nat.le_add_left 1 k⟩
  next varies =>
    obtain rfl := Option.some.inj called
    refine ⟨isFolded_call.mpr ⟨?_, h.isFolded⟩, (cells_call as).trans h.cells_eq, ?_⟩
    · intro foldable
      cases foldable with
      | constantCall all =>
        have constant := constants?_isSome_iff.mpr all
        rw [varies] at constant
        cases constant
    · rw [size, Nat.add_comm]
      exact Nat.succ_le_succ h.size_le

end Node

/-! ## Compiling -/

variable {t : SymbolTable} {n : Node}

/-- The mutable variable that a node names by itself. -/
def Expr.mutableName? (t : SymbolTable) : Expr → Option String
  | .identifier name _ => (t.findVariable? name).bind fun v => if v.constant then none else some name
  | _ => none

/-- **The mutable variables that an expression names**, from left to right. -/
def Expr.mutableNames (t : SymbolTable) (e : Expr) : List String := e.preOrder.filterMap (Expr.mutableName? t)

theorem folds_resolve {name : String} {span : Span} (h : resolve t name span = .ok n) :
    n.Folds ((Expr.identifier name span).mutableNames t) 1 := by
  unfold resolve at h
  split at h
  next => cases h
  next v found =>
    obtain rfl := Except.ok.inj h
    by_cases constant : v.constant = true
    · have unnamed : (Expr.identifier name span).mutableNames t = [] := by
        simp [Expr.mutableNames, Expr.preOrder, Expr.mutableName?, found, constant]
      rw [unnamed, if_pos constant]
      exact .number v.value
    · have named : (Expr.identifier name span).mutableNames t = [name] := by
        simp [Expr.mutableNames, Expr.preOrder, Expr.mutableName?, found, constant]
      rw [named, if_neg constant]
      exact ⟨Node.isFolded_cell name, rfl, Nat.le_refl _⟩

mutual
/-- **A compiled expression is in normal form.** -/
theorem Expr.folds_compile : ∀ {e : Expr} {n : Node}, e.compile t = .ok n →
    n.Folds (e.mutableNames t) e.preOrder.length
  | .number v _, n, h => by
    obtain rfl := Except.ok.inj h
    exact .number v
  | .identifier name span, n, h => folds_resolve h
  | .unary s e _, n, h => by
    obtain ⟨m, hm, h⟩ := bind_eq_ok h
    obtain rfl := Except.ok.inj h
    exact (Expr.folds_compile hm).signed s
  | .binary op l r span, n, h => by
    obtain ⟨m, hm, h⟩ := bind_eq_ok h
    obtain ⟨m', hm', h⟩ := bind_eq_ok h
    obtain rfl := Except.ok.inj h
    have names : (Expr.binary op l r span).mutableNames t = l.mutableNames t ++ r.mutableNames t :=
      List.filterMap_append
    rw [names, Expr.preOrder, List.length_cons, List.length_append]
    exact (Expr.folds_compile hm).operation (Expr.folds_compile hm') op
  | .call name as span, n, h => by
    obtain ⟨f, -, h⟩ := bind_eq_ok h
    obtain ⟨ms, hms, h⟩ := bind_eq_ok h
    split at h
    next m called =>
      obtain rfl := Except.ok.inj h
      exact (folds_compileAll hms).calling called
    next => cases h
/-- Compiled arguments are in normal form. -/
theorem folds_compileAll : ∀ {es : List Expr} {ns : List Node}, compileAll t es = .ok ns →
    Node.FoldsAll ns ((preOrderAll es).filterMap (Expr.mutableName? t)) (preOrderAll es).length
  | [], ns, h => by
    obtain rfl := Except.ok.inj h
    exact .nil
  | e :: es, ns, h => by
    obtain ⟨m, hm, h⟩ := bind_eq_ok h
    obtain ⟨ms, hms, h⟩ := bind_eq_ok h
    obtain rfl := Except.ok.inj h
    rw [preOrderAll, List.filterMap_append, List.length_append]
    exact .cons (Expr.folds_compile hm) (folds_compileAll hms)
end

/-- An expression names no mutable variable when all variables that it names are constant. -/
theorem Expr.mutableNames_eq_nil_iff {e : Expr} : e.mutableNames t = [] ↔
    ∀ name span, .identifier name span ∈ e.preOrder → ∀ v, t.findVariable? name = some v → v.constant = true := by
  rw [mutableNames, List.filterMap_eq_nil_iff]
  constructor
  · intro h name span mem v found
    have unnamed := h _ mem
    simp only [mutableName?, found, Option.bind_some, ite_eq_left_iff, Bool.not_eq_true] at unnamed
    simpa using unnamed
  · intro h e mem
    cases e with
    | number | unary | binary | call => rfl
    | identifier name span =>
      cases found : t.findVariable? name with
      | none => simp [mutableName?, found]
      | some v => simp [mutableName?, found, h name span mem v found]

/-- **What an expression compiles to is in normal form.** -/
structure Ast.InNormalForm (a : Ast) (t : SymbolTable) (n : Node) : Prop where
  /-- Nothing is left to fold. -/
  isFolded : n.IsFolded
  /-- It reads the mutable variables that the expression names, in their order. -/
  cells_eq : n.cells = a.root.mutableNames t
  /-- It is a constant exactly when the expression names none. -/
  constant_iff : n.constant?.isSome = true ↔ ∀ name span, .identifier name span ∈ a.root.preOrder →
    ∀ v, t.findVariable? name = some v → v.constant = true
  /-- It has no more nodes than the expression. -/
  size_le : n.size ≤ a.root.preOrder.length

/-- **What an expression compiles to is in normal form.** -/
theorem inNormalForm_compile {a : Ast} (h : (a.compile t).result = .ok n) : a.InNormalForm t n := by
  rw [a.compile_result] at h
  have folds := Expr.folds_compile h
  exact {
    isFolded := folds.isFolded
    cells_eq := folds.cells_eq
    constant_iff := by rw [folds.isFolded.constant?_isSome_iff, folds.cells_eq, Expr.mutableNames_eq_nil_iff]
    size_le := folds.size_le }

/-- The two signs of the sample tree have merged, and its call has folded. -/
theorem inNormalForm_sampleTree :
    (sampleTree.compile sampleTable).result = .ok (.binary .add (.unary .plus (.cell "x")) (.number 2)) ∧
      sampleTree.InNormalForm sampleTable (.binary .add (.unary .plus (.cell "x")) (.number 2)) := by
  have compiled :
      (sampleTree.compile sampleTable).result = .ok (.binary .add (.unary .plus (.cell "x")) (.number 2)) := rfl
  exact ⟨compiled, inNormalForm_compile compiled⟩

end Formula
