import Mathlib.Tactic.FinCases
import Formula.Proofs.RoundTrip

/-!
# Renderings — a tree written out in full and compiled

A tree of negations and operations is written out with parentheses around everything but its leaves
(`Tree.render`). A negation needs three levels of nesting, an operation two and a leaf two at most, so a tree of
height 85 fits the limit, and what is read shows the tree, sign by sign and operator by operator
(`Tree.spells_render`).

With doubles for leaves, each written as its shortest text in parentheses, the whole folds to one number. With
variables for leaves it evaluates to what the tree is on their values. Either way that is the arithmetic of the
tree, done directly (`Tree.compile_render`): the sums, differences, products and quotients of doubles, their
remainders and their powers, each under its own operator (`Tree.value`). That the operators of the program are
these is `Tree.value_operation`; what a remainder is, exactly, is `Binary64.view_remainder`.
-/

namespace Formula

open Binary64 Decimal

/-- **A tree of negations and operations** over leaves that stand for values. -/
inductive Tree (α : Type)
  | leaf (a : α)
  | negation (operand : Tree α)
  | operation (op : BinaryOp) (left right : Tree α)

namespace Tree

variable {α : Type}

/-- The height of a tree; that of a leaf is one. -/
def height : Tree α → Nat
  | leaf _ => 1
  | negation t => t.height + 1
  | operation _ l r => max l.height r.height + 1

/-- The leaves of a tree, from the left. -/
def leaves : Tree α → List α
  | leaf a => [a]
  | negation t => t.leaves
  | operation _ l r => l.leaves ++ r.leaves

/-- **The arithmetic of a tree**, done directly on the values of its leaves. -/
def value (f : α → Float) : Tree α → Float
  | leaf a => f a
  | negation t => -t.value f
  | operation .add l r => l.value f + r.value f
  | operation .sub l r => l.value f - r.value f
  | operation .mul l r => l.value f * r.value f
  | operation .div l r => l.value f / r.value f
  | operation .rem l r => remainder (l.value f) (r.value f)
  | operation .pow l r => Float.pow (l.value f) (r.value f)

/-- **A tree written out**, with parentheses around everything but the leaves. -/
def render (text : α → String) : Tree α → String
  | leaf a => text a
  | negation t => "(-(" ++ t.render text ++ "))"
  | operation op l r => "(" ++ l.render text ++ " " ++ op.symbol ++ " " ++ r.render text ++ ")"

theorem height_pos : ∀ t : Tree α, 0 < t.height
  | leaf _ => Nat.one_pos
  | negation _ | operation _ _ _ => Nat.succ_pos _

/-- **Each operator applies its arithmetic.** -/
theorem value_operation (f : α → Float) (op : BinaryOp) (l r : Tree α) :
    (operation op l r).value f = op.apply (l.value f) (r.value f) := by
  cases op <;> rfl

/-- The value of a tree depends on its leaves only. -/
theorem value_congr {f g : α → Float} : ∀ {t : Tree α}, (∀ a ∈ t.leaves, f a = g a) → t.value f = t.value g
  | leaf a, same => same a List.mem_cons_self
  | negation t, same => congrArg Neg.neg (value_congr (t := t) same)
  | operation op l r, same => by
    obtain ⟨left, right⟩ := List.forall_mem_append.mp same
    rw [value_operation, value_operation, value_congr left, value_congr right]

/-! ## Reading -/

/-- **An expression shows a tree**: it has the signs and operators of the tree, and its leaves show those of the
tree. -/
inductive Shows (shows : α → Expr → Prop) : Tree α → Expr → Prop
  | leaf {a : α} {e : Expr} (h : shows a e) : Shows shows (.leaf a) e
  | negation {t : Tree α} {e : Expr} (h : Shows shows t e) (span : Span) :
      Shows shows (.negation t) (.unary .minus e span)
  | operation {op : BinaryOp} {l r : Tree α} {el er : Expr} (left : Shows shows l el) (right : Shows shows r er)
      (span : Span) : Shows shows (.operation op l r) (.binary op el er span)

variable {text : α → String} {shows : α → Expr → Prop} {t : Tree α}

/-- **A tree written out spells an expression that shows it**, when its leaves do. -/
theorem spells_render (h : ∀ a ∈ t.leaves, Spells .basic 2 (text a).toList (shows a)) :
    Spells .basic (3 * t.height - 1) (t.render text).toList (Shows shows t) := by
  -- on the tree: parentheses are one level, a minus another, and an operation two
  induction t with
  | leaf a => exact (h a List.mem_cons_self).mono (Nat.le_refl _) fun _ => .leaf
  | negation t ih =>
    have operand := spells_group (spells_expression (spells_unary (ih h)))
    have whole := spells_group (spells_expression (spells_negation (spells_unary operand)))
    have written : (render text (.negation t)).toList =
        '(' :: ('-' :: '(' :: ((t.render text).toList ++ [')']) ++ [')']) := by
      simp [render]
    rw [written]
    have pos := t.height_pos
    refine whole.mono (by simp only [height]; omega) ?_
    rintro _ ⟨e, span, rfl, shows⟩
    exact .negation shows span
  | operation op l r ihl ihr =>
    obtain ⟨hl, hr⟩ := List.forall_mem_append.mp h
    have left := (ihl hl).mono (show _ ≤ 3 * max l.height r.height - 1 by omega) fun _ => id
    have right := (ihr hr).mono (show _ ≤ 3 * max l.height r.height - 1 by omega) fun _ => id
    have whole := spells_group (spells_operation op left right)
    have written : (render text (.operation op l r)).toList =
        '(' :: ((l.render text).toList ++ ' ' :: (op.symbol.toList ++ ' ' :: (r.render text).toList) ++ [')']) := by
      simp [render]
    rw [written]
    have pos := l.height_pos
    refine whole.mono (by simp only [height]; omega) ?_
    rintro _ ⟨el, er, span, rfl, showsL, showsR⟩
    exact .operation showsL showsR span

/-- **A tree of height 85 is read within the limit.** -/
theorem read_render (low : t.height ≤ 85) (h : ∀ a ∈ t.leaves, Spells .basic 2 (text a).toList (shows a)) :
    ∃ root, (Ast.read (t.render text)).result = .ok ⟨t.render text, root⟩ ∧ Shows shows t root :=
  (spells_expression (spells_unary (spells_render h))).read (show _ ≤ 256 by omega)

/-! ## Compiling -/

variable {value : α → Float} {start : SymbolTable} {name : α → String} {e : Expr}

/-- **What shows numbers folds** to the arithmetic of the tree. -/
theorem Shows.foldsTo (h : Shows (fun a e => e.FoldsTo (value a)) t e) : e.FoldsTo (t.value value) := by
  induction h with
  | leaf folds => exact folds
  | negation _ span ih => exact ih.negation span
  | operation _ _ span ihl ihr =>
    intro table
    rw [Expr.compile, ihl table, ihr table, value_operation]
    rfl

/-- **What shows variables evaluates** to the arithmetic of the tree on what the variables hold. -/
theorem Shows.compile_names (h : Shows (fun a e => ∃ span, e = .identifier (name a) span) t e)
    (mutable : ∀ a ∈ t.leaves, ∃ v, start.findVariable? (name a) = some ⟨v, false⟩) :
    ∃ n, e.compile start = .ok n ∧ ∀ read, n.eval read = some (t.value fun a => read (name a)) := by
  induction h with
  | @leaf a e shows =>
    obtain ⟨span, rfl⟩ := shows
    obtain ⟨v, found⟩ := mutable a List.mem_cons_self
    refine ⟨.cell (name a), ?_, fun read => by rw [Node.eval]; rfl⟩
    simp [Expr.compile, resolve, found]
  | negation _ span ih =>
    obtain ⟨n, compiled, values⟩ := ih mutable
    refine ⟨.signed .minus n, by rw [Expr.compile, compiled]; rfl, fun read => ?_⟩
    rw [Node.eval_signed, values]
    rfl
  | operation _ _ span ihl ihr =>
    obtain ⟨mutableL, mutableR⟩ := List.forall_mem_append.mp mutable
    obtain ⟨nl, compiledL, valuesL⟩ := ihl mutableL
    obtain ⟨nr, compiledR, valuesR⟩ := ihr mutableR
    refine ⟨.operation _ nl nr, by rw [Expr.compile, compiledL, compiledR]; rfl, fun read => ?_⟩
    rw [Node.eval_operation, valuesL, valuesR, value_operation]
    rfl

/-! ## Leaves -/

/-- **A double as a leaf**: its shortest text in parentheses. -/
def literal (x : Float) : String := "(" ++ shortestText x ++ ")"

theorem spells_literal {x : Float} {negative : Bool} {rank : Nat} (finite : view x = .finite negative rank) :
    Spells .basic 2 (literal x).toList fun e => e.FoldsTo x := by
  have written : (literal x).toList = '(' :: ((shortestText x).toList ++ [')']) := by simp [literal]
  rw [written]
  exact spells_group (spells_expression (spells_shortestText finite))

/-- A table with a value for each leaf, set for its variable. -/
theorem value_setValues_leaves (σ : α → Float) {leaves : List α} {a : α} (mem : a ∈ leaves)
    (found : ∃ v, start.findVariable? (name a) = some v)
    (distinct : ∀ b ∈ leaves, name b = name a → b = a) :
    (start.setValues (leaves.map fun b => (name b, σ b))).value (name a) = σ a := by
  refine SymbolTable.value_setValues found ?_ (.inr ⟨_, List.mem_map_of_mem mem, rfl⟩)
  intro w hw same
  obtain ⟨b, memB, rfl⟩ := List.mem_map.mp hw
  exact congrArg σ (distinct b memB same)

/-- **A tree written out compiles to its arithmetic.** With finite doubles for leaves it folds to the value of the
tree, on every table. With variables for leaves it evaluates to the value of the tree on what the variables hold
after any writes, and so on any values once each variable is set to that of its leaf. -/
theorem compile_render (t : Tree α) (low : t.height ≤ 85) (value : α → Float)
    (finite : ∀ a ∈ t.leaves, ∃ negative rank, view (value a) = .finite negative rank)
    (start : SymbolTable) (name : α → String) (names : ∀ a ∈ t.leaves, IsName (name a).toList)
    (mutable : ∀ a ∈ t.leaves, ∃ v, start.findVariable? (name a) = some ⟨v, false⟩)
    (distinct : ∀ a ∈ t.leaves, ∀ b ∈ t.leaves, name b = name a → b = a) :
    (∀ table, (compileSource (t.render fun a => literal (value a)) table).result = .ok (.number (t.value value))) ∧
      ∃ n, (compileSource (t.render name) start).result = .ok n ∧
        (∀ writes, n.valueIn (start.setValues writes) =
          some (t.value fun a => (start.setValues writes).value (name a))) ∧
        ∀ σ : α → Float, n.valueIn (start.setValues (t.leaves.map fun a => (name a, σ a))) = some (t.value σ) := by
  constructor
  · have leaves : ∀ a ∈ t.leaves, Spells .basic 2 (literal (value a)).toList fun e => e.FoldsTo (value a) := by
      intro a mem
      obtain ⟨negative, rank, finite⟩ := finite a mem
      exact spells_literal finite
    obtain ⟨root, read, shows⟩ := read_render low leaves
    intro table
    rw [compileSource_of_ok read (shows.foldsTo table)]
  · have leaves : ∀ a ∈ t.leaves, Spells .basic 2 (name a).toList fun e => ∃ span, e = .identifier (name a) span := by
      intro a mem
      have written := (spells_name (names a mem)).mono (Nat.zero_le 2) fun _ => id
      rwa [String.ofList_toList] at written
    obtain ⟨root, read, shows⟩ := read_render low leaves
    obtain ⟨n, compiled, values⟩ := shows.compile_names mutable
    refine ⟨n, by rw [compileSource_of_ok read compiled], fun writes => values _, fun σ => ?_⟩
    refine (values _).trans (congrArg some (value_congr fun a mem => ?_))
    obtain ⟨v, found⟩ := mutable a mem
    exact value_setValues_leaves σ mem ⟨_, found⟩ (distinct a mem)

/-- A tree with each of the operators, over seven leaves. -/
def sixOperators : Tree (Fin 7) :=
  .operation .add
    (.operation .sub (.operation .pow (.negation (.leaf 0)) (.leaf 1)) (.leaf 2))
    (.operation .mul (.leaf 3) (.operation .div (.leaf 4) (.operation .rem (.leaf 5) (.leaf 6))))

theorem value_sixOperators (σ : Fin 7 → Float) :
    sixOperators.value σ = Float.pow (-σ 0) (σ 1) - σ 2 + σ 3 * (σ 4 / remainder (σ 5) (σ 6)) := rfl

def leafName : Fin 7 → String
  | 0 => "v0" | 1 => "v1" | 2 => "v2" | 3 => "v3" | 4 => "v4" | 5 => "v5" | 6 => "v6"

def leafNumber (i : Fin 7) : Float := if i = 5 then 3 else 2

def leafTable : SymbolTable := sixOperators.leaves.foldl (fun table i => table.addVariable (leafName i) 0 false) .empty

/-- Both renderings of a tree with each of the operators: the minus comes before the power, and each operator does
its own arithmetic. -/
theorem compile_sixOperators :
    (∀ table, (compileSource "((((-((2))) ^ (2)) - (2)) + ((2) * ((2) / ((3) % (2)))))" table).result =
        .ok (.number (Float.pow (-2) 2 - 2 + 2 * (2 / remainder 3 2)))) ∧
      ∃ n, (compileSource "((((-(v0)) ^ v1) - v2) + (v3 * (v4 / (v5 % v6))))" leafTable).result = .ok n ∧
        ∀ σ : Fin 7 → Float, n.valueIn (leafTable.setValues
            [("v0", σ 0), ("v1", σ 1), ("v2", σ 2), ("v3", σ 3), ("v4", σ 4), ("v5", σ 5), ("v6", σ 6)]) =
          some (Float.pow (-σ 0) (σ 1) - σ 2 + σ 3 * (σ 4 / remainder (σ 5) (σ 6))) := by
  have finite : ∀ i ∈ sixOperators.leaves, ∃ negative rank, view (leafNumber i) = .finite negative rank := by
    have two : view 2 = .finite false (1024 * 2 ^ 52) := by decide +kernel
    have three : view 3 = .finite false (1024 * 2 ^ 52 + 2 ^ 51) := by decide +kernel
    intro i _
    by_cases fifth : i = 5
    · exact ⟨false, _, (congrArg view (if_pos fifth)).trans three⟩
    · exact ⟨false, _, (congrArg view (if_neg fifth)).trans two⟩
  have literals : sixOperators.render (fun i => literal (leafNumber i)) =
      "((((-((2))) ^ (2)) - (2)) + ((2) * ((2) / ((3) % (2)))))" := by decide +kernel
  have written : sixOperators.render leafName = "((((-(v0)) ^ v1) - v2) + (v3 * (v4 / (v5 % v6))))" := by
    decide +kernel
  have names : ∀ i ∈ sixOperators.leaves, IsName (leafName i).toList := by
    have begun (c : Char) (part : isNamePart c = true) : IsName ['v', c] :=
      ⟨⟨'v', rfl, rfl⟩, List.forall_mem_cons.mpr ⟨rfl, List.forall_mem_singleton.mpr part⟩⟩
    intro i _
    fin_cases i <;> exact begun _ rfl
  have distinct : ∀ i ∈ sixOperators.leaves, ∀ j ∈ sixOperators.leaves, leafName j = leafName i → j = i := by decide
  have mutable : ∀ i ∈ sixOperators.leaves, ∃ v, leafTable.findVariable? (leafName i) = some ⟨v, false⟩ := by
    intro i _
    fin_cases i <;> exact ⟨0, rfl⟩
  obtain ⟨folds, n, compiled, -, values⟩ := compile_render sixOperators (by decide) leafNumber finite _ leafName
    names mutable distinct
  simp only [value_sixOperators] at folds values
  rw [literals] at folds
  rw [written] at compiled
  exact ⟨folds, n, compiled, values⟩

end Tree

end Formula
