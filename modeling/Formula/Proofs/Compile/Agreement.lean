import Formula.Proofs.Compile.NormalForm
import Formula.Proofs.Parse.Acceptance

/-!
# Agreement — a formula depends on nothing but what it mentions

Two tables **agree** on a node when the name that the node looks up has the same entry in both: a name its variable,
and a call its function. Where they agree on every node of an expression they cannot be told apart by compiling it:
the node that comes of it is the same, or the error is (`Expr.compile_congr`).

What is compiled has taken its constants, and reads the mutable variables that the expression names and no others
(`Node.eval_congr`). So its value in one table is its value in the other for as long as these variables have the
same values, whatever else is set in either of them. Along two runs that make the same writes to these variables
between the same evaluations, the evaluations give the same values (`SymbolTable.run_observed`).

**What it does not say.** That values differ where one of these variables does.
-/

namespace Formula

/-! ## Compiling -/

/-- **Two tables agree on a node**: what the node looks up is the same in both. -/
def Expr.AgreesOn (t u : SymbolTable) : Expr → Prop
  | .identifier name _ => t.findVariable? name = u.findVariable? name
  | .call name _ _ => t.findFunction? name = u.findFunction? name
  | _ => True

variable {t u : SymbolTable} {name : String} {span : Span}

theorem resolve_congr (h : (Expr.identifier name span).AgreesOn t u) : resolve t name span = resolve u name span := by
  unfold resolve
  rw [show t.findVariable? name = u.findVariable? name from h]

theorem callee_congr {as : List Expr} (h : (Expr.call name as span).AgreesOn t u) (given : Nat) :
    callee t name given span = callee u name given span := by
  unfold callee
  rw [show t.findFunction? name = u.findFunction? name from h]

mutual
/-- **Tables that agree on all nodes of an expression** compile it to the same. -/
theorem Expr.compile_congr : ∀ {e : Expr}, (∀ n ∈ e.preOrder, n.AgreesOn t u) → e.compile t = e.compile u
  | .number _ _, _ => by rw [Expr.compile, Expr.compile]
  | .identifier name span, agree => by
    rw [Expr.compile, Expr.compile, resolve_congr (agree _ List.mem_cons_self)]
  | .unary _ _ _, agree => by
    rw [Expr.compile, Expr.compile, Expr.compile_congr (List.forall_mem_cons.mp agree).2]
  | .binary _ _ _ _, agree => by
    obtain ⟨left, right⟩ := List.forall_mem_append.mp (List.forall_mem_cons.mp agree).2
    rw [Expr.compile, Expr.compile, Expr.compile_congr left, Expr.compile_congr right]
  | .call _ _ _, agree => by
    obtain ⟨here, below⟩ := List.forall_mem_cons.mp agree
    rw [Expr.compile, Expr.compile, callee_congr here, compileAll_congr below]
/-- Tables that agree on all nodes of some expressions compile them to the same. -/
theorem compileAll_congr : ∀ {es : List Expr}, (∀ n ∈ preOrderAll es, n.AgreesOn t u) →
    compileAll t es = compileAll u es
  | [], _ => by rw [compileAll, compileAll]
  | _ :: _, agree => by
    obtain ⟨first, more⟩ := List.forall_mem_append.mp agree
    rw [compileAll, compileAll, Expr.compile_congr first, compileAll_congr more]
end

/-- **Tables that agree on the tree of a source**, when it has one, compile the source to the same, and say the
same of it. -/
theorem compileSource_congr {source : String}
    (agree : ∀ a, (Ast.read source).result = .ok a → ∀ e ∈ a.root.preOrder, e.AgreesOn t u) :
    compileSource source t = compileSource source u := by
  cases read : (Ast.read source).result with
  | error e => rw [compileSource_of_read_error read, compileSource_of_read_error read]
  | ok a =>
    have same := Expr.compile_congr (agree a read)
    cases compiled : a.root.compile t with
    | error e => rw [compileSource_of_error read compiled, compileSource_of_error read (same ▸ compiled)]
    | ok n => rw [compileSource_of_ok read compiled, compileSource_of_ok read (same ▸ compiled)]

/-- What a source compiles to is what its tree compiles to. -/
theorem compile_eq_ok {source : String} {a : Ast} {n : Node} (read : (Ast.read source).result = .ok a)
    (compiled : (compileSource source t).result = .ok n) : a.root.compile t = .ok n := by
  cases tree : a.root.compile t with
  | error e =>
    rw [compileSource_of_error read tree] at compiled
    cases compiled
  | ok m =>
    rw [compileSource_of_ok read tree] at compiled
    exact congrArg Except.ok (Except.ok.inj compiled)

/-! ## Evaluating -/

namespace Node

variable {read read' : String → Float}

mutual
/-- **A node depends on its cells alone.** -/
theorem eval_congr : ∀ {n : Node}, (∀ x ∈ n.cells, read x = read' x) → n.eval read = n.eval read'
  | number _, _ => by rw [eval, eval]
  | cell x, same => by rw [eval, eval, same x List.mem_cons_self]
  | unary s n, same => by
    rw [cells_unary] at same
    rw [eval, eval, eval_congr same]
  | binary _ l r, same => by
    rw [cells_binary, List.forall_mem_append] at same
    rw [eval, eval, eval_congr same.1, eval_congr same.2]
  | call _ as, same => by
    rw [cells_call] at same
    rw [eval, eval, evalAll_congr same]
theorem evalAll_congr : ∀ {slots : Nat} {ns : List Node}, (∀ x ∈ ns.flatMap cells, read x = read' x) →
    evalAll read slots ns = evalAll read' slots ns
  | 0, _, _ => by rw [evalAll, evalAll]
  | _ + 1, [], _ => by rw [evalAll, evalAll]
  | _ + 1, n :: ns, same => by
    rw [List.flatMap_cons, List.forall_mem_append] at same
    rw [evalAll, evalAll, eval_congr same.1, evalAll_congr same.2]
end

end Node

/-- **What an expression compiles to** depends on the mutable variables that the expression names. -/
theorem valueIn_congr {e : Expr} {n : Node} {now now' : SymbolTable} (compiled : e.compile t = .ok n)
    (same : ∀ x ∈ e.mutableNames t, now.value x = now'.value x) : n.valueIn now = n.valueIn now' := by
  rw [← (Expr.folds_compile compiled).cells_eq] at same
  exact Node.eval_congr same

/-! ## Runs -/

/-- **What of a run can be observed** by who looks at some variables: the evaluations and the writes to these. -/
def Access.concerns (names : List String) : Access → Bool
  | set name _ => names.contains name
  | evaluate => true

/-- **Some variables have the same values** in two tables that both have them. -/
def SymbolTable.SameAt (names : List String) (now now' : SymbolTable) : Prop :=
  ∀ x ∈ names, (∃ v, now.findVariable? x = some v) ∧ (∃ v, now'.findVariable? x = some v) ∧ now.value x = now'.value x

namespace SymbolTable

variable {names : List String} {now now' : SymbolTable}

/-- **A write to both tables** keeps the values the same. -/
theorem SameAt.setValue (h : SameAt names now now') (other : String) (value : Float) :
    SameAt names (now.setValue other value) (now'.setValue other value) := by
  intro x hx
  obtain ⟨⟨v, here⟩, ⟨v', there⟩, same⟩ := h x hx
  refine ⟨exists_findVariable?_setValue ⟨v, here⟩ .., exists_findVariable?_setValue ⟨v', there⟩ .., ?_⟩
  rw [value_setValue here, value_setValue there, same]

/-- **A write to another variable** of one table does, too. -/
theorem SameAt.setValue_left (h : SameAt names now now') {other : String} (unobserved : other ∉ names) (value : Float) :
    SameAt names (now.setValue other value) now' := by
  intro x hx
  obtain ⟨⟨v, here⟩, there, same⟩ := h x hx
  refine ⟨exists_findVariable?_setValue ⟨v, here⟩ .., there, ?_⟩
  have elsewhere : other ≠ x := fun named => unobserved (named ▸ hx)
  rw [value_setValue here, if_neg elsewhere, same]

/-- **A run gives what its observable part gives** in any table where the observed variables have the same values. -/
theorem run_filter_concerns {evaluate : SymbolTable → Option Float}
    (depends : ∀ {now now'}, SameAt names now now' → evaluate now = evaluate now') (h : SameAt names now now')
    (accesses : List Access) : now.run evaluate accesses = now'.run evaluate (accesses.filter (·.concerns names)) := by
  -- on the run: a write to both tables or to the first alone keeps the values the same
  induction accesses generalizing now now' with
  | nil => rfl
  | cons access rest ih =>
    cases access with
    | set x value =>
      by_cases observed : x ∈ names
      · have kept : (Access.set x value).concerns names = true := List.contains_iff_mem.mpr observed
        rw [List.filter_cons_of_pos kept]
        exact ih (h.setValue x value)
      · have dropped : ¬ (Access.set x value).concerns names = true := mt List.contains_iff_mem.mp observed
        rw [List.filter_cons_of_neg dropped]
        exact ih (h.setValue_left observed value)
    | evaluate =>
      change evaluate now :: _ = evaluate now' :: _
      rw [depends h, ih h]

/-- **Two runs with the same observable part** give the same. -/
theorem run_observed {evaluate : SymbolTable → Option Float}
    (depends : ∀ {now now'}, SameAt names now now' → evaluate now = evaluate now') (h : SameAt names now now')
    {accesses accesses' : List Access}
    (observed : accesses.filter (·.concerns names) = accesses'.filter (·.concerns names)) :
    now.run evaluate accesses = now'.run evaluate accesses' := by
  have itself : SameAt names now' now' := fun x hx => ⟨(h x hx).2.1, (h x hx).2.1, rfl⟩
  rw [run_filter_concerns depends h, observed, ← run_filter_concerns depends itself]

end SymbolTable

/-! ## Sources -/

/-- A mutable variable that an expression names is there. -/
theorem Expr.exists_of_mem_mutableNames {e : Expr} {x : String} (h : x ∈ e.mutableNames t) :
    ∃ span v, .identifier x span ∈ e.preOrder ∧ t.findVariable? x = some v ∧ v.constant = false := by
  obtain ⟨node, mem, named⟩ := List.mem_filterMap.mp h
  cases node with
  | number | unary | binary | call => cases named
  | identifier name span =>
    obtain ⟨v, found, named⟩ := Option.bind_eq_some_iff.mp named
    split at named
    next => cases named
    next mutable =>
      obtain rfl := Option.some.inj named
      exact ⟨span, v, mem, found, Bool.eq_false_iff.mpr mutable⟩

/-- **A source cannot tell two tables apart.** -/
structure Indistinguishable (source : String) (t u : SymbolTable) : Prop where
  /-- It compiles to the same node in both, or fails with the same error, and the same is said of it. -/
  compiles : compileSource source t = compileSource source u
  /-- What it compiles to has the same value in both, whatever is set in either, as long as the mutable variables
  that the source names have the same values. -/
  values : ∀ a n, (Ast.read source).result = .ok a → (compileSource source t).result = .ok n →
    ∀ writes writes', (∀ x ∈ a.root.mutableNames t, (t.setValues writes).value x = (u.setValues writes').value x) →
      n.valueIn (t.setValues writes) = n.valueIn (u.setValues writes')
  /-- Along two runs that make the same writes to these variables, the evaluations give the same. -/
  runs : ∀ a n, (Ast.read source).result = .ok a → (compileSource source t).result = .ok n →
    ∀ accesses accesses', accesses.filter (·.concerns (a.root.mutableNames t)) =
      accesses'.filter (·.concerns (a.root.mutableNames t)) → t.run n.valueIn accesses = u.run n.valueIn accesses'

/-- **Tables that agree on the tree of a source are the same to it.** -/
theorem indistinguishable_of_agreesOn {source : String}
    (agree : ∀ a, (Ast.read source).result = .ok a → ∀ e ∈ a.root.preOrder, e.AgreesOn t u) :
    Indistinguishable source t u where
  compiles := compileSource_congr agree
  values a n read compiled writes writes' same :=
    valueIn_congr (compile_eq_ok read compiled) same
  runs a n read compiled accesses accesses' observed := by
    have compiled := compile_eq_ok read compiled
    refine SymbolTable.run_observed (fun same => valueIn_congr compiled fun x hx => (same x hx).2.2) ?_ observed
    intro x hx
    obtain ⟨span, v, mem, found, -⟩ := Expr.exists_of_mem_mutableNames hx
    have found' : u.findVariable? x = some v := (agree a read _ mem).symm.trans found
    refine ⟨⟨v, found⟩, ⟨v, found'⟩, ?_⟩
    rw [SymbolTable.value, SymbolTable.value, found, found']

/-- The sample table with a variable that is named as the function is, a function that is named as a variable is, and
another constant. -/
def crowdedTable : SymbolTable :=
  ((sampleTable.addVariable "first" 1 false).addFunction "x" List.head? 1).addVariable "y" 9 true

/-- A call looks up no variable of its name, and a name no function. -/
theorem indistinguishable_crowdedTable :
    (∀ a, (Ast.read "first(c,x)").result = .ok a → ∀ e ∈ a.root.preOrder, e.AgreesOn sampleTable crowdedTable) ∧
      Indistinguishable "first(c,x)" sampleTable crowdedTable := by
  have scan : Tokens.ofSource "first(c,x)" =
      ⟨[⟨.identifier, 0, "first"⟩, ⟨.openParen, 5, "("⟩, ⟨.identifier, 6, "c"⟩, ⟨.comma, 7, ","⟩,
        ⟨.identifier, 8, "x"⟩, ⟨.closeParen, 9, ")"⟩], .endOfInput 10⟩ := by
    have source : "first(c,x)".toList = ['f', 'i', 'r', 's', 't', '(', 'c', ',', 'x', ')'] := rfl
    rw [Tokens.ofSource, source]
    repeat rw [Tokens.ofChars_of_word rfl]
    rw [Tokens.ofChars_of_stop rfl]
    rfl
  have read : (Ast.read "first(c,x)").result =
      .ok ⟨"first(c,x)", .call "first" [.identifier "c" ⟨6, 1⟩, .identifier "x" ⟨8, 1⟩] ⟨0, 5⟩⟩ := by
    rw [read_result, scan]
    rfl
  have agree : ∀ a, (Ast.read "first(c,x)").result = .ok a →
      ∀ e ∈ a.root.preOrder, e.AgreesOn sampleTable crowdedTable := by
    intro a ha
    obtain rfl := Except.ok.inj (read.symm.trans ha)
    exact List.forall_mem_cons.mpr ⟨rfl, List.forall_mem_cons.mpr ⟨rfl, List.forall_mem_singleton.mpr rfl⟩⟩
  exact ⟨agree, indistinguishable_of_agreesOn agree⟩

end Formula
