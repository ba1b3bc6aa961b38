import Formula.Proofs.Compile.Folding
import Formula.Report

/-!
# Runs — a compiled formula against the expression it was compiled from

The **plain value** of an expression is what the expression says, read off the tree: each sign applied on
its own, each operator to the values of both operands, each native to the values of all arguments, from
the left. It takes constants from the table that the expression is compiled against and every other
variable from the table as it is now (`Expr.plainValue`).

A compiled formula has the plain value wherever the names are still those of the table it was compiled
against (`eval_compile`). Setting variables keeps the names, so along every run that sets variables and
evaluates, in any order, each evaluation gives the plain value (`run_compile`).

**What it does not say.** That an expression compiles; and of a native that reads more arguments than it
is given there is no value to compare.
-/

namespace Formula

/-! ## The plain value -/

/-- **The plain value of a name**: a constant's from the table compiled against, a variable's current one. -/
def plainName (start now : SymbolTable) (name : String) : Option Float :=
  match start.findVariable? name with
  | none => none
  | some v => if v.constant then some v.value else (now.findVariable? name).map (·.value)

mutual
/-- **The plain value of an expression.** -/
def Expr.plainValue (start now : SymbolTable) : Expr → Option Float
  | .number v _ => some v
  | .identifier name _ => plainName start now name
  | .unary s e _ => (e.plainValue start now).map s.apply
  | .binary op l r _ => do
    let x ← l.plainValue start now
    let y ← r.plainValue start now
    return op.apply x y
  | .call name as _ => do
    let f ← start.findFunction? name
    let xs ← plainValues start now as
    f.native xs
def plainValues (start now : SymbolTable) : List Expr → Option (List Float)
  | [] => some []
  | e :: es => do
    let x ← e.plainValue start now
    let xs ← plainValues start now es
    return x :: xs
end

/-! ## Compiling keeps the value -/

/-- **Every name of a table has a variable** in another one. -/
def SymbolTable.NamesIn (start now : SymbolTable) : Prop :=
  ∀ name v, start.findVariable? name = some v → ∃ v', now.findVariable? name = some v'

variable {start now : SymbolTable} {name : String} {span : Span} {n : Node}

theorem bind_eq_ok {ε α β : Type} {x : Except ε α} {f : α → Except ε β} {b : β} (h : x >>= f = .ok b) :
    ∃ a, x = .ok a ∧ f a = .ok b := by
  cases x with
  | error e => cases h
  | ok a => exact ⟨a, rfl, h⟩

/-- **A name resolved has its plain value.** -/
theorem eval_resolve (names : start.NamesIn now) (h : resolve start name span = .ok n) :
    n.eval now.value = plainName start now name := by
  unfold resolve at h
  split at h
  next => cases h
  next v found =>
    obtain rfl := Except.ok.inj h
    unfold plainName
    rw [found]
    by_cases constant : v.constant = true
    · simp only [if_pos constant, Node.eval]
    · obtain ⟨v', found'⟩ := names name v found
      simp only [if_neg constant, Node.eval, SymbolTable.value, found', Option.map_some]

/-- What a call takes for its native, and how many arguments it has. -/
theorem callee_eq_ok {given : Nat} {f : Native} (h : callee start name given span = .ok f) :
    (∃ g, start.findFunction? name = some g ∧ g.native = f ∧ given = g.arity) ∧ given ≤ maxArguments := by
  unfold callee at h
  split at h
  next => cases h
  next g found =>
    split at h
    next => cases h
    next right =>
      split at h
      next => cases h
      next fits => exact ⟨⟨g, found, Except.ok.inj h, Decidable.not_not.mp right⟩, Nat.le_of_not_lt fits⟩

mutual
/-- **A compiled expression has the plain value.** -/
theorem Expr.eval_compile (names : start.NamesIn now) : ∀ {e : Expr} {n : Node}, e.compile start = .ok n →
    n.eval now.value = e.plainValue start now
  | .number v _, n, h => by
    obtain rfl := Except.ok.inj h
    rw [Node.eval, Expr.plainValue]
  | .identifier name span, n, h => by
    rw [Expr.plainValue]
    exact eval_resolve names h
  | .unary s e _, n, h => by
    obtain ⟨m, hm, h⟩ := bind_eq_ok h
    obtain rfl := Except.ok.inj h
    rw [Node.eval_signed, Expr.eval_compile names hm, Expr.plainValue]
  | .binary op l r _, n, h => by
    obtain ⟨m, hm, h⟩ := bind_eq_ok h
    obtain ⟨m', hm', h⟩ := bind_eq_ok h
    obtain rfl := Except.ok.inj h
    rw [Node.eval_operation, Expr.eval_compile names hm, Expr.eval_compile names hm', Expr.plainValue]
  | .call name as span, n, h => by
    obtain ⟨f, hf, h⟩ := bind_eq_ok h
    obtain ⟨ms, hms, h⟩ := bind_eq_ok h
    -- the check on the number of arguments is what makes an evaluation hand over all of them
    obtain ⟨⟨g, found, rfl, -⟩, fits⟩ := callee_eq_ok hf
    obtain ⟨length, values⟩ := mapM_compileAll names hms
    split at h
    next m folded =>
      obtain rfl := Except.ok.inj h
      rw [Node.eval_calling folded (length ▸ fits), values, Expr.plainValue, found]
      rfl
    next => cases h
/-- Compiled arguments are as many, and have the plain values. -/
theorem mapM_compileAll (names : start.NamesIn now) : ∀ {es : List Expr} {ns : List Node},
    compileAll start es = .ok ns →
    ns.length = es.length ∧ ns.mapM (Node.eval now.value) = plainValues start now es
  | [], ns, h => by
    obtain rfl := Except.ok.inj h
    rw [plainValues, List.mapM_nil]
    exact ⟨rfl, rfl⟩
  | e :: es, ns, h => by
    obtain ⟨m, hm, h⟩ := bind_eq_ok h
    obtain ⟨ms, hms, h⟩ := bind_eq_ok h
    obtain rfl := Except.ok.inj h
    obtain ⟨length, values⟩ := mapM_compileAll names hms
    rw [plainValues, List.mapM_cons, Expr.eval_compile names hm, values]
    exact ⟨congrArg (· + 1) length, rfl⟩
end

/-! ## Sources -/

section Source

variable {source : String} {a : Ast} {t : SymbolTable}

theorem Ast.compile_result (a : Ast) (t : SymbolTable) : (a.compile t).result = a.root.compile t := by
  unfold Ast.compile
  split
  next compiled => exact compiled.symm
  next compiled => exact compiled.symm

theorem compileSource_of_read_error {e : ParseError} (h : (Ast.read source).result = .error e) :
    compileSource source t = ⟨.error (.parse e), (Ast.read source).messages⟩ := by
  simp only [compileSource, h]

theorem compileSource_of_error {e : CompileError} (h : (Ast.read source).result = .ok a)
    (compiled : a.root.compile t = .error e) :
    compileSource source t = ⟨.error (.compile e), (Ast.read source).messages ++ [.unresolved e]⟩ := by
  simp only [compileSource, h, Ast.compile, compiled]

theorem compileSource_of_ok (h : (Ast.read source).result = .ok a) (compiled : a.root.compile t = .ok n) :
    compileSource source t = ⟨.ok n, (Ast.read source).messages⟩ := by
  simp only [compileSource, h, Ast.compile, compiled, List.append_nil]

/-- **A source fails to be read, or to compile, or it compiles.** -/
theorem compileSource_cases (source : String) (t : SymbolTable) :
    (∃ e, (Ast.read source).result = .error e ∧
      compileSource source t = ⟨.error (.parse e), (Ast.read source).messages⟩) ∨
    (∃ a e, (Ast.read source).result = .ok a ∧ a.root.compile t = .error e ∧
      compileSource source t = ⟨.error (.compile e), (Ast.read source).messages ++ [.unresolved e]⟩) ∨
    ∃ a n, (Ast.read source).result = .ok a ∧ a.root.compile t = .ok n ∧
      compileSource source t = ⟨.ok n, (Ast.read source).messages⟩ := by
  cases read : (Ast.read source).result with
  | error e => exact .inl ⟨e, rfl, compileSource_of_read_error read⟩
  | ok a =>
    cases compiled : a.root.compile t with
    | error e => exact .inr (.inl ⟨a, e, rfl, compiled, compileSource_of_error read compiled⟩)
    | ok n => exact .inr (.inr ⟨a, n, rfl, compiled, compileSource_of_ok read compiled⟩)

theorem evaluateSource_of_error {e : Failure} (h : (compileSource source t).result = .error e) :
    evaluateSource source t = ⟨some Binary64.nan, (compileSource source t).messages⟩ := by
  simp only [evaluateSource, h]

theorem evaluateSource_of_ok (h : (compileSource source t).result = .ok n) :
    evaluateSource source t = ⟨n.valueIn t, (compileSource source t).messages⟩ := by
  simp only [evaluateSource, h]

end Source

/-! ## Runs -/

/-- What can be done with a compiled formula and the variables it may read. -/
inductive Access
  | set (name : String) (value : Float)
  | evaluate

/-- **What the evaluations of a run give**, in order. -/
def SymbolTable.run (evaluate : SymbolTable → Option Float) : SymbolTable → List Access → List (Option Float)
  | _, [] => []
  | t, .set name value :: rest => run evaluate (t.setValue name value) rest
  | t, .evaluate :: rest => evaluate t :: run evaluate t rest

/-- **Setting a variable keeps the names.** -/
theorem SymbolTable.NamesIn.setValue (names : start.NamesIn now) (name : String) (value : Float) :
    start.NamesIn (now.setValue name value) := by
  intro other v found
  obtain ⟨v', found'⟩ := names other v found
  unfold SymbolTable.setValue
  split
  next u _ =>
    by_cases same : name = other
    · exact ⟨_, (Dictionary.find?_put ..).trans (if_pos same)⟩
    · exact ⟨v', ((Dictionary.find?_put ..).trans (if_neg same)).trans found'⟩
  next => exact ⟨v', found'⟩

/-- A variable is there after any write when it was there before. -/
theorem SymbolTable.exists_findVariable?_setValue (h : ∃ v, now.findVariable? name = some v) (other : String)
    (value : Float) : ∃ v, (now.setValue other value).findVariable? name = some v := by
  obtain ⟨v, found⟩ := h
  have kept : now.NamesIn now := fun _ u found => ⟨u, found⟩
  exact kept.setValue other value name v found

/-- **A variable that is set has what it was set to**, and every other one what it had. -/
theorem SymbolTable.value_setValue {t : SymbolTable} {v : Variable} (found : t.findVariable? name = some v)
    (other : String) (value : Float) : (t.setValue other value).value name = if other = name then value else t.value name := by
  by_cases same : other = name
  · subst same
    have here : (t.setValue other value).findVariable? other = some ⟨value, v.constant⟩ := by
      simp only [setValue, found]
      exact (Dictionary.find?_put ..).trans (if_pos rfl)
    rw [SymbolTable.value, here, if_pos rfl]
  · have kept : (t.setValue other value).findVariable? name = t.findVariable? name := by
      unfold setValue
      split
      next => exact (Dictionary.find?_put ..).trans (if_neg same)
      next => rfl
    rw [SymbolTable.value, kept, if_neg same]
    rfl

/-- **A variable has the value of the writes to it**, when they agree and when it had the value before or there is
a write to it. -/
theorem SymbolTable.value_setValues {value : Float} : ∀ {t : SymbolTable} {writes : List (String × Float)},
    (∃ v, t.findVariable? name = some v) → (∀ w ∈ writes, w.1 = name → w.2 = value) →
    (t.value name = value ∨ ∃ w ∈ writes, w.1 = name) → (t.setValues writes).value name = value
  | _, [], _, _, here => here.resolve_right fun ⟨_, mem, _⟩ => nomatch mem
  | t, w :: writes, found, agree, here => by
    obtain ⟨v, found⟩ := found
    obtain ⟨agrees, agree⟩ := List.forall_mem_cons.mp agree
    refine value_setValues (t := t.setValue w.1 w.2) (exists_findVariable?_setValue ⟨v, found⟩ ..) agree ?_
    rw [value_setValue found]
    by_cases same : w.1 = name
    · rw [if_pos same]
      exact .inl (agrees same)
    · rw [if_neg same]
      refine here.imp id ?_
      rintro ⟨w', mem, same'⟩
      rcases List.mem_cons.mp mem with rfl | mem
      · exact (same same').elim
      · exact ⟨w', mem, same'⟩

/-- **Where two ways to evaluate agree as long as the names are there, they agree along every run.** -/
theorem SymbolTable.run_congr {evaluate evaluate' : SymbolTable → Option Float}
    (agree : ∀ {now}, start.NamesIn now → evaluate now = evaluate' now) (names : start.NamesIn now)
    (accesses : List Access) : now.run evaluate accesses = now.run evaluate' accesses := by
  -- on the run, for all tables that have the names: setting keeps them
  induction accesses generalizing now with
  | nil => rfl
  | cons access rest ih =>
    cases access with
    | set name value => exact ih (names.setValue name value)
    | evaluate =>
      change evaluate now :: _ = evaluate' now :: _
      rw [agree names, ih names]

/-- **Along every run of a compiled formula each evaluation gives the plain value of the expression.** -/
theorem run_compile {a : Ast} (h : (a.compile start).result = .ok n) (accesses : List Access) :
    start.run n.valueIn accesses = start.run (a.root.plainValue start) accesses := by
  have compiled : a.root.compile start = .ok n := by
    unfold Ast.compile at h
    split at h
    next m compiled =>
      obtain rfl := Except.ok.inj h
      exact compiled
    next => cases h
  exact SymbolTable.run_congr (fun names => Expr.eval_compile names compiled) (fun _ v found => ⟨v, found⟩) accesses

/-- A table with a constant, a variable and a native. -/
def sampleTable : SymbolTable :=
  ((SymbolTable.empty.addVariable "c" 2 true).addVariable "x" 3 false).addFunction "first" List.head? 2

/-- A tree whose signs merge and whose call folds. -/
def sampleTree : Ast where
  source := "-(-x) + first(c, 1)"
  root := .binary .add (.unary .minus (.unary .minus (.identifier "x" ⟨3, 1⟩) ⟨2, 1⟩) ⟨0, 1⟩)
    (.call "first" [.identifier "c" ⟨14, 1⟩, .number 1 ⟨17, 1⟩] ⟨8, 5⟩) ⟨6, 1⟩

/-- A run that sets both variables sees the new value of `x`, and the constant `c` as it was. -/
theorem run_compile_sample :
    (sampleTree.compile sampleTable).result = .ok (.binary .add (.unary .plus (.cell "x")) (.number 2)) ∧
      sampleTable.run (sampleTree.root.plainValue sampleTable) [.evaluate, .set "x" 5, .set "c" 7, .evaluate] =
        [some (3 + 2), some (5 + 2)] := by
  have compiled :
      (sampleTree.compile sampleTable).result = .ok (.binary .add (.unary .plus (.cell "x")) (.number 2)) := rfl
  exact ⟨compiled, (run_compile compiled _).symm.trans rfl⟩

end Formula
