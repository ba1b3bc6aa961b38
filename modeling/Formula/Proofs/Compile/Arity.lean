import Formula.Proofs.Compile.Run

/-!
# Arity — every native is handed as many values as its calls must have

A native reads its arguments from a list and has no value when the list is too short. No list that reaches
it is: a call is checked against the arity before its arguments are compiled, a call that folds hands over
all its arguments, and so does an evaluation, which has slots for as many as a call may have.

Two theorems say so. A function that is **strict** has no value at any list but one of as many values as its
arity; making all functions of a table strict changes no result, no message and no value
(`compileSource_strict`). And where every function has a value at every list of that length, nothing is
without a value (`noPanic_of_definedAtArity`), which holds of the builtins whatever variables are added to
them (`definedAtArity_builtins`).
-/

namespace Formula

/-! ## Values of arguments -/

namespace Node

variable {read : String → Float}

theorem length_of_constants? : ∀ {ns : List Node} {xs : List Float}, constants? ns = some xs → xs.length = ns.length
  | [], xs, h => by
    obtain rfl : [] = xs := Option.some.inj h
    rfl
  | n :: ns, xs, h => by
    obtain ⟨y, -, h⟩ := Option.bind_eq_some_iff.mp h
    obtain ⟨ys, hns, h⟩ := Option.bind_eq_some_iff.mp h
    obtain rfl : y :: ys = xs := Option.some.inj h
    rw [List.length_cons, List.length_cons, length_of_constants? hns]

theorem length_of_mapM_eval : ∀ {ns : List Node} {xs : List Float}, ns.mapM (eval read) = some xs →
    xs.length = ns.length
  | [], xs, h => by
    obtain rfl : [] = xs := Option.some.inj h
    rfl
  | n :: ns, xs, h => by
    rw [List.mapM_cons] at h
    obtain ⟨y, -, h⟩ := Option.bind_eq_some_iff.mp h
    obtain ⟨ys, hns, h⟩ := Option.bind_eq_some_iff.mp h
    obtain rfl : y :: ys = xs := Option.some.inj h
    rw [List.length_cons, List.length_cons, length_of_mapM_eval hns]

/-! ## Nodes that cannot be told apart -/

/-- **Two nodes are the same** to folding and to evaluation. -/
structure Same (m n : Node) : Prop where
  constant?_eq : m.constant? = n.constant?
  eval_eq : ∀ read, m.eval read = n.eval read

theorem Same.refl (n : Node) : Same n n := ⟨rfl, fun _ => rfl⟩

theorem constant?_signed (s : Sign) (n : Node) : (signed s n).constant? = n.constant?.map s.apply := by
  cases n <;> rfl

theorem constant?_operation (op : BinaryOp) (l r : Node) :
    (operation op l r).constant? = do
      let x ← l.constant?
      let y ← r.constant?
      return op.apply x y := by
  cases l <;> cases r <;> rfl

theorem Same.signed {m n : Node} (h : Same m n) (s : Sign) : Same (signed s m) (Node.signed s n) where
  constant?_eq := by rw [constant?_signed, constant?_signed, h.constant?_eq]
  eval_eq read := by rw [eval_signed, eval_signed, h.eval_eq]

theorem Same.operation {l l' r r' : Node} (hl : Same l l') (hr : Same r r') (op : BinaryOp) :
    Same (operation op l r) (Node.operation op l' r') where
  constant?_eq := by rw [constant?_operation, constant?_operation, hl.constant?_eq, hr.constant?_eq]
  eval_eq read := by rw [eval_operation, eval_operation, hl.eval_eq, hr.eval_eq]

/-- **Two lists of nodes are the same**, as arguments. -/
structure SameAll (ms ns : List Node) : Prop where
  length_eq : ms.length = ns.length
  constants?_eq : constants? ms = constants? ns
  mapM_eq : ∀ read, ms.mapM (eval read) = ns.mapM (eval read)

theorem SameAll.nil : SameAll [] [] := ⟨rfl, rfl, fun _ => rfl⟩

theorem SameAll.cons {m n : Node} {ms ns : List Node} (h : Same m n) (hs : SameAll ms ns) :
    SameAll (m :: ms) (n :: ns) where
  length_eq := congrArg (· + 1) hs.length_eq
  constants?_eq := by rw [constants?, constants?, h.constant?_eq, hs.constants?_eq]
  mapM_eq read := by rw [List.mapM_cons, List.mapM_cons, h.eval_eq, hs.mapM_eq]

/-- **Natives that agree on lists as long as the arguments make the same calls.** -/
theorem SameAll.calling {ms ns : List Node} (h : SameAll ms ns) (fits : ns.length ≤ maxArguments) {f g : Native}
    (agree : ∀ xs : List Float, xs.length = ns.length → f xs = g xs) :
    (calling f ms = none ∧ Node.calling g ns = none) ∨
    ∃ m n, Node.calling f ms = some m ∧ Node.calling g ns = some n ∧ Same m n := by
  cases hc : constants? ns with
  | some xs =>
    have folded : Node.calling f ms = Node.calling g ns := by
      rw [Node.calling, Node.calling, h.constants?_eq, hc]
      exact congrArg (Option.map number) (agree xs (length_of_constants? hc))
    rw [folded]
    cases Node.calling g ns with
    | none => exact .inl ⟨rfl, rfl⟩
    | some n => exact .inr ⟨n, n, rfl, rfl, .refl n⟩
  | none =>
    have left : Node.calling f ms = some (call f ms) := by rw [Node.calling, h.constants?_eq, hc]
    have right : Node.calling g ns = some (call g ns) := by rw [Node.calling, hc]
    refine .inr ⟨_, _, left, right, rfl, fun read => ?_⟩
    rw [eval_calling left (h.length_eq ▸ fits), eval_calling right fits, h.mapM_eq]
    -- the values that are handed over are as many as the arguments
    cases values : ns.mapM (eval read) with
    | none => rfl
    | some xs => exact agree xs (length_of_mapM_eval values)

/-! ## Nodes that have a value -/

/-- **A node has a value**, whatever its cells hold. -/
def Valued (n : Node) : Prop := ∀ read, (n.eval read).isSome = true

theorem Valued.signed {n : Node} (h : n.Valued) (s : Sign) : (signed s n).Valued := by
  intro read
  rw [eval_signed, Option.isSome_map]
  exact h read

theorem Valued.operation {l r : Node} (hl : l.Valued) (hr : r.Valued) (op : BinaryOp) :
    (operation op l r).Valued := by
  intro read
  obtain ⟨x, hx⟩ := Option.isSome_iff_exists.mp (hl read)
  obtain ⟨y, hy⟩ := Option.isSome_iff_exists.mp (hr read)
  rw [eval_operation, hx, hy]
  rfl

theorem exists_values (read : String → Float) : ∀ {ns : List Node}, (∀ n ∈ ns, n.Valued) →
    ∃ xs, ns.mapM (eval read) = some xs
  | [], _ => ⟨[], rfl⟩
  | n :: ns, h => by
    obtain ⟨here, more⟩ := List.forall_mem_cons.mp h
    obtain ⟨x, hx⟩ := Option.isSome_iff_exists.mp (here read)
    obtain ⟨xs, hxs⟩ := exists_values read more
    exact ⟨x :: xs, by rw [List.mapM_cons, hx, hxs]; rfl⟩

/-- **A call has a value** where its native has one at as many values as there are arguments. -/
theorem exists_calling {f : Native} {ns : List Node} (fits : ns.length ≤ maxArguments)
    (defined : ∀ xs : List Float, xs.length = ns.length → (f xs).isSome = true) (h : ∀ n ∈ ns, n.Valued) :
    ∃ n, calling f ns = some n ∧ n.Valued := by
  have valued {n : Node} (hn : calling f ns = some n) : n.Valued := by
    intro read
    obtain ⟨xs, hxs⟩ := exists_values read h
    rw [eval_calling hn fits, hxs]
    exact defined xs (length_of_mapM_eval hxs)
  cases hc : constants? ns with
  | none =>
    have unfolded : calling f ns = some (call f ns) := by rw [calling, hc]
    exact ⟨_, unfolded, valued unfolded⟩
  | some xs =>
    obtain ⟨x, hx⟩ := Option.isSome_iff_exists.mp (defined xs (length_of_constants? hc))
    have folded : calling f ns = some (number x) := by rw [calling, hc, Option.map_eq_some_iff]; exact ⟨x, hx, rfl⟩
    exact ⟨_, folded, valued folded⟩

end Node

/-! ## Strict functions -/

/-- **The function that has a value only at as many values as its calls must have.** -/
def Function.strict (f : Function) : Function where
  native xs := if xs.length = f.arity then f.native xs else none
  arity := f.arity

theorem Function.strict_native (f : Function) {xs : List Float} (h : xs.length = f.arity) :
    f.strict.native xs = f.native xs := if_pos h

def Dictionary.map {α β : Type} (f : α → β) (d : Dictionary α) : Dictionary β :=
  ⟨d.entries.map fun e => (e.1, f e.2)⟩

theorem Dictionary.find?_map {α β : Type} (f : α → β) (d : Dictionary α) (name : String) :
    (d.map f).find? name = (d.find? name).map f := by
  obtain ⟨es⟩ := d
  change findIn name (es.map _) = (findIn name es).map f
  induction es with
  | nil => rfl
  | cons e es ih =>
    rw [List.map_cons, findIn, findIn]
    split
    · rfl
    · exact ih

/-- **The table with every function strict.** -/
def SymbolTable.strict (t : SymbolTable) : SymbolTable := { t with functions := t.functions.map Function.strict }

theorem SymbolTable.findFunction?_strict (t : SymbolTable) (name : String) :
    t.strict.findFunction? name = (t.findFunction? name).map Function.strict :=
  Dictionary.find?_map _ _ name

/-- **Two results match**: the same error, or values that are related. -/
inductive Matches {ε α β : Type} (R : α → β → Prop) : Except ε α → Except ε β → Prop
  | error (e : ε) : Matches R (.error e) (.error e)
  | ok {a : α} {b : β} (h : R a b) : Matches R (.ok a) (.ok b)

theorem Matches.bind {ε α β γ δ : Type} {R : α → β → Prop} {S : γ → δ → Prop} {x : Except ε α} {y : Except ε β}
    {f : α → Except ε γ} {g : β → Except ε δ} (h : Matches R x y)
    (next : ∀ {a b}, R a b → Matches S (f a) (g b)) : Matches S (x >>= f) (y >>= g) := by
  cases h with
  | error e => exact .error e
  | ok h => exact next h

variable {t : SymbolTable} {name : String} {span : Span}

/-- The natives of a call agree on as many values as the call has arguments. -/
theorem matches_callee (t : SymbolTable) (name : String) (given : Nat) (span : Span) :
    Matches (fun f g : Native => given ≤ maxArguments ∧ ∀ xs : List Float, xs.length = given → f xs = g xs)
      (callee t.strict name given span) (callee t name given span) := by
  cases found : t.findFunction? name with
  | none =>
    simp only [callee, t.findFunction?_strict, found, Option.map_none]
    exact .error _
  | some f =>
    have arity : f.strict.arity = f.arity := rfl
    simp only [callee, t.findFunction?_strict, found, Option.map_some, arity]
    split
    · exact .error _
    · split
      · exact .error _
      next right fits =>
        exact .ok ⟨Nat.le_of_not_lt fits, fun xs h => f.strict_native (h.trans (Decidable.not_not.mp right))⟩

mutual
/-- **Strict functions compile to the same nodes.** -/
theorem Expr.matches_compile (t : SymbolTable) : ∀ e : Expr, Matches Node.Same (e.compile t.strict) (e.compile t)
  | .number v _ => .ok (.refl _)
  | .identifier name span => by
    change Matches Node.Same (resolve t.strict name span) (resolve t name span)
    have same : resolve t.strict name span = resolve t name span := rfl
    rw [same]
    cases resolve t name span with
    | error e => exact .error e
    | ok n => exact .ok (.refl n)
  | .unary s e _ => (Expr.matches_compile t e).bind fun h => .ok (h.signed s)
  | .binary op l r _ =>
    (Expr.matches_compile t l).bind fun hl => (Expr.matches_compile t r).bind fun hr => .ok (hl.operation hr op)
  | .call name as span => by
    refine (matches_callee t name as.length span).bind ?_
    rintro f g ⟨fits, agree⟩
    refine (matches_compileAll t as).bind ?_
    rintro ms ns ⟨same, length⟩
    rw [← length] at fits agree
    rcases same.calling fits agree with ⟨left, right⟩ | ⟨m, n, left, right, h⟩
    · rw [left, right]
      exact .error _
    · rw [left, right]
      exact .ok h
theorem matches_compileAll (t : SymbolTable) : ∀ es : List Expr,
    Matches (fun ms ns => Node.SameAll ms ns ∧ ns.length = es.length) (compileAll t.strict es) (compileAll t es)
  | [] => .ok ⟨.nil, rfl⟩
  | e :: es =>
    (Expr.matches_compile t e).bind fun h =>
      (matches_compileAll t es).bind fun hs => .ok ⟨.cons h hs.1, congrArg (· + 1) hs.2⟩
end

/-- **Strict functions change neither what a source compiles to nor a message.** -/
theorem compileSource_strict (source : String) (t : SymbolTable) :
    Matches Node.Same (compileSource source t.strict).result (compileSource source t).result ∧
      (compileSource source t.strict).messages = (compileSource source t).messages := by
  cases read : (Ast.read source).result with
  | error e =>
    rw [compileSource_of_read_error read, compileSource_of_read_error read]
    exact ⟨.error _, rfl⟩
  | ok a =>
    have compiled := a.root.matches_compile t
    generalize strictly : a.root.compile t.strict = x, plainly : a.root.compile t = y at compiled
    cases compiled with
    | error e =>
      rw [compileSource_of_error read strictly, compileSource_of_error read plainly]
      exact ⟨.error _, rfl⟩
    | ok h =>
      rw [compileSource_of_ok read strictly, compileSource_of_ok read plainly]
      exact ⟨.ok h, rfl⟩

/-- **Nor do they change a value.** -/
theorem evaluateSource_strict (source : String) (t : SymbolTable) :
    evaluateSource source t.strict = evaluateSource source t := by
  obtain ⟨results, messages⟩ := compileSource_strict source t
  generalize strictly : (compileSource source t.strict).result = x, plainly : (compileSource source t).result = y
    at results
  cases results with
  | error e => rw [evaluateSource_of_error strictly, evaluateSource_of_error plainly, messages]
  | ok h =>
    have value : t.strict.value = t.value := rfl
    rw [evaluateSource_of_ok strictly, evaluateSource_of_ok plainly, messages, Node.valueIn, Node.valueIn, value,
      h.eval_eq]

/-! ## Functions that have a value -/

/-- **A function has a value** at all lists of as many values as its calls must have. -/
def Function.DefinedAtArity (f : Function) : Prop :=
  ∀ xs : List Float, xs.length = f.arity → (f.native xs).isSome = true

/-- A table of such functions. -/
def SymbolTable.DefinedAtArity (t : SymbolTable) : Prop :=
  ∀ name f, t.findFunction? name = some f → f.DefinedAtArity

/-- **A result that is not for want of an argument**: a value with a property, or another error. -/
inductive Answered {α : Type} (P : α → Prop) : Except CompileError α → Prop
  | error {e : CompileError} (other : ∀ name span, e ≠ .missingArgument name span) : Answered P (.error e)
  | ok {a : α} (h : P a) : Answered P (.ok a)

theorem Answered.bind {α β : Type} {P : α → Prop} {Q : β → Prop} {x : Except CompileError α}
    {f : α → Except CompileError β} (h : Answered P x) (next : ∀ {a}, P a → Answered Q (f a)) :
    Answered Q (x >>= f) := by
  cases h with
  | error other => exact .error other
  | ok h => exact next h

theorem answered_callee (h : t.DefinedAtArity) (name : String) (given : Nat) (span : Span) :
    Answered (fun f : Native => given ≤ maxArguments ∧ ∀ xs : List Float, xs.length = given → (f xs).isSome = true)
      (callee t name given span) := by
  cases called : callee t name given span with
  | ok f =>
    obtain ⟨⟨g, found, rfl, rfl⟩, fits⟩ := callee_eq_ok called
    exact .ok ⟨fits, h name g found⟩
  | error e =>
    refine .error fun other place missing => ?_
    subst missing
    unfold callee at called
    split at called
    · cases called
    · split at called
      · cases called
      · split at called <;> cases called

mutual
/-- **What compiles has a value**, and nothing fails for want of an argument. -/
theorem Expr.answered_compile (h : t.DefinedAtArity) : ∀ e : Expr, Answered Node.Valued (e.compile t)
  | .number v _ => .ok fun _ => rfl
  | .identifier name span => by
    change Answered Node.Valued (resolve t name span)
    unfold resolve
    split
    · exact .error nofun
    · split
      · exact .ok fun _ => rfl
      · exact .ok fun _ => rfl
  | .unary s e _ => (Expr.answered_compile h e).bind fun hn => .ok (hn.signed s)
  | .binary op l r _ =>
    (Expr.answered_compile h l).bind fun hl => (Expr.answered_compile h r).bind fun hr => .ok (hl.operation hr op)
  | .call name as span => by
    refine (answered_callee h name as.length span).bind ?_
    rintro f ⟨fits, defined⟩
    refine (answered_compileAll h as).bind ?_
    rintro ns ⟨length, valued⟩
    rw [← length] at fits defined
    obtain ⟨n, called, hn⟩ := Node.exists_calling fits defined valued
    rw [called]
    exact .ok hn
theorem answered_compileAll (h : t.DefinedAtArity) : ∀ es : List Expr,
    Answered (fun ns => ns.length = es.length ∧ ∀ n ∈ ns, n.Valued) (compileAll t es)
  | [] => .ok ⟨rfl, nofun⟩
  | e :: es =>
    (Expr.answered_compile h e).bind fun hn =>
      (answered_compileAll h es).bind fun hs =>
        .ok ⟨congrArg (· + 1) hs.1, List.forall_mem_cons.mpr ⟨hn, hs.2⟩⟩
end

/-- **Nothing about a source fails for want of an argument**: not its compilation, not a later evaluation
with whatever values the variables have by then, and not its evaluation at once. -/
structure NoPanic (source : String) (t : SymbolTable) : Prop where
  compiling : ∀ name span, (compileSource source t).result ≠ .error (.compile (.missingArgument name span))
  evaluating : ∀ n, (compileSource source t).result = .ok n → n.Valued
  value : (evaluateSource source t).result.isSome = true

/-- **Where every function has a value at as many values as its arity, nothing fails for want of one.** -/
theorem noPanic_of_definedAtArity (h : t.DefinedAtArity) (source : String) : NoPanic source t := by
  have compiled : (∀ name span, (compileSource source t).result ≠ .error (.compile (.missingArgument name span))) ∧
      ∀ n, (compileSource source t).result = .ok n → n.Valued := by
    cases read : (Ast.read source).result with
    | error e =>
      rw [compileSource_of_read_error read]
      exact ⟨fun _ _ h => (nomatch h), fun _ h => nomatch h⟩
    | ok a =>
      have answered := a.root.answered_compile h
      generalize result : a.root.compile t = x at answered
      cases answered with
      | error other =>
        rw [compileSource_of_error read result]
        exact ⟨fun name span missing => other name span (Failure.compile.inj (Except.error.inj missing)),
          fun _ h => nomatch h⟩
      | ok valued =>
        rw [compileSource_of_ok read result]
        exact ⟨fun _ _ h => (nomatch h), fun _ same => Except.ok.inj same ▸ valued⟩
  refine ⟨compiled.1, compiled.2, ?_⟩
  cases result : (compileSource source t).result with
  | error e =>
    rw [evaluateSource_of_error result]
    rfl
  | ok n =>
    rw [evaluateSource_of_ok result]
    exact compiled.2 n result t.value

/-! ## The builtins -/

theorem Builtin.definedAtArity_unary (f : Float → Float) : Function.DefinedAtArity ⟨unary f, 1⟩
  | [_], _ => rfl

theorem Builtin.definedAtArity_binary (f : Float → Float → Float) : Function.DefinedAtArity ⟨binary f, 2⟩
  | [_, _], _ => rfl

/-- **Every builtin function has a value at as many values as its arity.** -/
theorem Builtin.definedAtArity_functions : ∀ f ∈ functions, f.2.DefinedAtArity := by
  simp [functions, definedAtArity_unary, definedAtArity_binary]

namespace SymbolTable

theorem DefinedAtArity.addFunction (h : t.DefinedAtArity) {f : Function} (defined : f.DefinedAtArity)
    (name : String) : (t.addFunction name f.native f.arity).DefinedAtArity := by
  intro other g found
  have found := (Dictionary.find?_put t.functions name other f).symm.trans found
  split at found
  · exact Option.some.inj found ▸ defined
  · exact h other g found

/-- **The table with variables added.** -/
def addVariables (t : SymbolTable) (vs : List (String × Variable)) : SymbolTable :=
  vs.foldl (fun t v => t.addVariable v.1 v.2.value v.2.constant) t

theorem DefinedAtArity.foldl_addVariable (h : t.DefinedAtArity) {α : Type} (f : α → String × Variable) (vs : List α) :
    (vs.foldl (fun t v => t.addVariable (f v).1 (f v).2.value (f v).2.constant) t).DefinedAtArity := by
  induction vs generalizing t with
  | nil => exact h
  | cons v vs ih => exact ih fun name g found => h name g found

theorem DefinedAtArity.foldl_addFunction (h : t.DefinedAtArity) {fs : List (String × Function)}
    (defined : ∀ f ∈ fs, f.2.DefinedAtArity) :
    (fs.foldl (fun t f => t.addFunction f.1 f.2.native f.2.arity) t).DefinedAtArity := by
  induction fs generalizing t with
  | nil => exact h
  | cons f fs ih =>
    obtain ⟨here, defined⟩ := List.forall_mem_cons.mp defined
    exact ih (h.addFunction here f.1) defined

/-- **The builtins, and whatever variables are added to them.** -/
theorem definedAtArity_builtins (vs : List (String × Variable)) : (builtins.addVariables vs).DefinedAtArity := by
  have none : empty.DefinedAtArity := nofun
  have functions := none.foldl_addFunction Builtin.definedAtArity_functions
  exact (functions.foldl_addVariable (fun c => (c.1, ⟨c.2, true⟩)) Builtin.constants).foldl_addVariable id vs

end SymbolTable

end Formula
