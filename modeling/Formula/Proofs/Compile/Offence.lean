import Formula.Proofs.Compile.Arity
import Formula.Proofs.Compile.PreOrder
import Formula.Proofs.Parse.InOrder

/-!
# Offences — the first name that is not resolved ends a compilation

A node **offends** when it is a name without variable, or a call of no function or with a number of arguments
that its function does not take; what its error is can be told from the node and the table alone
(`Expr.offence?`). A compilation takes the nodes of a tree in preorder: it ends with the offence of the first one
that offends, and where none does the tree compiles (`offenceDecides`). There is one other way for it to end, a native
that has no value when it is folded, and that only natives have that lack a value at as many values as their calls
must have (`Resolution.fails`).

A tree that was read from a source has no call with too many arguments, and the error names what its source has at
the error's place.
-/

namespace Formula

/-! ## What offends -/

/-- **A node is resolved** by a table: a name is that of a variable, and a call that of a function which takes its
arguments. All other nodes are. -/
def Expr.Resolves (t : SymbolTable) : Expr → Prop
  | .identifier name _ => ∃ v, t.findVariable? name = some v
  | .call name as _ => ∃ f, t.findFunction? name = some f ∧ f.arity = as.length ∧ as.length ≤ maxArguments
  | _ => True

/-- **The error of a node on its own**, none when it is resolved. -/
def Expr.offence? (t : SymbolTable) : Expr → Option CompileError
  | .identifier name span =>
    match t.findVariable? name with
    | none => some (.unknownVariable name span)
    | some _ => none
  | .call name as span =>
    match t.findFunction? name with
    | none => some (.unknownFunction name span)
    | some f =>
      if f.arity ≠ as.length then some (.argumentMismatch name f.arity as.length span)
      else if maxArguments < as.length then some (.tooManyArguments name maxArguments as.length span)
      else none
  | _ => none

variable {t : SymbolTable} {e : Expr} {err : CompileError} {name : String} {as : List Expr} {span : Span}

/-- **A node has no error exactly when it is resolved.** -/
theorem Expr.offence?_eq_none_iff : e.offence? t = none ↔ e.Resolves t := by
  cases e with
  | number | unary | binary => exact iff_of_true rfl trivial
  | identifier name span =>
    cases found : t.findVariable? name <;> simp [offence?, Resolves, found]
  | call name as span =>
    cases found : t.findFunction? name with
    | none => simp [offence?, Resolves, found]
    | some f =>
      simp only [offence?, Resolves, found, Option.some.injEq, exists_eq_left']
      split_ifs with wrong large
      · exact iff_of_false nofun fun h => wrong h.1
      · exact iff_of_false nofun fun h => Nat.not_le_of_lt large h.2
      · exact iff_of_true rfl ⟨Decidable.not_not.mp wrong, Nat.le_of_not_lt large⟩

/-- **An offence has the name and the span of its node.** -/
theorem Expr.eq_of_offence? (h : e.offence? t = some err) :
    e = .identifier err.name err.span ∨ ∃ as, e = .call err.name as err.span := by
  cases e with
  | number | unary | binary => cases h
  | identifier name span =>
    simp only [offence?] at h
    split at h
    · obtain rfl := Option.some.inj h
      exact .inl rfl
    · cases h
  | call name as span =>
    right
    simp only [offence?] at h
    split at h
    · obtain rfl := Option.some.inj h
      exact ⟨as, rfl⟩
    · split_ifs at h
      all_goals
        obtain rfl := Option.some.inj h
        exact ⟨as, rfl⟩

/-- Where there are too many arguments, there are more than a call may have. -/
theorem Expr.call_of_tooManyArguments {most given : Nat}
    (h : e.offence? t = some (.tooManyArguments name most given span)) :
    ∃ as, e = .call name as span ∧ maxArguments < as.length := by
  cases e with
  | number | unary | binary => cases h
  | identifier name span =>
    simp only [offence?] at h
    split at h <;> cases h
  | call name as span =>
    simp only [offence?] at h
    split at h
    · cases h
    · split_ifs at h with wrong large
      · cases h
      · cases h
        exact ⟨as, rfl, large⟩

/-! ## What a compilation comes to -/

/-- **What becomes of nodes that are compiled in an order.** -/
inductive Resolution (t : SymbolTable) {α : Type} (nodes : List Expr) : Except CompileError α → Prop
  /-- None offends. -/
  | resolved {a : α} (all : nodes.findSome? (Expr.offence? t) = none) : Resolution t nodes (.ok a)
  /-- The first one that offends has this error. -/
  | offends {err : CompileError} (first : nodes.findSome? (Expr.offence? t) = some err) :
      Resolution t nodes (.error err)
  /-- The native of a call has no value at some list of as many values as its calls must have. -/
  | fails {name : String} {as : List Expr} {span : Span} {f : Function} {xs : List Float}
      (mem : .call name as span ∈ nodes) (found : t.findFunction? name = some f) (length : xs.length = f.arity)
      (missing : f.native xs = none) : Resolution t nodes (.error (.missingArgument name span))

namespace Resolution

variable {α β : Type} {x : Except CompileError α} {nodes more : List Expr}

/-- Nodes without offence in front change nothing. -/
theorem prepend (all : nodes.findSome? (Expr.offence? t) = none) (h : Resolution t more x) :
    Resolution t (nodes ++ more) x := by
  have same : (nodes ++ more).findSome? (Expr.offence? t) = more.findSome? (Expr.offence? t) := by
    rw [List.findSome?_append, all, Option.none_or]
  cases h with
  | resolved all => exact .resolved (same.trans all)
  | offends first => exact .offends (same.trans first)
  | fails mem found length missing => exact .fails (List.mem_append_right _ mem) found length missing

/-- **After some nodes come more**: what becomes of all is decided by the first of them that do not go well. -/
theorem bind {f : α → Except CompileError β} (h : Resolution t nodes x)
    (next : ∀ a, x = .ok a → nodes.findSome? (Expr.offence? t) = none → Resolution t (nodes ++ more) (f a)) :
    Resolution t (nodes ++ more) (x >>= f) := by
  cases h with
  | resolved all => exact next _ rfl all
  | @offends err first => exact .offends (by rw [List.findSome?_append, first, Option.some_or])
  | fails mem found length missing => exact .fails (List.mem_append_left _ mem) found length missing

/-- The last thing done with the value of some nodes. -/
theorem last {f : α → Except CompileError β} (h : Resolution t nodes x)
    (next : ∀ a, x = .ok a → nodes.findSome? (Expr.offence? t) = none → Resolution t nodes (f a)) :
    Resolution t nodes (x >>= f) := by
  rw [← List.append_nil nodes]
  refine h.bind fun a value all => ?_
  rw [List.append_nil]
  exact next a value all

/-- A value made from that of some nodes. -/
theorem map (f : α → β) (h : Resolution t nodes x) : Resolution t nodes (x >>= fun a => pure (f a)) :=
  h.last fun _ _ all => .resolved all

/-- Every error has the name and the span of a node. -/
theorem exists_node (h : Resolution t nodes (.error err : Except CompileError α)) :
    ∃ e ∈ nodes, e = .identifier err.name err.span ∨ ∃ as, e = .call err.name as err.span := by
  cases h with
  | offends first =>
    obtain ⟨e, mem, offence⟩ := List.exists_of_findSome?_eq_some first
    exact ⟨e, mem, e.eq_of_offence? offence⟩
  | @fails name as span _ _ mem => exact ⟨_, mem, .inr ⟨as, rfl⟩⟩

/-- **Where natives have values, the first offence is all that can happen.** -/
theorem cases_of_definedAtArity (h : Resolution t nodes x) (natives : t.DefinedAtArity) :
    (∃ a, x = .ok a ∧ nodes.findSome? (Expr.offence? t) = none) ∨
      ∃ err, x = .error err ∧ nodes.findSome? (Expr.offence? t) = some err := by
  cases h with
  | resolved all => exact .inl ⟨_, rfl, all⟩
  | offends first => exact .inr ⟨_, rfl, first⟩
  | fails mem found length missing =>
    have value := natives _ _ found _ length
    rw [missing] at value
    cases value

end Resolution

/-! ## Compiling -/

/-- A name is resolved, or is its own offence. -/
theorem resolution_resolve (t : SymbolTable) (name : String) (span : Span) :
    Resolution t [.identifier name span] (resolve t name span) := by
  cases found : t.findVariable? name with
  | none =>
    simp only [resolve, found]
    exact .offends (by simp [Expr.offence?, found])
  | some v =>
    simp only [resolve, found]
    exact .resolved (by simp [Expr.offence?, found])

/-- **A call is checked by itself**: its function first, then the number of arguments, then that there are not too
many. -/
theorem resolution_callee (t : SymbolTable) (name : String) (as : List Expr) (span : Span) :
    Resolution t [.call name as span] (callee t name as.length span) := by
  cases found : t.findFunction? name with
  | none =>
    simp only [callee, found]
    exact .offends (by simp [Expr.offence?, found])
  | some f =>
    simp only [callee, found]
    split_ifs with wrong large
    · exact .offends (by simp [Expr.offence?, found, Ne.symm wrong])
    · exact .offends (by simp [Expr.offence?, found, (Decidable.not_not.mp wrong).symm, large])
    · exact .resolved (by simp [Expr.offence?, found, (Decidable.not_not.mp wrong).symm, large])

mutual
/-- **Compiling an expression takes its nodes in preorder.** -/
theorem Expr.resolution_compile (t : SymbolTable) : ∀ e : Expr, Resolution t e.preOrder (e.compile t)
  | .number v span => .resolved rfl
  | .identifier name span => resolution_resolve t name span
  | .unary s e span => by
    have sign : [Expr.unary s e span].findSome? (Expr.offence? t) = none := rfl
    exact ((Expr.resolution_compile t e).map (Node.signed s)).prepend sign
  | .binary op l r span => by
    have operator : [Expr.binary op l r span].findSome? (Expr.offence? t) = none := rfl
    refine .prepend operator ((Expr.resolution_compile t l).bind fun m _ all => ?_)
    exact ((Expr.resolution_compile t r).map (Node.operation op m)).prepend all
  | .call name as span => by
    change Resolution t ([.call name as span] ++ preOrderAll as) _
    refine (resolution_callee t name as span).bind fun f called all => ?_
    obtain ⟨⟨g, found, rfl, arity⟩, -⟩ := callee_eq_ok called
    refine ((resolution_compileAll t as).prepend all).last fun ns compiled all => ?_
    have kept : t.NamesIn t := fun _ v found => ⟨v, found⟩
    have length : ns.length = as.length := (mapM_compileAll kept compiled).1
    split
    next => exact .resolved all
    next failed =>
      obtain ⟨xs, constant, missing⟩ := Node.calling_eq_none failed
      exact .fails (List.mem_cons_self ..) found ((Node.length_of_constants? constant).trans (length.trans arity)) missing
/-- Compiling arguments takes their nodes, one argument after the other. -/
theorem resolution_compileAll (t : SymbolTable) : ∀ es : List Expr, Resolution t (preOrderAll es) (compileAll t es)
  | [] => .resolved rfl
  | e :: es =>
    (Expr.resolution_compile t e).bind fun n _ all =>
      .prepend all ((resolution_compileAll t es).map (n :: ·))
end

/-! ## Calls of a source -/

/-- **No call has too many arguments** in an expression. -/
def Expr.CallsFit (e : Expr) : Prop := ∀ name as span, .call name as span ∈ e.preOrder → as.length ≤ maxArguments

/-- **What a phrase means has no call with too many arguments**; the links of a chain bring none to the expression
to their left. -/
def Nonterminal.CallsFit : (n : Nonterminal) → n.Meaning → Prop
  | .links _, link => ∀ left : Expr, left.CallsFit → (link left).CallsFit
  | .further, es => ∀ e ∈ es, e.CallsFit
  | .expression, e | .chain _, e | .operand _, e | .unary, e | .power, e | .call, e | .basic, e => e.CallsFit

theorem Expr.callsFit_leaf (leaf : e.preOrder = [e]) (uncalled : ∀ name as span, e ≠ .call name as span) :
    e.CallsFit := by
  intro name as span mem
  rw [leaf, List.mem_singleton] at mem
  exact (uncalled name as span mem.symm).elim

theorem Expr.CallsFit.unary {sign : Sign} (h : e.CallsFit) : (Expr.unary sign e span).CallsFit := by
  intro name as span mem
  rcases List.mem_cons.mp mem with same | mem
  · cases same
  · exact h name as span mem

theorem Expr.CallsFit.binary {op : BinaryOp} {l r : Expr} (hl : l.CallsFit) (hr : r.CallsFit) :
    (Expr.binary op l r span).CallsFit := by
  intro name as span mem
  rcases List.mem_cons.mp mem with same | mem
  · cases same
  · rcases List.mem_append.mp mem with mem | mem
    · exact hl name as span mem
    · exact hr name as span mem

theorem Expr.CallsFit.call (few : as.length ≤ maxArguments) (h : ∀ e ∈ as, e.CallsFit) :
    (Expr.call name as span).CallsFit := by
  intro name as span mem
  rcases List.mem_cons.mp mem with same | mem
  · cases same
    exact few
  · rw [preOrderAll_eq_flatMap] at mem
    obtain ⟨e, he, mem⟩ := List.mem_flatMap.mp mem
    exact h e he name as span mem

/-- The further arguments of a call are as many as the derivation has. -/
theorem Derivation.length_tree : ∀ d : Derivation .further, d.tree.length = d.length
  | noArgument => rfl
  | argument _ _ more => congrArg (· + 1) more.length_tree

/-- **A derivation within the limits has a tree whose calls have few arguments.** -/
theorem Derivation.callsFit {n : Nonterminal} (d : Derivation n) :
    ∀ {depth : Nat}, d.Within depth → n.CallsFit d.tree := by
  induction d with
  | expression _ ih | product _ ih | factor _ ih | plainPower _ ih | plainCall _ ih => exact ih
  | unsigned _ ih => exact fun keeps => ih keeps.2
  | chain first more ih ih' => exact fun keeps => ih' keeps.2.2 _ (ih keeps.2.1)
  | noLink => exact fun _ _ h => h
  | link op level operator right more ih ih' => exact fun keeps left h => ih' keeps.2 _ (h.binary (ih keeps.1))
  | signed sign mark operand ih => exact fun keeps => (ih keeps.2).unary
  | raised base caret exponent ih ih' => exact fun keeps => (ih keeps.1).binary (ih' keeps.2)
  | emptyCall => exact fun _ => .call (Nat.zero_le _) nofun
  | fullCall callee opening first more closing ih ih' =>
    intro depth keeps
    have few : (first.tree :: more.tree).length ≤ maxArguments := by
      rw [List.length_cons, more.length_tree]
      exact keeps.1
    exact .call few (List.forall_mem_cons.mpr ⟨ih keeps.2.1, ih' keeps.2.2⟩)
  | noArgument => exact fun _ => nofun
  | argument comma d more ih ih' =>
    exact fun keeps => List.forall_mem_cons.mpr ⟨ih keeps.1, ih' keeps.2⟩
  | number | name => exact fun _ => Expr.callsFit_leaf rfl nofun
  | group _ _ _ ih => exact ih

variable {source : String} {a : Ast}

theorem callsFit_of_read (h : (Ast.read source).result = .ok a) : a.root.CallsFit := by
  obtain ⟨d, -, keeps, -, rfl⟩ := exists_derivation_of_read h
  exact d.callsFit keeps

/-! ## Names of a source -/

mutual
/-- The nodes of an expression are the same in preorder and in order. -/
theorem Expr.preOrder_perm_inOrder : ∀ e : Expr, e.preOrder.Perm e.inOrder
  | .number .. => .refl _
  | .identifier .. => .refl _
  | .unary _ e _ => e.preOrder_perm_inOrder.cons _
  | .binary _ l r _ => ((l.preOrder_perm_inOrder.append r.preOrder_perm_inOrder).cons _).trans List.perm_middle.symm
  | .call _ as _ => (preOrderAll_perm_inOrderAll as).cons _
theorem preOrderAll_perm_inOrderAll : ∀ es : List Expr, (preOrderAll es).Perm (inOrderAll es)
  | [] => .refl _
  | e :: es => e.preOrder_perm_inOrder.append (preOrderAll_perm_inOrderAll es)
end

/-- **Each node of a tree that is read stands for a word of the source.** -/
theorem exists_word_of_read (h : (Ast.read source).result = .ok a) :
    ∀ e ∈ a.root.preOrder, ∃ word ∈ (Tokens.ofSource source).words, e.Marks word := by
  intro e he
  obtain ⟨d, words, -, -, rfl⟩ := exists_derivation_of_read h
  have marks : List.Forall₂ Expr.Marks d.tree.inOrder (marking (Tokens.ofSource source).words) := by
    rw [words]
    exact d.marks
  obtain ⟨word, mem, stands⟩ := exists_marks marks e (d.tree.preOrder_perm_inOrder.mem_iff.mp he)
  exact ⟨word, List.mem_of_mem_filter mem, stands⟩

/-- **A name is what its source has there.** -/
theorem slice?_of_read (h : (Ast.read source).result = .ok a) (he : e ∈ a.root.preOrder)
    (named : e = .identifier name span ∨ ∃ as, e = .call name as span) :
    span.slice? source.toList = some name.toList := by
  obtain ⟨word, mem, stands⟩ := exists_word_of_read h e he
  have covers := (fits_ofSource source).lexeme word mem
  rcases named with rfl | ⟨as, rfl⟩
  · cases stands
    exact covers
  · cases stands
    exact covers

/-! ## The verdict on a tree -/

/-- **The first offence decides what compiling a tree comes to.** -/
structure Ast.OffenceDecides (a : Ast) (t : SymbolTable) : Prop where
  /-- Where natives have values at as many values as their calls must have, a tree compiles exactly when all its nodes
  are resolved, -/
  compiles_iff : t.DefinedAtArity → ((∃ n, (a.compile t).result = .ok n) ↔ ∀ e ∈ a.root.preOrder, e.Resolves t)
  /-- and its error is the offence of the first node that is not. -/
  fails_iff : t.DefinedAtArity →
    ∀ err, (a.compile t).result = .error err ↔ a.root.preOrder.findSome? (Expr.offence? t) = some err
  /-- With natives of any kind there is one more way to fail, for want of a native's value. -/
  settled : Resolution t a.root.preOrder (a.compile t).result
  /-- The error of a tree that was read from its source is not that there are too many arguments, and the source has
  the error's name at the error's place. -/
  located : (Ast.read a.source).result = .ok a → ∀ err, (a.compile t).result = .error err →
    (∀ name most given span, err ≠ .tooManyArguments name most given span) ∧
      err.span.slice? a.source.toList = some err.name.toList

/-- **The first offence decides what compiling a tree comes to.** -/
theorem offenceDecides (a : Ast) (t : SymbolTable) : a.OffenceDecides t := by
  have settled : Resolution t a.root.preOrder (a.compile t).result := by
    rw [a.compile_result]
    exact a.root.resolution_compile t
  exact {
    settled
    compiles_iff := by
      intro natives
      have resolved : (∀ e ∈ a.root.preOrder, e.Resolves t) ↔ a.root.preOrder.findSome? (Expr.offence? t) = none := by
        rw [List.findSome?_eq_none_iff]
        exact forall₂_congr fun e _ => e.offence?_eq_none_iff.symm
      rw [resolved]
      rcases settled.cases_of_definedAtArity natives with ⟨n, result, all⟩ | ⟨err, result, first⟩
      · rw [result, all]
        exact iff_of_true ⟨n, rfl⟩ rfl
      · rw [result, first]
        exact iff_of_false nofun nofun
    fails_iff := by
      intro natives err
      rcases settled.cases_of_definedAtArity natives with ⟨n, result, all⟩ | ⟨err', result, first⟩
      · rw [result, all]
        exact iff_of_false nofun nofun
      · rw [result, first, Except.error.injEq, Option.some.injEq]
    located := by
      intro read err failed
      rw [failed] at settled
      obtain ⟨e, mem, named⟩ := settled.exists_node
      refine ⟨?_, slice?_of_read read mem named⟩
      rintro name most given span rfl
      cases settled with
      | offends first =>
        obtain ⟨e, mem, offence⟩ := List.exists_of_findSome?_eq_some first
        obtain ⟨as, rfl, many⟩ := e.call_of_tooManyArguments offence
        exact Nat.not_le_of_lt many (callsFit_of_read read name as span mem) }

/-- A sum with three names that the sample table does not have, the first of them in a call inside a call. -/
def unresolvedSum : Ast where
  source := "first(g(y), x) + z"
  root := .binary .add
    (.call "first" [.call "g" [.identifier "y" ⟨8, 1⟩] ⟨6, 1⟩, .identifier "x" ⟨12, 1⟩] ⟨0, 5⟩)
    (.identifier "z" ⟨17, 1⟩) ⟨15, 1⟩

/-- The function comes before its argument, and the call before the operand to its right. -/
theorem offenceDecides_unresolvedSum :
    sampleTable.DefinedAtArity ∧ (Ast.read unresolvedSum.source).result = .ok unresolvedSum ∧
      (unresolvedSum.compile sampleTable).result = .error (.unknownFunction "g" ⟨6, 1⟩) ∧
      (⟨6, 1⟩ : Span).slice? unresolvedSum.source.toList = some ['g'] := by
  have natives : sampleTable.DefinedAtArity := by
    intro name f found xs length
    have found := (Dictionary.find?_put _ _ name _).symm.trans found
    split at found
    · obtain rfl := Option.some.inj found
      match xs, length with
      | [_, _], _ => rfl
    · cases found
  have scan : Tokens.ofSource unresolvedSum.source =
      ⟨[⟨.identifier, 0, "first"⟩, ⟨.openParen, 5, "("⟩, ⟨.identifier, 6, "g"⟩, ⟨.openParen, 7, "("⟩,
        ⟨.identifier, 8, "y"⟩, ⟨.closeParen, 9, ")"⟩, ⟨.comma, 10, ","⟩, ⟨.identifier, 12, "x"⟩,
        ⟨.closeParen, 13, ")"⟩, ⟨.plus, 15, "+"⟩, ⟨.identifier, 17, "z"⟩], .endOfInput 18⟩ := by
    have source : unresolvedSum.source.toList =
        ['f', 'i', 'r', 's', 't', '(', 'g', '(', 'y', ')', ',', ' ', 'x', ')', ' ', '+', ' ', 'z'] := rfl
    rw [Tokens.ofSource, source]
    repeat rw [Tokens.ofChars_of_word rfl]
    rw [Tokens.ofChars_of_stop rfl]
    rfl
  have read : (Ast.read unresolvedSum.source).result = .ok unresolvedSum := by
    rw [read_result, scan]
    rfl
  have decides := offenceDecides unresolvedSum sampleTable
  have failed : (unresolvedSum.compile sampleTable).result = .error (.unknownFunction "g" ⟨6, 1⟩) :=
    (decides.fails_iff natives _).mpr rfl
  exact ⟨natives, read, failed, (decides.located read _ failed).2⟩

end Formula
