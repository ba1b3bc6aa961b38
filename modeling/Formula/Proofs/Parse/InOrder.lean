import Mathlib.Data.List.Forall2
import Formula.Proofs.Parse.Acceptance
import Formula.Proofs.Token.Literals
import Formula.Proofs.Token.Slices

/-!
# In order — the nodes of a tree and the tokens of its source

Each node of a tree stands for one token: the literal, the name, the sign, the operator, or the name of the
function called. Listed **in order** (a sign before its operand, an operator between its operands, a callee before
its arguments), the nodes stand for all tokens of the source but parentheses, commas and the end, one after the
other. That is read off the derivation of the source, phrase by phrase (`Derivation.marks`): what the links of a
chain make of the expression to their left lists that expression first.

So the spans of the nodes are those of the tokens, and the text that a node's span covers is what the node says
(`covers_of_read`).

**What it does not say.** What a tree looks like that no source was read into.
-/

namespace Formula

/-! ## Nodes in order -/

mutual
/-- **The nodes of an expression in order.** -/
def Expr.inOrder : Expr → List Expr
  | .number value span => [.number value span]
  | .identifier name span => [.identifier name span]
  | .unary sign operand span => .unary sign operand span :: operand.inOrder
  | .binary op left right span => left.inOrder ++ .binary op left right span :: right.inOrder
  | .call name arguments span => .call name arguments span :: inOrderAll arguments
/-- The nodes of some expressions, one expression after the other. -/
def inOrderAll : List Expr → List Expr
  | [] => []
  | e :: es => e.inOrder ++ inOrderAll es
end

/-- **A node is written as a text**: as a literal that denotes its value, or as its name or its symbol. -/
def Expr.WrittenAs : Expr → (text : String) → Prop
  | .number value _, text => Decimal.readFloat text.toList = .ok value
  | .identifier name _, text => name = text
  | .unary sign _ _, text => sign.symbol = text
  | .binary op _ _ _, text => op.symbol = text
  | .call name _ _, text => name = text

/-! ## Tokens that stand for a node -/

/-- The kinds of tokens that leave no node: parentheses, commas and the end. -/
def TokenKind.isSilent : TokenKind → Bool
  | openParen | closeParen | comma | endOfInput => true
  | _ => false

/-- **The tokens that a tree has a node for.** -/
def marking (ts : List Token) : List Token := ts.filter (!·.kind.isSilent)

section Marking

variable {kind : TokenKind}

theorem marking_nil : marking [] = [] := rfl

theorem marking_append (ts us : List Token) : marking (ts ++ us) = marking ts ++ marking us :=
  List.filter_append ts us

theorem marking_mark (t : Terminal kind) (speaks : kind.isSilent = false) (ts : List Token) :
    marking (t.token :: ts) = t.token :: marking ts := by
  refine List.filter_cons_of_pos ?_
  rw [t.kind_eq, speaks]
  rfl

theorem marking_silent (t : Terminal kind) (silent : kind.isSilent = true) (ts : List Token) :
    marking (t.token :: ts) = marking ts := by
  refine List.filter_cons_of_neg ?_
  rw [t.kind_eq, silent]
  exact Bool.false_ne_true

end Marking

theorem BinaryOp.isSilent_kind (op : BinaryOp) : op.kind.isSilent = false := by cases op <;> rfl

theorem Sign.isSilent_kind (sign : Sign) : sign.kind.isSilent = false := by cases sign <;> rfl

/-- **A node stands for a token**: it has the token's span, and is what the token makes it. -/
inductive Expr.Marks : Expr → Token → Prop
  | number {t : Token} (kind : t.kind = .number) : Marks (.number (Parser.literalValue t.lexeme) t.span) t
  | identifier {t : Token} (kind : t.kind = .identifier) : Marks (.identifier t.lexeme t.span) t
  | unary {t : Token} {sign : Sign} {operand : Expr} (kind : t.kind = sign.kind) :
      Marks (.unary sign operand t.span) t
  | binary {t : Token} {op : BinaryOp} {left right : Expr} (kind : t.kind = op.kind) :
      Marks (.binary op left right t.span) t
  | call {t : Token} {arguments : List Expr} (kind : t.kind = .identifier) :
      Marks (.call t.lexeme arguments t.span) t

/-- **What a phrase means has its nodes in the order of some tokens**; the links of a chain put theirs behind those
of the expression to their left. -/
def Nonterminal.Marks : (n : Nonterminal) → n.Meaning → List Token → Prop
  | .links _, link, ts => ∀ left before, List.Forall₂ Expr.Marks left.inOrder before →
      List.Forall₂ Expr.Marks (link left).inOrder (before ++ ts)
  | .further, es, ts => List.Forall₂ Expr.Marks (inOrderAll es) ts
  | .expression, e, ts | .chain _, e, ts | .operand _, e, ts | .unary, e, ts | .power, e, ts | .call, e, ts
  | .basic, e, ts => List.Forall₂ Expr.Marks e.inOrder ts

/-- **The tree of a derivation has a node for each token that leaves one**, in order. -/
theorem Derivation.marks {n : Nonterminal} (d : Derivation n) : n.Marks d.tree (marking d.tokens) := by
  induction d with
  | expression _ ih | product _ ih | factor _ ih | unsigned _ ih | plainPower _ ih | plainCall _ ih => exact ih
  | chain first more ih ih' =>
    rw [tokens, marking_append]
    exact ih' _ _ ih
  | noLink =>
    intro left before h
    rw [tokens, marking_nil, List.append_nil]
    exact h
  | link op level operator right more ih ih' =>
    intro left before h
    have node : List.Forall₂ Expr.Marks (Expr.binary op left right.tree operator.token.span).inOrder
        (before ++ operator.token :: marking right.tokens) := by
      rw [Expr.inOrder]
      exact List.rel_append h (.cons (.binary operator.kind_eq) ih)
    have all := ih' _ _ node
    rw [List.append_assoc, List.cons_append] at all
    rw [tokens, marking_mark _ op.isSilent_kind, marking_append]
    exact all
  | signed sign mark operand ih =>
    rw [tokens, marking_mark _ sign.isSilent_kind, tree, Nonterminal.Marks, Expr.inOrder]
    exact .cons (.unary mark.kind_eq) ih
  | raised base caret exponent ih ih' =>
    rw [tokens, marking_append, marking_mark _ rfl, tree, Nonterminal.Marks, Expr.inOrder]
    exact List.rel_append ih (.cons (.binary caret.kind_eq) ih')
  | emptyCall callee opening closing =>
    rw [tokens, marking_mark _ rfl, marking_silent _ rfl, marking_silent _ rfl, tree, Nonterminal.Marks, Expr.inOrder,
      inOrderAll]
    exact .cons (.call callee.kind_eq) .nil
  | fullCall callee opening first more closing ih ih' =>
    rw [tokens, marking_mark _ rfl, marking_silent _ rfl, marking_append, marking_append, marking_silent closing rfl,
      tree, Nonterminal.Marks, Expr.inOrder, inOrderAll, marking_nil, List.append_nil]
    exact .cons (.call callee.kind_eq) (List.rel_append ih ih')
  | noArgument =>
    rw [tree, Nonterminal.Marks, inOrderAll]
    exact .nil
  | argument comma d more ih ih' =>
    rw [tokens, marking_silent _ rfl, marking_append, tree, Nonterminal.Marks, inOrderAll]
    exact List.rel_append ih ih'
  | number literal =>
    rw [tokens, marking_mark _ rfl, tree, Nonterminal.Marks, Expr.inOrder]
    exact .cons (.number literal.kind_eq) .nil
  | name word =>
    rw [tokens, marking_mark _ rfl, tree, Nonterminal.Marks, Expr.inOrder]
    exact .cons (.identifier word.kind_eq) .nil
  | group opening d closing ih =>
    rw [tokens, marking_silent _ rfl, marking_append, marking_silent _ rfl, marking_nil, List.append_nil]
    exact ih

/-! ## What a node says is written there -/

variable {source : String} {kind : TokenKind} {lexeme : String} {rest : List Char} {t : Token} {e : Expr}

/-- **An operator or a mark of punctuation is written as a message spells it.** -/
theorem text_of_symbolKind? {c : Char} (h : symbolKind? c = some kind) : String.ofList [c] = kind.text := by
  unfold symbolKind? at h
  split at h <;> first | (cases h; rfl) | cases h

/-- A word that is neither a name nor a numeral is written as a message spells it. -/
theorem IsWord.eq_text (h : IsWord kind lexeme.toList rest) (unnamed : kind ≠ .identifier)
    (unnumbered : kind ≠ .number) : lexeme = kind.text := by
  generalize whole : lexeme.toList = cs at h
  cases h with
  | name => exact (unnamed rfl).elim
  | numeral => exact (unnumbered rfl).elim
  | symbol symbol => rw [← text_of_symbolKind? symbol, ← whole, String.ofList_toList]

/-- **A node says what its token is.** -/
theorem Expr.Marks.writtenAs (h : e.Marks t) (word : IsWord t.kind t.lexeme.toList rest) : e.WrittenAs t.lexeme := by
  cases h with
  | number kind =>
    rw [kind] at word
    exact word.readFloat
  | identifier | call => rfl
  | @unary _ sign _ kind =>
    rw [kind] at word
    rw [Expr.WrittenAs, word.eq_text (by cases sign <;> decide) (by cases sign <;> decide)]
    cases sign <;> rfl
  | @binary _ op _ _ kind =>
    rw [kind] at word
    rw [Expr.WrittenAs, word.eq_text (by cases op <;> decide) (by cases op <;> decide)]
    cases op <;> rfl

theorem Expr.Marks.span_eq (h : e.Marks t) : e.span = t.span := by
  cases h <;> rfl

/-- The span of a word covers its text. -/
theorem slice_of_mem_words (ht : t ∈ (Tokens.ofSource source).words) : t.span.slice source = t.lexeme := by
  have covers := (fits_ofSource source).lexeme t ht
  rw [Span.slice, Span.sliceChars_eq, covers, Option.getD_some, String.ofList_toList]

/-- The token of the end leaves no node. -/
theorem marking_toList {ts : Tokens} (ended : ts.stop.token.kind = .endOfInput) :
    marking ts.toList = marking ts.words := by
  have silent : marking [ts.stop.token] = [] := marking_silent ⟨ts.stop.token, ended⟩ rfl []
  rw [Tokens.toList, marking_append, silent, List.append_nil]

/-- Where nodes stand for tokens, each node stands for one of them. -/
theorem exists_marks {es : List Expr} {ts : List Token} (h : List.Forall₂ Expr.Marks es ts) :
    ∀ e ∈ es, ∃ t ∈ ts, e.Marks t := by
  induction h with
  | nil => exact fun _ he => nomatch he
  | @cons _ t _ _ head _ ih =>
    refine List.forall_mem_cons.mpr ⟨⟨t, List.mem_cons_self, head⟩, fun e he => ?_⟩
    obtain ⟨t, ht, marks⟩ := ih e he
    exact ⟨t, List.mem_cons_of_mem _ ht, marks⟩

/-- **A tree covers its source**: its nodes in order have the spans of the tokens that leave nodes, each of them once,
and each node is written as the text that its span covers. -/
structure Expr.Covers (root : Expr) (source : String) : Prop where
  spans : root.inOrder.map Expr.span = (marking (Tokens.ofSource source).toList).map Token.span
  ordered : (root.inOrder.map Expr.span).Pairwise (·.offset < ·.offset)
  written : ∀ e ∈ root.inOrder, e.WrittenAs (e.span.slice source)

/-- **A tree that is read covers its source.** -/
theorem covers_of_read {a : Ast} (h : (Ast.read source).result = .ok a) : a.root.Covers source := by
  obtain ⟨d, words, -, ended, rfl⟩ := exists_derivation_of_read h
  have marks : List.Forall₂ Expr.Marks d.tree.inOrder (marking (Tokens.ofSource source).words) := by
    rw [words]
    exact d.marks
  have spans : d.tree.inOrder.map Expr.span = (marking (Tokens.ofSource source).toList).map Token.span := by
    have same := marks.imp fun _ _ marks => marks.span_eq
    rw [marking_toList ended, ← List.forall₂_eq_eq_eq, List.forall₂_map_left_iff, List.forall₂_map_right_iff]
    exact same
  exact {
    spans
    ordered := by
      have sorted := (Tokens.inOrder_ofSource source).sorted
      rw [spans, List.pairwise_map]
      exact sorted.filter _
    written := by
      intro e he
      obtain ⟨t, ht, marks⟩ := exists_marks marks e he
      have word := List.mem_of_mem_filter ht
      obtain ⟨-, rest, -, -, isWord⟩ := (reading_ofChars 0 source.toList).exists_place word
      rw [marks.span_eq, slice_of_mem_words word]
      exact marks.writtenAs isWord }

/-- A product of a signed call and a name. -/
def signedCall : Ast where
  source := "-f(x, 2)*y"
  root := .binary .mul
    (.unary .minus (.call "f" [.identifier "x" ⟨3, 1⟩, .number (Parser.literalValue "2") ⟨6, 1⟩] ⟨1, 1⟩) ⟨0, 1⟩)
    (.identifier "y" ⟨9, 1⟩) ⟨8, 1⟩

/-- The sign, the callee and its arguments, the operator and the last name have a node each. -/
theorem covers_signedCall :
    (Ast.read signedCall.source).result = .ok signedCall ∧ signedCall.root.Covers signedCall.source := by
  have scan : Tokens.ofSource signedCall.source =
      ⟨[⟨.minus, 0, "-"⟩, ⟨.identifier, 1, "f"⟩, ⟨.openParen, 2, "("⟩, ⟨.identifier, 3, "x"⟩, ⟨.comma, 4, ","⟩,
        ⟨.number, 6, "2"⟩, ⟨.closeParen, 7, ")"⟩, ⟨.star, 8, "*"⟩, ⟨.identifier, 9, "y"⟩], .endOfInput 10⟩ := by
    have source : signedCall.source.toList = ['-', 'f', '(', 'x', ',', ' ', '2', ')', '*', 'y'] := rfl
    rw [Tokens.ofSource, source]
    repeat rw [Tokens.ofChars_of_word rfl]
    rw [Tokens.ofChars_of_stop rfl]
    rfl
  have read : (Ast.read signedCall.source).result = .ok signedCall := by
    rw [read_result, scan]
    rfl
  exact ⟨read, covers_of_read read⟩

end Formula
