import Formula.Proofs.Parse.Acceptance
import Formula.Proofs.Token.Reading

/-!
# Spellings — texts that are read as intended

A text **spells** a phrase of the grammar when, wherever it stands and whatever follows it, a scan reads words
that are derived from the phrase, the derivation needs no more than some levels, and its tree is a good one
(`Spells`). What follows must not carry the last word of the text on (`Delimits`).

Spellings are put together the way the grammar is: a numeral or a name is a basic phrase, a basic phrase with
one more level is an expression, an expression in parentheses is a basic phrase again, and so on. Each step
says how many levels it needs, so that the levels of a text are read off the way it is put together. A whole
source that spells an expression within the limit has a good tree (`Spells.read`).
-/

namespace Formula

/-! ## Words of a text -/

/-- Some tokens with others in front. -/
def Tokens.prepend (ts : Tokens) (words : List Token) : Tokens := { ts with words := words ++ ts.words }

/-- **A text is scanned as some words** where it stands, whatever follows that delimits it. -/
def Scans (offset : Nat) (cs : List Char) (words : List Token) : Prop :=
  ∀ rest, Delimits rest →
    Tokens.ofChars offset (cs ++ rest) = (Tokens.ofChars (offset + bytes cs) rest).prepend words

variable {offset : Nat} {cs ds lexeme : List Char} {c : Char} {kind : TokenKind} {words words' : List Token}

theorem scans_word (h : ∀ rest, Delimits rest → IsWord kind lexeme rest) (offset : Nat) :
    Scans offset lexeme [⟨kind, offset, String.ofList lexeme⟩] :=
  fun rest delimits => Tokens.ofChars_of_word ((h rest delimits).step offset)

/-- **A text goes on with another**, which delimits it. -/
theorem Scans.append (h : Scans offset cs words) (h' : Scans (offset + bytes cs) ds words')
    (delimits : ∀ rest, Delimits rest → Delimits (ds ++ rest)) : Scans offset (cs ++ ds) (words ++ words') := by
  intro rest hrest
  rw [List.append_assoc, h _ (delimits rest hrest), h' rest hrest, bytes_append, Nat.add_assoc]
  simp only [Tokens.prepend, List.append_assoc]

/-- A symbol needs nothing that delimits it. -/
theorem Scans.symbol (symbol : symbolKind? c = some kind) (h : Scans (offset + bytes [c]) cs words) :
    Scans offset (c :: cs) (⟨kind, offset, String.ofList [c]⟩ :: words) := by
  intro rest delimits
  have word : IsWord kind [c] (cs ++ rest) := .symbol symbol
  have first := Tokens.ofChars_of_word (word.step offset)
  rw [List.singleton_append] at first
  rw [List.cons_append, first, h rest delimits]
  have length : bytes (c :: cs) = bytes [c] + bytes cs := bytes_append [c] cs
  rw [length, Nat.add_assoc]
  rfl

theorem Scans.blank (h : Scans (offset + 1) cs words) : Scans offset (' ' :: cs) words := by
  intro rest delimits
  have passed : step offset (' ' :: (cs ++ rest)) = step (offset + 1) (cs ++ rest) := if_pos rfl
  have same : Tokens.ofChars offset (' ' :: (cs ++ rest)) = Tokens.ofChars (offset + 1) (cs ++ rest) := by
    cases next : step (offset + 1) (cs ++ rest) with
    | stop s => rw [Tokens.ofChars_of_stop next, Tokens.ofChars_of_stop (passed.trans next)]
    | word t offset' rest' => rw [Tokens.ofChars_of_word next, Tokens.ofChars_of_word (passed.trans next)]
  have length : bytes (' ' :: cs) = 1 + bytes cs := bytes_cons ' ' cs
  rw [List.cons_append, same, h rest delimits, length, Nat.add_assoc]

/-! ## Phrases -/

/-- **A text spells a phrase** within some levels, with a good tree. -/
def Spells (n : Nonterminal) (levels : Nat) (cs : List Char) (good : n.Meaning → Prop) : Prop :=
  ∀ offset, ∃ d : Derivation n, Scans offset cs d.tokens ∧
    (∀ depth, depth + levels ≤ maxNesting → d.Within depth) ∧ good d.tree

namespace Spells

variable {n : Nonterminal} {levels levels' : Nat} {good good' : n.Meaning → Prop}

theorem mono (h : Spells n levels cs good) (le : levels ≤ levels') (imp : ∀ e, good e → good' e) :
    Spells n levels' cs good' := by
  intro offset
  obtain ⟨d, scans, within, tree⟩ := h offset
  exact ⟨d, scans, fun depth room => within depth (by omega), imp _ tree⟩

end Spells

/-! ## Basic phrases -/

/-- A numeral is a word wherever it is delimited. -/
theorem IsNumeral.isWord (h : IsNumeral cs) {rest : List Char} (delimits : Delimits rest) : IsWord .number cs rest := by
  have measured := h.whole rest delimits
  obtain ⟨-, ascii⟩ := takes_numeralLength (cs ++ rest)
  rw [measured, List.take_left] at ascii
  exact .numeral h.some (measured.trans (bytes_eq_length ascii).symm)

/-- **A numeral** is a basic phrase. -/
theorem spells_numeral (h : IsNumeral cs) :
    Spells .basic 0 cs fun e => ∃ span, e = .number (Parser.literalValue (String.ofList cs)) span := fun offset =>
  ⟨.number ⟨⟨.number, offset, String.ofList cs⟩, rfl⟩, scans_word (fun _ => h.isWord) offset, fun _ _ => trivial,
    _, rfl⟩

/-- **A name as it is written.** -/
structure IsName (cs : List Char) : Prop where
  begins : ∃ c ∈ cs.head?, isNameStart c = true
  parts : ∀ c ∈ cs, isNamePart c = true

theorem IsName.isWord (h : IsName cs) {rest : List Char} (delimits : Delimits rest) : IsWord .identifier cs rest := by
  obtain ⟨⟨c, first, begins⟩, parts⟩ := h
  obtain ⟨ds, rfl⟩ := List.head?_eq_some_iff.mp first
  exact .name begins (fun d hd => parts d (List.mem_cons_of_mem c hd)) fun d hd => (delimits d hd).1

/-- **A name** is a basic phrase. -/
theorem spells_name (h : IsName cs) :
    Spells .basic 0 cs fun e => ∃ span, e = .identifier (String.ofList cs) span := fun offset =>
  ⟨.name ⟨⟨.identifier, offset, String.ofList cs⟩, rfl⟩, scans_word (fun _ => h.isWord) offset, fun _ _ => trivial,
    _, rfl⟩

section Expressions

variable {levels : Nat} {good good' : Expr → Prop}

/-- **An expression in parentheses** is a basic phrase. -/
theorem spells_group (h : Spells .expression levels cs good) :
    Spells .basic levels ('(' :: (cs ++ [')'])) good := by
  intro offset
  obtain ⟨d, scans, within, tree⟩ := h (offset + bytes ['('])
  have closing : Scans (offset + bytes ['('] + bytes cs) [')'] [⟨.closeParen, offset + bytes ['('] + bytes cs, ")"⟩] :=
    scans_word (fun _ _ => .symbol rfl) _
  have inner := scans.append closing fun rest _ => delimits_cons rfl (by decide) rest
  exact ⟨.group ⟨⟨.openParen, offset, "("⟩, rfl⟩ d ⟨⟨.closeParen, offset + bytes ['('] + bytes cs, ")"⟩, rfl⟩,
    inner.symbol rfl, within, tree⟩

/-! ## Signs and operators -/

/-- A basic phrase as a unary, one level deeper. -/
def Derivation.ofBasic (d : Derivation .basic) : Derivation .unary := .unsigned (.plainPower (.plainCall d))

/-- A unary as a chain of one factor. -/
def Derivation.ofFactor (d : Derivation .unary) : Derivation (.chain .multiplication) := .chain (.factor d) .noLink

/-- A product as a sum of one term. -/
def Derivation.ofTerm (d : Derivation (.chain .multiplication)) : Derivation .expression :=
  .expression (.chain (.product d) .noLink)

section Within

variable {depth : Nat}

theorem Derivation.within_ofBasic {d : Derivation .basic} (room : depth + 1 ≤ maxNesting)
    (within : d.Within (depth + 1)) : d.ofBasic.Within depth := ⟨room, within⟩

theorem Derivation.within_ofFactor {d : Derivation .unary} (room : depth ≤ maxNesting) (within : d.Within depth) :
    d.ofFactor.Within depth := ⟨room, within, trivial⟩

theorem Derivation.within_ofTerm {d : Derivation (.chain .multiplication)} (room : depth ≤ maxNesting)
    (within : d.Within depth) : d.ofTerm.Within depth := ⟨room, within, trivial⟩

end Within

/-- A basic phrase is a unary with one level more. -/
theorem spells_unary (h : Spells .basic levels cs good) : Spells .unary (levels + 1) cs good := by
  intro offset
  obtain ⟨d, scans, within, tree⟩ := h offset
  exact ⟨.ofBasic d, scans, fun depth room => Derivation.within_ofBasic (by omega) (within _ (by omega)), tree⟩

/-- A unary is an expression. -/
theorem spells_expression (h : Spells .unary levels cs good) : Spells .expression levels cs good := by
  intro offset
  obtain ⟨d, scans, within, tree⟩ := h offset
  refine ⟨.ofTerm (.ofFactor d), ?_, fun depth room => ?_, tree⟩
  · have tokens : (Derivation.ofTerm (.ofFactor d)).tokens = d.tokens := by
      simp only [Derivation.ofTerm, Derivation.ofFactor, Derivation.tokens, List.append_nil]
    rw [tokens]
    exact scans
  · have here : depth ≤ maxNesting := by omega
    exact Derivation.within_ofTerm here (Derivation.within_ofFactor here (within depth room))

/-- **A minus and a unary** are a unary with one level more. -/
theorem spells_negation (h : Spells .unary levels cs good) :
    Spells .unary (levels + 1) ('-' :: cs) fun e => ∃ operand span, e = .unary .minus operand span ∧ good operand := by
  intro offset
  obtain ⟨d, scans, within, tree⟩ := h (offset + bytes ['-'])
  exact ⟨.signed .minus ⟨⟨.minus, offset, "-"⟩, rfl⟩ d, scans.symbol rfl,
    fun depth room => ⟨by omega, within _ (by omega)⟩, _, _, rfl, tree⟩

theorem exists_symbol (op : BinaryOp) : ∃ c, op.symbol.toList = [c] ∧ symbolKind? c = some op.kind := by
  cases op <;> exact ⟨_, rfl, rfl⟩

/-- **Two basic phrases with an operator between them** are an expression with two levels more, one for the place
in the chain or for the operands, and one for the exponent of a power. -/
theorem spells_operation (op : BinaryOp) (hl : Spells .basic levels cs good) (hr : Spells .basic levels ds good') :
    Spells .expression (levels + 2) (cs ++ ' ' :: (op.symbol.toList ++ ' ' :: ds))
      fun e => ∃ l r span, e = .binary op l r span ∧ good l ∧ good' r := by
  intro offset
  obtain ⟨c, text, symbol⟩ := exists_symbol op
  obtain ⟨dl, scansL, withinL, treeL⟩ := hl offset
  obtain ⟨dr, scansR, withinR, treeR⟩ := hr (offset + bytes cs + 1 + bytes [c] + 1)
  let operator : Terminal op.kind := ⟨⟨op.kind, offset + bytes cs + 1, String.ofList [c]⟩, rfl⟩
  have scans : Scans offset (cs ++ ' ' :: (op.symbol.toList ++ ' ' :: ds)) (dl.tokens ++ operator.token :: dr.tokens) := by
    rw [text]
    exact scansL.append (scansR.blank.symbol symbol).blank fun rest _ => delimits_cons rfl (by decide) _
  have levels_le {depth : Nat} (room : depth + (levels + 2) ≤ maxNesting) :
      depth ≤ maxNesting ∧ depth + 1 ≤ maxNesting := by omega
  -- a sum, a product or a power, by the tier of the operator
  cases tier : op.tier? with
  | some t =>
    cases t with
    | addition =>
      refine ⟨.expression (.chain (.product (.ofFactor (.ofBasic dl)))
        (.link op tier operator (.product (.ofFactor (.ofBasic dr))) .noLink)), ?_, fun depth room => ?_,
        _, _, _, rfl, treeL, treeR⟩
      · simpa only [Derivation.ofFactor, Derivation.ofBasic, Derivation.tokens, List.append_nil] using scans
      · obtain ⟨here, next⟩ := levels_le room
        have left := Derivation.within_ofFactor here (Derivation.within_ofBasic next (withinL _ (by omega)))
        have right := Derivation.within_ofFactor here (Derivation.within_ofBasic next (withinR _ (by omega)))
        exact ⟨next, left, right, trivial⟩
    | multiplication =>
      refine ⟨.ofTerm (.chain (.factor (.ofBasic dl)) (.link op tier operator (.factor (.ofBasic dr)) .noLink)), ?_,
        fun depth room => ?_, _, _, _, rfl, treeL, treeR⟩
      · simpa only [Derivation.ofTerm, Derivation.ofBasic, Derivation.tokens, List.append_nil] using scans
      · obtain ⟨here, next⟩ := levels_le room
        have left := Derivation.within_ofBasic next (withinL _ (by omega))
        have right := Derivation.within_ofBasic next (withinR _ (by omega))
        exact Derivation.within_ofTerm here ⟨next, left, right, trivial⟩
  | none =>
    obtain rfl : op = .pow := by
      cases op <;> first | rfl | cases tier
    refine ⟨.ofTerm (.ofFactor (.unsigned (.raised (.plainCall dl) operator (.ofBasic dr)))), ?_, fun depth room => ?_,
      _, _, _, rfl, treeL, treeR⟩
    · simpa only [Derivation.ofTerm, Derivation.ofFactor, Derivation.ofBasic, Derivation.tokens, List.append_nil]
        using scans
    · obtain ⟨here, next⟩ := levels_le room
      have right := Derivation.within_ofBasic (show depth + 1 + 1 ≤ maxNesting by omega) (withinR _ (by omega))
      exact Derivation.within_ofTerm here (Derivation.within_ofFactor here ⟨next, withinL _ (by omega), right⟩)

/-! ## Sources -/

/-- **A source that spells an expression within the limit has a good tree.** -/
theorem Spells.read {source : String} (h : Spells .expression levels source.toList good) (room : levels ≤ maxNesting) :
    ∃ root, (Ast.read source).result = .ok ⟨source, root⟩ ∧ good root := by
  obtain ⟨d, scans, within, tree⟩ := h 0
  have words : Tokens.ofSource source = ⟨d.tokens, .endOfInput (0 + bytes source.toList)⟩ := by
    have scanned := scans [] delimits_nil
    have ended : Tokens.ofChars (0 + bytes source.toList) [] = ⟨[], .endOfInput (0 + bytes source.toList)⟩ :=
      Tokens.ofChars_of_stop rfl
    rw [List.append_nil, ended] at scanned
    rw [Tokens.ofSource, scanned, Tokens.prepend, List.append_nil]
  refine ⟨d.tree, read_of_derivation (congrArg Tokens.words words) (within 0 (by omega)) ?_, tree⟩
  rw [words]
  rfl

end Expressions

end Formula
