import Formula.Expr.Outline
import Formula.Proofs.Compile.Offence

/-!
# Outlines — nothing of a tree is lost in its outline but its spans

An outline is decided line by line. Where a line ends shows in the text, and so does its depth, since the text of a
line begins with no blank: two outlines with the same text have the same lines (`flatMap_render_injective`).

Lines decide a tree from the front. The kind of a node says which headings follow it, and the slice beside the kind
says what the node is. Only a call does not say how many arguments it has: there is one more for each heading at the
depth of the call, and what comes after the call lies less deep (`Shallower`). So lines that begin with those of a
tree decide the tree and where its lines end (`Expr.outlineLines_inj`).

A node is shown as the slice that its span covers, and not as what it says. In a tree that was read the slice is one
word and says the same (`Expr.Legible`).

**What it does not say.** That trees which are the same up to their spans have the same outline: a number can be
written in more than one way.
-/

namespace Formula

open Decimal

/-! ## Expressions without places -/

mutual
/-- **An expression without its places**: every span is put to none. -/
def Expr.unplaced : Expr → Expr
  | .number value _ => .number value ⟨0, 0⟩
  | .identifier name _ => .identifier name ⟨0, 0⟩
  | .unary sign operand _ => .unary sign operand.unplaced ⟨0, 0⟩
  | .binary op left right _ => .binary op left.unplaced right.unplaced ⟨0, 0⟩
  | .call name arguments _ => .call name (unplacedAll arguments) ⟨0, 0⟩
/-- Some expressions without their places. -/
def unplacedAll : List Expr → List Expr
  | [] => []
  | e :: es => e.unplaced :: unplacedAll es
end

/-! ## Lines in a text -/

/-- **A text is plain**: it begins with no blank, and no line ends in it. -/
structure IsPlain (cs : List Char) : Prop where
  begins : ∃ c tail, cs = c :: tail ∧ c ≠ ' '
  oneLine : '\n' ∉ cs

theorem IsPlain.append {cs ds : List Char} (h : IsPlain cs) (oneLine : '\n' ∉ ds) : IsPlain (cs ++ ds) := by
  obtain ⟨⟨c, tail, rfl, unblank⟩, front⟩ := h
  exact ⟨⟨c, tail ++ ds, rfl, unblank⟩, List.not_mem_append front oneLine⟩

namespace OutlineLine

variable {l m : OutlineLine} {ls ms : List OutlineLine}

/-- **A text is cut in one way** in front of the first character that is not of a kind. -/
theorem append_cons_inj {p : Char → Bool} {cs ds as bs : List Char} {a b : Char} (hcs : ∀ c ∈ cs, p c = true)
    (hds : ∀ d ∈ ds, p d = true) (ha : p a = false) (hb : p b = false) (h : cs ++ a :: as = ds ++ b :: bs) :
    cs = ds ∧ a :: as = b :: bs := by
  have front := congrArg (List.takeWhile p) h
  rw [List.takeWhile_append_of_pos hcs, List.takeWhile_append_of_pos hds,
    List.takeWhile_cons_of_neg (Bool.eq_false_iff.mp ha), List.takeWhile_cons_of_neg (Bool.eq_false_iff.mp hb),
    List.append_nil, List.append_nil] at front
  subst front
  exact ⟨rfl, List.append_cancel_left h⟩

/-- **A text decides the line that it begins with**, and what comes after it. -/
theorem render_append_inj (hl : IsPlain l.text) (hm : IsPlain m.text) {cs ds : List Char}
    (h : l.render ++ cs = m.render ++ ds) : l = m ∧ cs = ds := by
  obtain ⟨d, ltext⟩ := l
  obtain ⟨d', mtext⟩ := m
  obtain ⟨⟨a, left, rfl, unblank⟩, leftLine⟩ := hl
  obtain ⟨⟨b, right, rfl, unblank'⟩, rightLine⟩ := hm
  have blanks (n : Nat) : ∀ c ∈ List.replicate n ' ', (c == ' ') = true := fun c hc =>
    beq_iff_eq.mpr (List.eq_of_mem_replicate hc)
  have lines {cs : List Char} (h : '\n' ∉ cs) : ∀ c ∈ cs, (c != '\n') = true := fun c hc =>
    bne_iff_ne.mpr fun same => h (same ▸ hc)
  simp only [render, List.append_assoc, List.cons_append] at h
  obtain ⟨indents, rest⟩ := append_cons_inj (blanks _) (blanks _) (beq_false_of_ne unblank)
    (beq_false_of_ne unblank') h
  have depth : 2 * d = 2 * d' := by simpa only [List.length_replicate] using congrArg List.length indents
  obtain rfl : d = d' := Nat.eq_of_mul_eq_mul_left (by decide) depth
  rw [← List.cons_append, ← List.cons_append] at rest
  obtain ⟨texts, rest⟩ := append_cons_inj (lines leftLine) (lines rightLine) rfl rfl rest
  exact ⟨congrArg (OutlineLine.mk d) texts, (List.cons.inj rest).2⟩

theorem render_ne_nil (l : OutlineLine) : l.render ≠ [] :=
  List.append_ne_nil_of_right_ne_nil _ (List.cons_ne_nil _ _)

/-- **A text decides its lines.** -/
theorem flatMap_render_injective (hls : ∀ l ∈ ls, IsPlain l.text) (hms : ∀ m ∈ ms, IsPlain m.text)
    (h : ls.flatMap render = ms.flatMap render) : ls = ms := by
  induction ls generalizing ms with
  | nil =>
    cases ms with
    | nil => rfl
    | cons m ms => exact absurd (List.append_eq_nil_iff.mp h.symm).1 m.render_ne_nil
  | cons l ls ih =>
    cases ms with
    | nil => exact absurd (List.append_eq_nil_iff.mp h).1 l.render_ne_nil
    | cons m ms =>
      rw [List.forall_mem_cons] at hls hms
      rw [List.flatMap_cons, List.flatMap_cons] at h
      obtain ⟨rfl, rest⟩ := render_append_inj hls.1 hms.1 h
      rw [ih hls.2 hms.2 rest]

/-! ## The lines that there are -/

variable {name value : List Char}

theorem isPlain_field (depth : Nat) (hname : IsPlain name) (hvalue : '\n' ∉ value) :
    IsPlain (field depth name value).text :=
  ((hname.append (by decide)).append hvalue).append (by decide)

theorem isPlain_heading (depth : Nat) (hname : IsPlain name) : IsPlain (heading depth name).text :=
  hname.append (by decide)

end OutlineLine

theorem isPlain_argumentName (i : Nat) : IsPlain (argumentName i) := by
  have digits : '\n' ∉ (Nat.repr i).toList := by
    intro h
    rw [Nat.repr, String.toList_ofList] at h
    cases areDigits_digits i _ h
  have opening : IsPlain "args[".toList := ⟨⟨'a', _, rfl, by decide⟩, by decide⟩
  exact (opening.append digits).append (by decide)

theorem Expr.oneLine_kindName (e : Expr) : '\n' ∉ e.kindName.toList := by
  cases e <;> rw [kindName] <;> decide

/-! ## The lines of a tree -/

/-- **A node is legible in a source**: it is written as the text that its span covers, and on one line. -/
structure Expr.Legible (source : List Char) (e : Expr) : Prop where
  written : e.WrittenAs (String.ofList (e.span.sliceChars source))
  oneLine : '\n' ∉ e.span.sliceChars source

/-- **Lines begin less deep** than at a depth, if there are any. -/
def Shallower (depth : Nat) (lines : List OutlineLine) : Prop := ∀ l ∈ lines.head?, l.depth < depth

section Lines

variable {source source' : List Char} {depth : Nat} {e e' : Expr} {after after' : List OutlineLine}

theorem shallower_nil : Shallower depth [] := fun _ h => nomatch h

/-- A heading lies less deep than what it heads. -/
theorem shallower_heading (name : List Char) : Shallower (depth + 1) (.heading depth name :: after) := by
  rintro _ ⟨⟩
  exact Nat.lt_succ_self depth

theorem Shallower.deeper (h : Shallower depth after) : Shallower (depth + 1) after :=
  fun l hl => Nat.lt_succ_of_lt (h l hl)

/-- Behind what lies less deep, the arguments of a call lie less deep than those of each of them. -/
theorem shallower_outlineArguments {i : Nat} (es : List Expr) (h : Shallower depth after) :
    Shallower (depth + 1) (outlineArguments source depth i es after) := by
  cases es with
  | nil => exact h.deeper
  | cons e es => exact shallower_heading _

theorem field_inj {name value value' : List Char}
    (h : OutlineLine.field depth name value = OutlineLine.field depth name value') : value = value' :=
  List.append_cancel_left (List.append_cancel_right (OutlineLine.mk.inj h).2)

/-- **Every node shows** its kind and its slice. -/
theorem nodeLines_inj (h : nodeLines source depth e after = nodeLines source' depth e' after') :
    e.kindName = e'.kindName ∧ e.span.sliceChars source = e'.span.sliceChars source' ∧ after = after' := by
  obtain ⟨kinds, h⟩ := List.cons.inj h
  obtain ⟨slices, rest⟩ := List.cons.inj h
  exact ⟨String.toList_inj.mp (field_inj kinds), field_inj slices, rest⟩

/-- The lines of a tree begin with those of its root. -/
theorem Expr.exists_nodeLines (e : Expr) (after : List OutlineLine) :
    ∃ more, e.outlineLines source depth after = nodeLines source depth e more := by
  cases e <;> exact ⟨_, rfl⟩

end Lines

theorem Expr.mem_preOrder_self (e : Expr) : e ∈ e.preOrder := by
  cases e <;> exact List.mem_cons_self

/-- **Two nodes are the same by themselves**, whatever is below them and wherever they stand. -/
inductive Expr.SameNode : Expr → Expr → Prop
  | number {value : Float} {s t : Span} : SameNode (.number value s) (.number value t)
  | identifier {name : String} {s t : Span} : SameNode (.identifier name s) (.identifier name t)
  | unary {sign : Sign} {e e' : Expr} {s t : Span} : SameNode (.unary sign e s) (.unary sign e' t)
  | binary {op : BinaryOp} {l l' r r' : Expr} {s t : Span} : SameNode (.binary op l r s) (.binary op l' r' t)
  | call {name : String} {as as' : List Expr} {s t : Span} : SameNode (.call name as s) (.call name as' t)

theorem Sign.symbol_injective {x y : Sign} (h : x.symbol = y.symbol) : x = y := by
  cases x <;> cases y <;> first | rfl | exact absurd h (by decide)

theorem BinaryOp.symbol_injective {x y : BinaryOp} (h : x.symbol = y.symbol) : x = y := by
  cases x <;> cases y <;> first | rfl | exact absurd h (by decide)

/-- **Nodes of one kind that are written as one text** are the same. -/
theorem Expr.WrittenAs.sameNode {e e' : Expr} {text : String} (kinds : e.kindName = e'.kindName)
    (h : e.WrittenAs text) (h' : e'.WrittenAs text) : e.SameNode e' := by
  cases e <;> cases e' <;> try simp [kindName] at kinds
  case number.number =>
    obtain rfl := Except.ok.inj (h.symm.trans h')
    exact .number
  case identifier.identifier =>
    obtain rfl := h.trans h'.symm
    exact .identifier
  case unary.unary =>
    obtain rfl := Sign.symbol_injective (h.trans h'.symm)
    exact .unary
  case binary.binary =>
    obtain rfl := BinaryOp.symbol_injective (h.trans h'.symm)
    exact .binary
  case call.call =>
    obtain rfl := h.trans h'.symm
    exact .call

section Faithful

variable {source source' : List Char}

/-- **The first lines of a tree decide its root.** -/
theorem Expr.sameNode_of_outlineLines {e e' : Expr} {depth : Nat} {after after' : List OutlineLine}
    (h : e.outlineLines source depth after = e'.outlineLines source' depth after')
    (legible : ∀ n ∈ e.preOrder, n.Legible source) (legible' : ∀ n ∈ e'.preOrder, n.Legible source') :
    e.SameNode e' := by
  obtain ⟨more, lines⟩ := @exists_nodeLines source depth e after
  obtain ⟨more', lines'⟩ := @exists_nodeLines source' depth e' after'
  rw [lines, lines'] at h
  obtain ⟨kinds, slices, -⟩ := nodeLines_inj h
  have written' := (legible' e' e'.mem_preOrder_self).written
  rw [← slices] at written'
  exact (legible e e.mem_preOrder_self).written.sameNode kinds written'

mutual
/-- **Lines that begin with those of a tree decide the tree**, and where its lines end. -/
theorem Expr.outlineLines_inj : ∀ (e e' : Expr) {depth : Nat} {after after' : List OutlineLine},
    e.outlineLines source depth after = e'.outlineLines source' depth after' →
    (∀ n ∈ e.preOrder, n.Legible source) → (∀ n ∈ e'.preOrder, n.Legible source') →
    Shallower depth after → Shallower depth after' → e.unplaced = e'.unplaced ∧ after = after'
  | .number _ _, e', depth, after, after', h, legible, legible', _, _ => by
    cases Expr.sameNode_of_outlineLines h legible legible' with
    | number => exact ⟨rfl, (nodeLines_inj h).2.2⟩
  | .identifier _ _, e', depth, after, after', h, legible, legible', _, _ => by
    cases Expr.sameNode_of_outlineLines h legible legible' with
    | identifier => exact ⟨rfl, (nodeLines_inj h).2.2⟩
  | .unary _ operand _, e', depth, after, after', h, legible, legible', shallow, shallow' => by
    cases Expr.sameNode_of_outlineLines h legible legible' with
    | @unary _ _ operand' =>
      obtain ⟨-, -, rest⟩ := nodeLines_inj h
      obtain ⟨same, rest⟩ := Expr.outlineLines_inj operand operand' (List.cons.inj rest).2
        (List.forall_mem_cons.mp legible).2 (List.forall_mem_cons.mp legible').2 shallow.deeper shallow'.deeper
      exact ⟨by rw [Expr.unplaced, Expr.unplaced, same], rest⟩
  | .binary _ left right _, e', depth, after, after', h, legible, legible', shallow, shallow' => by
    cases Expr.sameNode_of_outlineLines h legible legible' with
    | @binary _ _ left' _ right' =>
      obtain ⟨-, -, rest⟩ := nodeLines_inj h
      obtain ⟨onLeft, onRight⟩ := List.forall_mem_append.mp (List.forall_mem_cons.mp legible).2
      obtain ⟨onLeft', onRight'⟩ := List.forall_mem_append.mp (List.forall_mem_cons.mp legible').2
      obtain ⟨same, rest⟩ := Expr.outlineLines_inj left left' (List.cons.inj rest).2 onLeft onLeft'
        (shallower_heading _) (shallower_heading _)
      obtain ⟨same', rest⟩ := Expr.outlineLines_inj right right' (List.cons.inj rest).2 onRight onRight'
        shallow.deeper shallow'.deeper
      exact ⟨by rw [Expr.unplaced, Expr.unplaced, same, same'], rest⟩
  | .call _ arguments _, e', depth, after, after', h, legible, legible', shallow, shallow' => by
    cases Expr.sameNode_of_outlineLines h legible legible' with
    | @call _ _ arguments' =>
      obtain ⟨-, -, rest⟩ := nodeLines_inj h
      obtain ⟨same, rest⟩ := outlineArguments_inj arguments arguments' rest (List.forall_mem_cons.mp legible).2
        (List.forall_mem_cons.mp legible').2 shallow shallow'
      exact ⟨by rw [Expr.unplaced, Expr.unplaced, same], rest⟩
/-- Lines that begin with those of some arguments decide the arguments, and where their lines end. -/
theorem outlineArguments_inj : ∀ (es es' : List Expr) {depth i : Nat} {after after' : List OutlineLine},
    outlineArguments source depth i es after = outlineArguments source' depth i es' after' →
    (∀ n ∈ preOrderAll es, n.Legible source) → (∀ n ∈ preOrderAll es', n.Legible source') →
    Shallower depth after → Shallower depth after' → unplacedAll es = unplacedAll es' ∧ after = after'
  | [], [], _, _, _, _, h, _, _, _, _ => ⟨rfl, h⟩
  -- where one list ends and the other one does not, a heading would come after the one that ends
  | [], e' :: es', depth, i, after, after', h, _, _, shallow, _ => by
    obtain rfl : after = _ := h
    exact absurd (shallow _ rfl) (Nat.lt_irrefl _)
  | e :: es, [], depth, i, after, after', h, _, _, _, shallow' => by
    obtain rfl : _ = after' := h
    exact absurd (shallow' _ rfl) (Nat.lt_irrefl _)
  | e :: es, e' :: es', depth, i, after, after', h, legible, legible', shallow, shallow' => by
    obtain ⟨onFirst, onMore⟩ := List.forall_mem_append.mp legible
    obtain ⟨onFirst', onMore'⟩ := List.forall_mem_append.mp legible'
    obtain ⟨same, rest⟩ := Expr.outlineLines_inj e e' (List.cons.inj h).2 onFirst onFirst'
      (shallower_outlineArguments es shallow) (shallower_outlineArguments es' shallow')
    obtain ⟨same', rest⟩ := outlineArguments_inj es es' rest onMore onMore' shallow shallow'
    exact ⟨by rw [unplacedAll, unplacedAll, same, same'], rest⟩
end

/-! ## The lines of a legible tree are plain -/

theorem isPlain_nodeLines {e : Expr} {after : List OutlineLine} (depth : Nat)
    (legible : ∀ n ∈ e.preOrder, n.Legible source) (plain : ∀ l ∈ after, IsPlain l.text) :
    ∀ l ∈ nodeLines source depth e after, IsPlain l.text := by
  have kind : IsPlain "type".toList := ⟨⟨'t', _, rfl, by decide⟩, by decide⟩
  have slice : IsPlain "value".toList := ⟨⟨'v', _, rfl, by decide⟩, by decide⟩
  exact List.forall_mem_cons.mpr ⟨OutlineLine.isPlain_field depth kind e.oneLine_kindName,
    List.forall_mem_cons.mpr ⟨OutlineLine.isPlain_field depth slice (legible e e.mem_preOrder_self).oneLine, plain⟩⟩

theorem isPlain_headed {name : List Char} {after : List OutlineLine} (depth : Nat) (hname : IsPlain name)
    (plain : ∀ l ∈ after, IsPlain l.text) : ∀ l ∈ .heading depth name :: after, IsPlain l.text :=
  List.forall_mem_cons.mpr ⟨OutlineLine.isPlain_heading depth hname, plain⟩

mutual
/-- **The lines of a legible tree are plain.** -/
theorem Expr.isPlain_outlineLines : ∀ (e : Expr) {depth : Nat} {after : List OutlineLine},
    (∀ n ∈ e.preOrder, n.Legible source) → (∀ l ∈ after, IsPlain l.text) →
    ∀ l ∈ e.outlineLines source depth after, IsPlain l.text
  | .number _ _, depth, _, legible, plain => isPlain_nodeLines depth legible plain
  | .identifier _ _, depth, _, legible, plain => isPlain_nodeLines depth legible plain
  | .unary _ operand _, depth, _, legible, plain =>
    have arg : IsPlain "arg".toList := ⟨⟨'a', _, rfl, by decide⟩, by decide⟩
    isPlain_nodeLines depth legible (isPlain_headed depth arg
      (Expr.isPlain_outlineLines operand (List.forall_mem_cons.mp legible).2 plain))
  | .binary _ left right _, depth, _, legible, plain =>
    have onLeft : IsPlain "left".toList := ⟨⟨'l', _, rfl, by decide⟩, by decide⟩
    have onRight : IsPlain "right".toList := ⟨⟨'r', _, rfl, by decide⟩, by decide⟩
    have ⟨legibleL, legibleR⟩ := List.forall_mem_append.mp (List.forall_mem_cons.mp legible).2
    isPlain_nodeLines depth legible (isPlain_headed depth onLeft
      (Expr.isPlain_outlineLines left legibleL (isPlain_headed depth onRight
        (Expr.isPlain_outlineLines right legibleR plain))))
  | .call _ arguments _, depth, _, legible, plain =>
    isPlain_nodeLines depth legible (isPlain_outlineArguments arguments (List.forall_mem_cons.mp legible).2 plain)
/-- The lines of legible arguments are plain. -/
theorem isPlain_outlineArguments : ∀ (es : List Expr) {depth i : Nat} {after : List OutlineLine},
    (∀ n ∈ preOrderAll es, n.Legible source) → (∀ l ∈ after, IsPlain l.text) →
    ∀ l ∈ outlineArguments source depth i es after, IsPlain l.text
  | [], _, _, _, _, plain => plain
  | e :: es, depth, i, _, legible, plain =>
    have ⟨onFirst, onMore⟩ := List.forall_mem_append.mp legible
    isPlain_headed depth (isPlain_argumentName i)
      (Expr.isPlain_outlineLines e onFirst (isPlain_outlineArguments es onMore plain))
end

end Faithful

/-! ## Trees that are read -/

variable {source source' : String} {a b : Ast}

/-- What ends a literal is on one line. -/
theorem EndsLiteral.oneLine {cs : List Char} (h : EndsLiteral cs) : '\n' ∉ cs := by
  cases h with
  | bare => exact List.not_mem_nil
  | @exponent mark sign ds marks signs digits =>
    have unmarked : '\n' ≠ mark := by rcases marks with rfl | rfl <;> decide
    have unsigned : '\n' ∉ sign := by rcases signs with rfl | rfl | rfl <;> decide
    exact List.not_mem_cons_of_ne_of_not_mem unmarked (List.not_mem_append unsigned fun h => nomatch digits _ h)

/-- A literal is on one line. -/
theorem IsLiteral.oneLine {cs : List Char} (h : IsLiteral cs) : '\n' ∉ cs := by
  cases h with
  | whole digits _ ends => exact List.not_mem_append (fun h => nomatch digits _ h) ends.oneLine
  | point digits fraction _ ends =>
    exact List.not_mem_append (fun h => nomatch digits _ h)
      (List.not_mem_cons_of_ne_of_not_mem (by decide)
        (List.not_mem_append (fun h => nomatch fraction _ h) ends.oneLine))

/-- **A word is on one line.** -/
theorem IsWord.oneLine {kind : TokenKind} {lexeme rest : List Char} (h : IsWord kind lexeme rest) :
    '\n' ∉ lexeme := by
  have word := h
  cases h with
  | name begins parts =>
    refine List.not_mem_cons_of_ne_of_not_mem ?_ fun h => nomatch parts _ h
    rintro rfl
    cases begins
  | numeral => exact word.isLiteral.oneLine
  | symbol symbol =>
    refine List.not_mem_cons_of_ne_of_not_mem ?_ List.not_mem_nil
    rintro rfl
    cases symbol

/-- **The nodes of a tree that is read are legible** in its source. -/
theorem legible_of_read (h : (Ast.read source).result = .ok a) :
    ∀ e ∈ a.root.preOrder, e.Legible source.toList := by
  intro e he
  obtain ⟨word, mem, marks⟩ := exists_word_of_read h e he
  obtain ⟨-, rest, -, -, isWord⟩ := (reading_ofChars 0 source.toList).exists_place mem
  have slice : e.span.sliceChars source.toList = word.lexeme.toList := by
    rw [marks.span_eq, Span.sliceChars_eq, (fits_ofSource source).lexeme word mem, Option.getD_some]
  constructor
  · rw [slice, String.ofList_toList]
    exact marks.writtenAs isWord
  · rw [slice]
    exact isWord.oneLine

theorem source_of_read (h : (Ast.read source).result = .ok a) : a.source = source := by
  obtain ⟨-, -, -, -, rfl⟩ := exists_derivation_of_read h
  rfl

/-- **The outline of a tree loses nothing of it but its spans**: trees that are read from two sources and have the
same outline are the same up to their spans. -/
theorem unplaced_eq_of_outline_eq (ha : (Ast.read source).result = .ok a) (hb : (Ast.read source').result = .ok b)
    (same : a.outline = b.outline) : a.root.unplaced = b.root.unplaced := by
  have legible := legible_of_read ha
  have legible' := legible_of_read hb
  rw [Ast.outline, Ast.outline, source_of_read ha, source_of_read hb, String.ofList_inj] at same
  have lines := OutlineLine.flatMap_render_injective (a.root.isPlain_outlineLines legible (List.forall_mem_nil _))
    (b.root.isPlain_outlineLines legible' (List.forall_mem_nil _)) same
  exact (a.root.outlineLines_inj b.root lines legible legible' shallower_nil shallower_nil).1

/-- A call of two arguments. -/
def plainCall : Ast where
  source := "f(x,-1)"
  root := .call "f" [.identifier "x" ⟨2, 1⟩, .unary .minus (.number (Parser.literalValue "1") ⟨5, 1⟩) ⟨4, 1⟩] ⟨0, 1⟩

/-- The same call with groups and white space. -/
def groupedCall : Ast where
  source := "f((x), -(1))"
  root := .call "f" [.identifier "x" ⟨3, 1⟩, .unary .minus (.number (Parser.literalValue "1") ⟨9, 1⟩) ⟨7, 1⟩] ⟨0, 1⟩

/-- Both are read, and have one outline. -/
theorem unplaced_eq_groupedCall :
    (Ast.read plainCall.source).result = .ok plainCall ∧ (Ast.read groupedCall.source).result = .ok groupedCall ∧
      plainCall.outline = groupedCall.outline ∧ plainCall.root.unplaced = groupedCall.root.unplaced := by
  have scan : Tokens.ofSource plainCall.source =
      ⟨[⟨.identifier, 0, "f"⟩, ⟨.openParen, 1, "("⟩, ⟨.identifier, 2, "x"⟩, ⟨.comma, 3, ","⟩, ⟨.minus, 4, "-"⟩,
        ⟨.number, 5, "1"⟩, ⟨.closeParen, 6, ")"⟩], .endOfInput 7⟩ := by
    have source : plainCall.source.toList = ['f', '(', 'x', ',', '-', '1', ')'] := rfl
    rw [Tokens.ofSource, source]
    repeat rw [Tokens.ofChars_of_word rfl]
    rw [Tokens.ofChars_of_stop rfl]
    rfl
  have scan' : Tokens.ofSource groupedCall.source =
      ⟨[⟨.identifier, 0, "f"⟩, ⟨.openParen, 1, "("⟩, ⟨.openParen, 2, "("⟩, ⟨.identifier, 3, "x"⟩, ⟨.closeParen, 4, ")"⟩,
        ⟨.comma, 5, ","⟩, ⟨.minus, 7, "-"⟩, ⟨.openParen, 8, "("⟩, ⟨.number, 9, "1"⟩, ⟨.closeParen, 10, ")"⟩,
        ⟨.closeParen, 11, ")"⟩], .endOfInput 12⟩ := by
    have source : groupedCall.source.toList = ['f', '(', '(', 'x', ')', ',', ' ', '-', '(', '1', ')', ')'] := rfl
    rw [Tokens.ofSource, source]
    repeat rw [Tokens.ofChars_of_word rfl]
    rw [Tokens.ofChars_of_stop rfl]
    rfl
  have read : (Ast.read plainCall.source).result = .ok plainCall := by
    rw [read_result, scan]
    rfl
  have read' : (Ast.read groupedCall.source).result = .ok groupedCall := by
    rw [read_result, scan']
    rfl
  have same : plainCall.outline = groupedCall.outline := rfl
  exact ⟨read, read', same, unplaced_eq_of_outline_eq read read' same⟩

end Formula
