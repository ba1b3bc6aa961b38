import Formula.Proofs.Parse.Acceptance

/-!
# Heights — how high the trees are that a parse lets through

The limit of nesting is there to bound every recursion over a tree. It bounds none of them as it should:
a chain needs levels for its operators, but what stands to the left in it is read without regard to them,
so chains under chains use the same levels again.

What would bound the height is `LevelsWithin`, which counts the operators of a chain for what they are
operators of: a tree keeps the height exactly when its derivation keeps these levels
(`height_le_iff_levelsWithin`). What the limit does bound is the square: no tree is higher than
`maxNesting * maxNesting + 3 * maxNesting - 1` (`height_of_within`).
-/

namespace Formula

mutual
/-- **The height of a tree**: a leaf has height 1. -/
def Expr.height : Expr → Nat
  | .number .. => 1
  | .identifier .. => 1
  | .unary _ e _ => e.height + 1
  | .binary _ l r _ => max l.height r.height + 1
  | .call _ as _ => heightAll as + 1
def heightAll : List Expr → Nat
  | [] => 0
  | e :: es => max e.height (heightAll es)
end

namespace Derivation

variable {n : Nonterminal} {tier : Tier}

/-- **The height of what a derivation makes**; of a repetition, what its parts come to. -/
def height : {n : Nonterminal} → Derivation n → Nat
  | _, expression d => d.height
  | _, chain first more => max (first.height + more.length) more.height
  | _, product d => d.height
  | _, factor d => d.height
  | _, noLink => 0
  | _, link _ _ _ right more => max (right.height + (more.length + 1)) more.height
  | _, signed _ _ operand => operand.height + 1
  | _, unsigned d => d.height
  | _, plainPower d => d.height
  | _, raised base _ exponent => max base.height exponent.height + 1
  | _, emptyCall .. => 1
  | _, fullCall _ _ first more _ => max first.height more.height + 1
  | _, plainCall d => d.height
  | _, noArgument => 0
  | _, argument _ d more => max d.height more.height
  | _, number _ => 1
  | _, name _ => 1
  | _, group _ d _ => d.height

/-- **A derivation reached at a depth keeps the limit with every level counted.** Signs, powers and calls
with arguments are one level each, and so is each operator of a chain, for all that it has to the left of
it or to the right. -/
def LevelsWithin : {n : Nonterminal} → Derivation n → (depth : Nat) → Prop
  | _, expression d, depth => d.LevelsWithin depth
  | _, chain first more, depth => first.LevelsWithin (depth + more.length) ∧ more.LevelsWithin depth
  | _, product d, depth => d.LevelsWithin depth
  | _, factor d, depth => d.LevelsWithin depth
  | _, noLink, _ => True
  | _, link _ _ _ right more, depth => right.LevelsWithin (depth + (more.length + 1)) ∧ more.LevelsWithin depth
  | _, signed _ _ operand, depth => operand.LevelsWithin (depth + 1)
  | _, unsigned d, depth => d.LevelsWithin depth
  | _, plainPower d, depth => d.LevelsWithin depth
  | _, raised base _ exponent, depth => base.LevelsWithin (depth + 1) ∧ exponent.LevelsWithin (depth + 1)
  | _, emptyCall .., depth => depth ≤ maxNesting
  | _, fullCall _ _ first more _, depth => first.LevelsWithin (depth + 1) ∧ more.LevelsWithin (depth + 1)
  | _, plainCall d, depth => d.LevelsWithin depth
  | _, noArgument, _ => True
  | _, argument _ d more, depth => d.LevelsWithin depth ∧ more.LevelsWithin depth
  | _, number _, depth => depth ≤ maxNesting
  | _, name _, depth => depth ≤ maxNesting
  | _, group _ d _, depth => d.LevelsWithin depth

/-! ## The height of a tree is that of its derivation -/

end Derivation

/-- **What a height says of a meaning.** Links raise what stands to the left of them by their number. -/
def Nonterminal.HasHeight : (n : Nonterminal) → n.Meaning → (length height : Nat) → Prop
  | .links _, f, length, height => ∀ left, (f left).height = max (left.height + length) height
  | .further, es, _, height => heightAll es = height
  | .expression, e, _, height => e.height = height
  | .chain _, e, _, height => e.height = height
  | .operand _, e, _, height => e.height = height
  | .unary, e, _, height => e.height = height
  | .power, e, _, height => e.height = height
  | .call, e, _, height => e.height = height
  | .basic, e, _, height => e.height = height

namespace Derivation

variable {n : Nonterminal} {tier : Tier}

/-- **The height of a tree is that of its derivation.** -/
theorem hasHeight (d : Derivation n) : n.HasHeight d.tree d.length d.height := by
  induction d with
  | expression d ih | product d ih | factor d ih | unsigned d ih | plainPower d ih | plainCall d ih
  | group _ d _ ih => exact ih
  | chain first more ih ih' =>
    have first_eq : first.tree.height = first.height := ih
    have more_eq := ih' first.tree
    rw [first_eq] at more_eq
    exact more_eq
  | noLink => exact fun left => (Nat.max_eq_left (Nat.zero_le _)).symm
  | link op level operator right more ih ih' =>
    intro left
    -- what the further links have to their left is the tree that this link makes
    have right_eq : right.tree.height = right.height := ih
    have more_eq := ih' (.binary op left right.tree operator.token.span)
    rw [Expr.height, right_eq] at more_eq
    change (more.tree _).height =
      max (left.height + (more.length + 1)) (max (right.height + (more.length + 1)) more.height)
    rw [more_eq]
    omega
  | signed sign mark operand ih =>
    have operand_eq : operand.tree.height = operand.height := ih
    exact congrArg (· + 1) operand_eq
  | raised base caret exponent ih ih' =>
    have base_eq : base.tree.height = base.height := ih
    have exponent_eq : exponent.tree.height = exponent.height := ih'
    change max base.tree.height exponent.tree.height + 1 = _
    rw [base_eq, exponent_eq]
    rfl
  | emptyCall | number | name => rfl
  | fullCall callee opening first more closing ih ih' =>
    have first_eq : first.tree.height = first.height := ih
    have more_eq : heightAll more.tree = more.height := ih'
    change max first.tree.height (heightAll more.tree) + 1 = _
    rw [first_eq, more_eq]
    rfl
  | noArgument => rfl
  | argument comma d more ih ih' =>
    have d_eq : d.tree.height = d.height := ih
    have more_eq : heightAll more.tree = more.height := ih'
    change max d.tree.height (heightAll more.tree) = _
    rw [d_eq, more_eq]
    rfl

theorem height_pos (d : Derivation n) (h : n.repeats = false) : 0 < d.height := by
  induction d with
  | expression d ih | product d ih | factor d ih | unsigned d ih | plainPower d ih | plainCall d ih
  | group _ d _ ih => exact ih rfl
  | chain first more ih _ => exact Nat.lt_of_lt_of_le (Nat.add_pos_left (ih rfl) _) (Nat.le_max_left _ _)
  | noLink | link | noArgument | argument => cases h
  | signed | raised | fullCall => exact Nat.succ_pos _
  | emptyCall | number | name => exact Nat.one_pos

/-! ## The exact condition -/

/-- **The levels of a derivation are its height.** A repetition that has none keeps all limits. -/
theorem levelsWithin_iff (d : Derivation n) (depth : Nat) :
    d.LevelsWithin depth ↔ d.height = 0 ∨ depth + d.height ≤ maxNesting + 1 := by
  -- on the derivation, for all depths: both sides are conditions on its leaves, counted from the top and
  -- from the bottom
  induction d generalizing depth with
  | expression d ih | product d ih | factor d ih | unsigned d ih | plainPower d ih | plainCall d ih
  | group _ d _ ih => exact ih depth
  | chain first more ih ih' =>
    have pos := first.height_pos rfl
    rw [LevelsWithin, ih, ih', height]
    omega
  | noLink | noArgument => exact iff_of_true trivial (.inl rfl)
  | link op level operator right more ih ih' =>
    have pos := right.height_pos rfl
    rw [LevelsWithin, ih, ih', height]
    omega
  | signed sign mark operand ih =>
    have pos := operand.height_pos rfl
    rw [LevelsWithin, ih, height]
    omega
  | raised base caret exponent ih ih' =>
    have pos := base.height_pos rfl
    have pos' := exponent.height_pos rfl
    rw [LevelsWithin, ih, ih', height]
    omega
  | emptyCall | number | name =>
    rw [LevelsWithin, height]
    omega
  | fullCall callee opening first more closing ih ih' =>
    have pos := first.height_pos rfl
    rw [LevelsWithin, ih, ih', height]
    omega
  | argument comma d more ih ih' =>
    have pos := d.height_pos rfl
    rw [LevelsWithin, ih, ih', height]
    omega

/-- **A tree keeps the height exactly when its derivation keeps the limit with every level counted.** -/
theorem height_le_iff_levelsWithin (d : Derivation .expression) :
    d.tree.height ≤ maxNesting + 1 ↔ d.LevelsWithin 0 := by
  have height_eq : d.tree.height = d.height := d.hasHeight
  have pos := d.height_pos rfl
  rw [levelsWithin_iff, height_eq]
  omega

end Derivation

/-! ## The bound that there is -/

/-- **The most height of what a nonterminal makes** with some room, and some repetitions in a repetition.
What stands inside a unary has the room that the unary leaves. -/
def Nonterminal.most : Nonterminal → (room length : Nat) → Nat
  | .expression, room, _ => room * (room + 1) + 2 * room - 1
  | .chain .addition, room, _ => room * (room + 1) + 2 * room - 1
  | .operand .addition, room, _ => room * (room + 1) + room - 1
  | .links .addition, room, length => room * (room + 1) + room - 1 + length
  | .chain .multiplication, room, _ => room * (room + 1) + room - 1
  | .operand .multiplication, room, _ => room * (room + 1) - 1
  | .links .multiplication, room, length => room * (room + 1) - 1 + length
  | .unary, room, _ => room * (room + 1) - 1
  | .power, room, _ => (room + 1) * (room + 1 + 1) - 1
  | .call, room, _ => max 1 (room * (room + 1) + 2 * room)
  | .further, room, _ => room * (room + 1) + 2 * room - 1
  | .basic, room, _ => max 1 (room * (room + 1) + 2 * room - 1)

theorem succ_mul_succ (room : Nat) : (room + 1) * (room + 1 + 1) = room * (room + 1) + 2 * room + 2 := by
  simp only [Nat.add_mul, Nat.mul_add]
  omega

namespace Derivation

/-- Where an expression is, there is room for a unary. -/
theorem room_pos {n : Nonterminal} (d : Derivation n) (h : n ∈ [.expression, .chain .addition, .operand .addition,
    .chain .multiplication, .operand .multiplication, .unary]) {depth : Nat} (keeps : d.Within depth) :
    depth + 1 ≤ maxNesting := by
  induction d with
  | expression d ih | product d ih | factor d ih => exact ih (by decide) keeps
  | @chain tier first more ih _ => exact ih (by cases tier <;> decide) keeps.2.1
  | signed | unsigned => exact keeps.1
  | @noLink tier => cases tier <;> exact absurd h (by decide)
  | @link tier => cases tier <;> exact absurd h (by decide)
  | plainPower | raised | emptyCall | fullCall | plainCall | noArgument | argument | number | name | group =>
    exact absurd h (by decide)

/-- **A derivation within the limits is no higher than the most.** -/
theorem height_le_most {n : Nonterminal} (d : Derivation n) {depth room : Nat} (full : depth + room = maxNesting)
    (keeps : d.Within depth) : d.height ≤ n.most room d.length := by
  -- on the derivation, for all rooms: a chain adds at most the room, and a unary inside has one less of it,
  -- so the sum over the rooms bounds the height
  induction d generalizing depth room with
  | expression d ih | product d ih | factor d ih => exact ih full keeps
  | @chain tier first more ih ih' =>
    obtain ⟨fits, keeps, keeps'⟩ := keeps
    have pos := first.height_pos rfl
    have first_le := ih full keeps
    have more_le := ih' full keeps'
    cases tier <;> simp only [Nonterminal.most, height] at first_le more_le ⊢ <;> omega
  | noLink => exact Nat.zero_le _
  | @link tier op level operator right more ih ih' =>
    have right_le := ih full keeps.1
    have more_le := ih' full keeps.2
    cases tier <;> simp only [Nonterminal.most, height, length] at right_le more_le ⊢ <;> omega
  | signed sign mark operand ih =>
    have level : depth + 1 ≤ maxNesting := keeps.1
    obtain ⟨inner, rfl⟩ := Nat.exists_eq_add_of_le' (show 1 ≤ room by omega)
    have operand_le := ih (by omega : depth + 1 + inner = maxNesting) keeps.2
    have step := succ_mul_succ inner
    simp only [Nonterminal.most, height] at operand_le ⊢
    omega
  | unsigned d ih =>
    have level : depth + 1 ≤ maxNesting := keeps.1
    obtain ⟨inner, rfl⟩ := Nat.exists_eq_add_of_le' (show 1 ≤ room by omega)
    exact ih (by omega : depth + 1 + inner = maxNesting) keeps.2
  | plainPower d ih =>
    have d_le := ih full keeps
    have step := succ_mul_succ room
    simp only [Nonterminal.most, height] at d_le ⊢
    omega
  | raised base caret exponent ih ih' =>
    -- without room a power over a leaf would be too high; but the exponent is a unary, so there is some
    have inner := exponent.room_pos (by decide) keeps.2
    have base_le := ih full keeps.1
    have exponent_le := ih' full keeps.2
    have step := succ_mul_succ room
    simp only [Nonterminal.most, height] at base_le exponent_le ⊢
    omega
  | emptyCall | number | name => exact Nat.le_max_left _ _
  | fullCall callee opening first more closing ih ih' =>
    obtain ⟨-, keeps, keeps'⟩ := keeps
    have inner := first.room_pos (by decide) keeps
    have first_le := ih full keeps
    have more_le := ih' full keeps'
    simp only [Nonterminal.most, height] at first_le more_le ⊢
    omega
  | plainCall d ih =>
    have d_le := ih full keeps
    simp only [Nonterminal.most, height] at d_le ⊢
    omega
  | noArgument => exact Nat.zero_le _
  | argument comma d more ih ih' =>
    have d_le := ih full keeps.1
    have more_le := ih' full keeps.2
    exact Nat.max_le.mpr ⟨d_le, more_le⟩
  | group opening d closing ih =>
    exact Nat.le_trans (ih full keeps) (Nat.le_max_right _ _)

/-- **No tree within the limits is higher than the square of the limit**, and three limits more. -/
theorem height_of_within (d : Derivation .expression) (keeps : d.Within 0) :
    d.tree.height ≤ maxNesting * maxNesting + 3 * maxNesting - 1 := by
  have height_eq : d.tree.height = d.height := d.hasHeight
  have most := d.height_le_most (Nat.zero_add maxNesting) keeps
  rw [height_eq]
  exact most

end Derivation

/-- **The height of what a parse lets through**: as high as the limit says exactly when the derivation keeps
the limit with every level counted, and never higher than the square of the limit and three limits more. -/
theorem height_of_read {source : String} {a : Ast} (h : (Ast.read source).result = .ok a) :
    ∃ d : Derivation .expression, d.tokens = (Tokens.ofSource source).words ∧ d.Within 0 ∧ a.root = d.tree ∧
      (a.root.height ≤ maxNesting + 1 ↔ d.LevelsWithin 0) ∧
      a.root.height ≤ maxNesting * maxNesting + 3 * maxNesting - 1 := by
  obtain ⟨d, words, keeps, -, rfl⟩ := exists_derivation_of_read h
  exact ⟨d, words.symm, keeps, rfl, d.height_le_iff_levelsWithin, d.height_of_within keeps⟩

/-! ## A product before a sum

The links of a sum are as many as the limit allows, whatever stands before them; where a product does, the
tree is higher than the limit says. -/

def letter (offset : Nat) : Derivation .unary :=
  .unsigned (.plainPower (.plainCall (.name ⟨⟨.identifier, offset, "x"⟩, rfl⟩)))

def terms : Nat → List Char
  | 0 => []
  | count + 1 => '+' :: 'x' :: terms count

def termLinks : (offset count : Nat) → Derivation (.links .addition)
  | _, 0 => .noLink
  | offset, count + 1 =>
    .link .add rfl ⟨⟨.plus, offset, "+"⟩, rfl⟩ (.product (.chain (.factor (letter (offset + 1))) .noLink))
      (termLinks (offset + 2) count)

/-- `x*x`, and some times `+x`. -/
def sumAfterProduct (count : Nat) : String := String.ofList ('x' :: '*' :: 'x' :: terms count)

def sumAfterProductTree (count : Nat) : Derivation .expression :=
  .expression (.chain
    (.product (.chain (.factor (letter 0)) (.link .mul rfl ⟨⟨.star, 1, "*"⟩, rfl⟩ (.factor (letter 2)) .noLink)))
    (termLinks 3 count))

theorem step_letter (offset count : Nat) :
    step offset ('x' :: terms count) = .word ⟨.identifier, offset, "x"⟩ (offset + 1) (terms count) := by
  cases count <;> rfl

theorem scan_terms (offset count : Nat) :
    Tokens.ofChars offset (terms count) = ⟨(termLinks offset count).tokens, .endOfInput (offset + 2 * count)⟩ := by
  induction count generalizing offset with
  | zero => exact Tokens.ofChars_of_stop rfl
  | succ count ih =>
    have plus : step offset (terms (count + 1)) = .word ⟨.plus, offset, "+"⟩ (offset + 1) ('x' :: terms count) :=
      rfl
    rw [Tokens.ofChars_of_word plus, Tokens.ofChars_of_word (step_letter (offset + 1) count), ih]
    have stop : offset + 1 + 1 + 2 * count = offset + 2 * (count + 1) := by omega
    rw [stop]
    rfl

theorem scan_sumAfterProduct (count : Nat) :
    Tokens.ofSource (sumAfterProduct count) = ⟨(sumAfterProductTree count).tokens, .endOfInput (3 + 2 * count)⟩ := by
  have first : step 0 ('x' :: '*' :: 'x' :: terms count) =
      .word ⟨.identifier, 0, "x"⟩ 1 ('*' :: 'x' :: terms count) := rfl
  have star : step 1 ('*' :: 'x' :: terms count) = .word ⟨.star, 1, "*"⟩ 2 ('x' :: terms count) := rfl
  rw [Tokens.ofSource, sumAfterProduct, String.toList_ofList, Tokens.ofChars_of_word first,
    Tokens.ofChars_of_word star, Tokens.ofChars_of_word (step_letter 2 count), scan_terms]
  rfl

theorem termLinks_within (offset count : Nat) : (termLinks offset count).Within 0 := by
  induction count generalizing offset with
  | zero => trivial
  | succ count ih => exact ⟨⟨Nat.zero_le _, ⟨by decide, trivial⟩, trivial⟩, ih (offset + 2)⟩

theorem length_termLinks (offset count : Nat) : (termLinks offset count).length = count := by
  induction count generalizing offset with
  | zero => rfl
  | succ count ih => exact congrArg (· + 1) (ih (offset + 2))

theorem height_termLinks (offset count : Nat) : (termLinks offset count).height ≤ count + 1 := by
  induction count generalizing offset with
  | zero => exact Nat.zero_le _
  | succ count ih =>
    have links : (termLinks offset (count + 1)).height =
        max (1 + ((termLinks (offset + 2) count).length + 1)) (termLinks (offset + 2) count).height := rfl
    have more := ih (offset + 2)
    rw [links, length_termLinks]
    omega

/-- **A product before as many terms as a sum may have** is let through, at two more than their number. -/
theorem read_sumAfterProduct {count : Nat} (fits : count ≤ maxNesting) :
    ∃ a, (Ast.read (sumAfterProduct count)).result = .ok a ∧ a.root.height = count + 2 := by
  refine ⟨⟨sumAfterProduct count, (sumAfterProductTree count).tree⟩, ?_, ?_⟩
  · have scanned := scan_sumAfterProduct count
    refine read_of_derivation (congrArg Tokens.words scanned) ⟨?_, ?_, termLinks_within 3 count⟩ ?_
    · rw [length_termLinks]
      omega
    · exact ⟨by decide, ⟨by decide, trivial⟩, ⟨by decide, trivial⟩, trivial⟩
    · rw [scanned]
      rfl
  · have height_eq : (sumAfterProductTree count).tree.height = (sumAfterProductTree count).height :=
      (sumAfterProductTree count).hasHeight
    have chain : (sumAfterProductTree count).height =
        max (2 + (termLinks 3 count).length) (termLinks 3 count).height := rfl
    have more := height_termLinks 3 count
    rw [height_eq, chain, length_termLinks]
    omega

/-- With as many terms as the limit is high, the tree is higher than the limit says. -/
theorem read_above_limit :
    ∃ a, (Ast.read (sumAfterProduct 256)).result = .ok a ∧ ¬ a.root.height ≤ maxNesting + 1 := by
  obtain ⟨a, result, height_eq⟩ := read_sumAfterProduct (show 256 ≤ maxNesting by decide)
  refine ⟨a, result, ?_⟩
  rw [height_eq]
  decide

/-- With one term fewer it is as high as the limit says, and every level is within it. -/
theorem read_at_limit :
    ∃ a, (Ast.read (sumAfterProduct 255)).result = .ok a ∧ a.root.height = maxNesting + 1 ∧
      ∃ d : Derivation .expression, d.tokens = (Tokens.ofSource (sumAfterProduct 255)).words ∧ d.LevelsWithin 0 := by
  obtain ⟨a, result, height_eq⟩ := read_sumAfterProduct (show 255 ≤ maxNesting by decide)
  obtain ⟨d, words, -, -, levels, -⟩ := height_of_read result
  exact ⟨a, result, height_eq, d, words, levels.mp (Nat.le_of_eq height_eq)⟩

end Formula
