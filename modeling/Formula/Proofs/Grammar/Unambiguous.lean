import Formula.Proofs.Grammar.Derivation

/-!
# Unambiguity — a token sequence has one derivation

Two derivations from one nonterminal whose tokens go on in any way are the same, and go on in the same
way, as long as nothing that follows could still belong to them (`Derivation.unique`). What could still
belong to a phrase is an operator of its own or of a tighter tier, and after a name the parenthesis that
would make a call of it: `Stops` says that no such token follows.

With nothing following, the grammar is unambiguous (`Derivation.eq_of_tokens_eq`).
-/

namespace Formula

namespace Nonterminal

/-- The operators that could carry on a phrase, and for further arguments the comma. -/
def continuers : Nonterminal → List TokenKind
  | call | basic => []
  | power | unary | operand .multiplication => [.caret]
  | chain .multiplication | links .multiplication | operand .addition => [.caret, .star, .slash, .percent]
  | expression | chain .addition | links .addition => [.caret, .star, .slash, .percent, .plus, .minus]
  | further => [.caret, .star, .slash, .percent, .plus, .minus, .comma]

/-- Whether a nonterminal is a repetition, which may derive nothing. -/
def repeats : Nonterminal → Bool
  | links _ | further => true
  | _ => false

/-- The kinds of tokens that a phrase may begin with; a sign begins what is no operand of a power. -/
def starters : Nonterminal → List TokenKind
  | power | call | basic => [.number, .identifier, .openParen]
  | _ => [.number, .identifier, .openParen, .plus, .minus]

end Nonterminal

def closers : List TokenKind := [.number, .identifier, .closeParen]

/-! ## What follows a phrase -/

/-- **Nothing in the rest could carry on the phrase**: no operator, and no parenthesis that opens after
a name. -/
def Stops (n : Nonterminal) (phrase rest : List Token) : Prop :=
  ∀ t ∈ rest.head?, t.kind ∉ n.continuers ∧ (t.kind = .openParen → ∀ s ∈ phrase.getLast?, s.kind ≠ .identifier)

section Stops

variable {n m : Nonterminal} {ps qs ts us : List Token} {t : Token} {kind : TokenKind} {tier : Tier}
  {op : BinaryOp}

theorem stops_nil : Stops n ps [] := by
  intro t ht
  cases ht

theorem stops_cons (h : t.kind = kind) (no : kind ∉ n.continuers) (opens : kind ≠ .openParen) :
    Stops n ps (t :: ts) := by
  intro s hs
  obtain rfl : t = s := Option.some.inj hs
  rw [h]
  exact ⟨no, fun opened => absurd opened opens⟩

theorem not_stops_cons (h : t.kind = kind) (carries : kind ∈ n.continuers) : ¬ Stops n ps (t :: ts) := by
  intro stops
  have no := (stops t rfl).1
  rw [h] at no
  exact no carries

theorem Stops.of_head?_eq (h : Stops n ps ts) (heads : us.head? = ts.head?) : Stops n ps us := by
  unfold Stops
  rw [heads]
  exact h

/-- What ends a looser phrase ends a tighter one. -/
theorem Stops.mono (h : Stops n ps ts) (tighter : m.continuers ⊆ n.continuers) : Stops m ps ts := by
  intro t ht
  obtain ⟨no, opens⟩ := h t ht
  exact ⟨fun carries => no (tighter carries), opens⟩

theorem Stops.of_append (h : Stops n (ps ++ qs) ts) : Stops n qs ts := by
  intro t ht
  obtain ⟨no, opens⟩ := h t ht
  refine ⟨no, ?_⟩
  intro opened s hs
  rw [Option.mem_def] at hs
  refine opens opened s ?_
  rw [List.getLast?_append, hs]
  rfl

theorem Stops.of_cons (h : Stops n (t :: ps) ts) : Stops n ps ts :=
  Stops.of_append (show Stops n ([t] ++ ps) ts from h)

theorem Stops.append (h : Stops n qs ts) (some : qs ≠ []) (ps : List Token) : Stops n (ps ++ qs) ts := by
  unfold Stops
  rw [List.getLast?_append, Option.or_of_isSome (List.getLast?_isSome.mpr some)]
  exact h

/-- What ends a phrase is none of its operators, whatever the phrase ends with. -/
theorem Stops.forget (h : Stops n ps ts) : Stops n [] ts := by
  intro t ht
  refine ⟨(h t ht).1, ?_⟩
  intro _ s hs
  cases hs

/-- What ends a phrase ends a looser one that it makes, when it is none of the operators of that. -/
theorem Stops.loosen (h : Stops n ps ts) (more : Stops m [] ts) : Stops m ps ts := by
  intro t ht
  exact ⟨(more t ht).1, (h t ht).2⟩

/-- What ends a repetition ends the phrase that it is the end of, as what is before it ends too. -/
theorem Stops.join (h : Stops m qs ts) (first : Stops n ps (qs ++ ts)) : Stops m (ps ++ qs) ts := by
  by_cases some : qs = []
  · subst some
    rw [List.append_nil]
    exact first.loosen h
  · exact h.append some ps

/-- After a last token that is no name everything ends, but operators of the phrase. -/
theorem Stops.of_last (h : Stops n [] ts) (unnamed : t.kind ≠ .identifier) (ps : List Token) :
    Stops n (ps ++ [t]) ts := by
  intro s hs
  refine ⟨(h s hs).1, ?_⟩
  intro _ s' hs'
  rw [List.getLast?_append] at hs'
  obtain rfl : t = s' := Option.some.inj hs'
  exact unnamed

theorem Stops.operand (h : Stops (.links tier) ps ts) : Stops (.operand tier) ps ts :=
  h.mono (by cases tier <;> decide)

theorem Stops.links (h : Stops (.chain tier) ps ts) : Stops (.links tier) ps ts :=
  h.mono (by cases tier <;> decide)

theorem Stops.call (h : Stops .power ps ts) : Stops .call ps ts := h.mono (by decide)

theorem stops_operator (level : op.tier? = some tier) (h : t.kind = op.kind) :
    Stops (.operand tier) ps (t :: ts) :=
  stops_cons h (by cases op <;> cases level <;> decide) (by cases op <;> decide)

theorem not_stops_operator (level : op.tier? = some tier) (h : t.kind = op.kind) :
    ¬ Stops (.links tier) ps (t :: ts) :=
  not_stops_cons h (by cases op <;> cases level <;> decide)

theorem stops_caret (h : t.kind = .caret) : Stops .call ps (t :: ts) := stops_cons h (by decide) (by decide)

theorem not_stops_caret (h : t.kind = .caret) : ¬ Stops .power ps (t :: ts) := not_stops_cons h (by decide)

theorem stops_comma (h : t.kind = .comma) : Stops .expression ps (t :: ts) := stops_cons h (by decide) (by decide)

theorem not_stops_comma (h : t.kind = .comma) : ¬ Stops .further ps (t :: ts) := not_stops_cons h (by decide)

theorem stops_closing (h : t.kind = .closeParen) : Stops n ps (t :: ts) :=
  stops_cons h (by rcases n with _ | ⟨_ | _⟩ | ⟨_ | _⟩ | ⟨_ | _⟩ | _ | _ | _ | _ | _ <;> decide) (by decide)

end Stops

/-! ## The first and the last token -/

theorem BinaryOp.kind_inj {a b : BinaryOp} (h : a.kind = b.kind) : a = b := by
  cases a <;> cases b <;> first | rfl | cases h

theorem Sign.kind_inj {a b : Sign} (h : a.kind = b.kind) : a = b := by
  cases a <;> cases b <;> first | rfl | cases h

theorem Terminal.ext {kind : TokenKind} : ∀ {a b : Terminal kind}, a.token = b.token → a = b
  | ⟨_, _⟩, ⟨_, _⟩, rfl => rfl

theorem Terminal.kind_ne {kind kind' : TokenKind} (a : Terminal kind) (b : Terminal kind') (h : kind ≠ kind') :
    a.token ≠ b.token := fun e => h (by rw [← a.kind_eq, e, b.kind_eq])

/-- **Some tokens end with an operand**: a number, a name, or a parenthesis that closes. -/
def EndsOperand (ts : List Token) : Prop := ∃ t ∈ ts.getLast?, t.kind ∈ closers

section EndsOperand

variable {ts us : List Token} {t : Token}

theorem EndsOperand.append_left (h : EndsOperand us) (ts : List Token) : EndsOperand (ts ++ us) := by
  obtain ⟨t, ht, hk⟩ := h
  rw [Option.mem_def] at ht
  exact ⟨t, by rw [List.getLast?_append, ht]; rfl, hk⟩

theorem EndsOperand.cons (h : EndsOperand us) (t : Token) : EndsOperand (t :: us) := h.append_left [t]

theorem EndsOperand.append (h : EndsOperand ts) (more : us = [] ∨ EndsOperand us) : EndsOperand (ts ++ us) := by
  rcases more with rfl | more
  · rwa [List.append_nil]
  · exact more.append_left ts

theorem endsOperand_singleton (h : t.kind ∈ closers) : EndsOperand [t] := ⟨t, rfl, h⟩

/-- What ends with an operand unless it is an empty repetition, and is no repetition, does. -/
theorem EndsOperand.of_or {n : Nonterminal} (h : (n.repeats = true ∧ ts = []) ∨ EndsOperand ts)
    (single : n.repeats = false) : EndsOperand ts := by
  rcases h with ⟨repeats, -⟩ | ends
  · rw [single] at repeats
    cases repeats
  · exact ends

end EndsOperand

namespace Derivation

variable {n : Nonterminal} {tier : Tier}

/-- **A phrase begins with a token that begins phrases.** -/
theorem exists_first (d : Derivation n) (h : n.repeats = false) :
    ∃ t ts, d.tokens = t :: ts ∧ t.kind ∈ n.starters := by
  induction d with
  | expression d ih | product d ih | factor d ih | plainPower d ih | plainCall d ih =>
    obtain ⟨t, ts, ht, hk⟩ := ih rfl
    exact ⟨t, ts, ht, hk⟩
  | chain first more ih _ =>
    obtain ⟨t, ts, ht, hk⟩ := ih rfl
    exact ⟨t, ts ++ more.tokens, by rw [tokens, ht, List.cons_append], hk⟩
  | noLink | link | noArgument | argument => cases h
  | signed sign mark operand _ =>
    exact ⟨_, _, rfl, by rw [mark.kind_eq]; cases sign <;> decide⟩
  | unsigned d ih =>
    obtain ⟨t, ts, ht, hk⟩ := ih rfl
    have looser : Nonterminal.power.starters ⊆ Nonterminal.unary.starters := by decide
    exact ⟨t, ts, ht, looser hk⟩
  | raised base caret exponent ih _ =>
    obtain ⟨t, ts, ht, hk⟩ := ih rfl
    exact ⟨t, ts ++ caret.token :: exponent.tokens, by rw [tokens, ht, List.cons_append], hk⟩
  | emptyCall t | fullCall t | number t | name t | group t => exact ⟨_, _, rfl, by rw [t.kind_eq]; decide⟩

theorem tokens_ne_nil (d : Derivation n) (h : n.repeats = false) : d.tokens ≠ [] := by
  obtain ⟨t, ts, ht, -⟩ := d.exists_first h
  rw [ht]
  exact List.cons_ne_nil t ts

/-- **A phrase ends with an operand**, and a repetition does unless it derives nothing. -/
theorem endsOperand (d : Derivation n) : (n.repeats = true ∧ d.tokens = []) ∨ EndsOperand d.tokens := by
  induction d with
  | expression d ih | product d ih | factor d ih | unsigned d ih | plainPower d ih | plainCall d ih =>
    exact .inr (EndsOperand.of_or ih rfl)
  | chain first more ih ih' =>
    exact .inr ((EndsOperand.of_or ih rfl).append (ih'.imp_left And.right))
  | noLink | noArgument => exact .inl ⟨rfl, rfl⟩
  | link op level operator right more ih ih' =>
    exact .inr (((EndsOperand.of_or ih rfl).append (ih'.imp_left And.right)).cons _)
  | signed sign mark operand ih => exact .inr ((EndsOperand.of_or ih rfl).cons _)
  | raised base caret exponent _ ih =>
    exact .inr (((EndsOperand.of_or ih rfl).cons _).append_left _)
  | emptyCall callee opening closing =>
    exact .inr ((endsOperand_singleton (by rw [closing.kind_eq]; decide)).append_left [_, _])
  | fullCall callee opening first more closing =>
    have last : EndsOperand [closing.token] := endsOperand_singleton (by rw [closing.kind_eq]; decide)
    exact .inr ((((last.append_left _).append_left _).cons _).cons _)
  | argument comma d more ih ih' =>
    exact .inr (((EndsOperand.of_or ih rfl).append (ih'.imp_left And.right)).cons _)
  | number t | name t => exact .inr (endsOperand_singleton (by rw [t.kind_eq]; decide))
  | group opening d closing =>
    have last : EndsOperand [closing.token] := endsOperand_singleton (by rw [closing.kind_eq]; decide)
    exact .inr ((last.append_left _).cons _)

/-! ## The parts of a phrase -/

/-- The links of a chain, or what ends the chain, end the operand before them. -/
theorem stops_links (more : Derivation (.links tier)) {ps r : List Token}
    (stops : Stops (.links tier) (ps ++ more.tokens) r) : Stops (.operand tier) ps (more.tokens ++ r) := by
  cases more with
  | noLink => exact (List.append_nil ps ▸ stops).operand
  | link op level operator right more => exact stops_operator level operator.kind_eq

/-- Further arguments, or the parenthesis that ends them, end the argument before them. -/
theorem stops_further (more : Derivation .further) {closing : Token} (h : closing.kind = .closeParen)
    {ps r : List Token} : Stops .expression ps (more.tokens ++ closing :: r) := by
  cases more with
  | noArgument => exact stops_closing h
  | argument comma d more => exact stops_comma comma.kind_eq

theorem stops_argument (more : Derivation .further) {ps r : List Token}
    (stops : Stops .further (ps ++ more.tokens) r) : Stops .expression ps (more.tokens ++ r) := by
  cases more with
  | noArgument => exact (List.append_nil ps ▸ stops).mono (by decide)
  | argument comma d more => exact stops_comma comma.kind_eq

theorem not_signed (d : Derivation .power) {sign : Sign} (mark : Terminal sign.kind) {r ts : List Token}
    (h : d.tokens ++ r = mark.token :: ts) : False := by
  obtain ⟨t, us, ht, hk⟩ := d.exists_first rfl
  rw [ht, List.cons_append] at h
  rw [(List.cons.inj h).1, mark.kind_eq] at hk
  revert hk
  cases sign <;> decide

theorem head_ne_closing (d : Derivation .expression) {r : List Token} :
    ∀ t ∈ (d.tokens ++ r).head?, t.kind ≠ .closeParen := by
  obtain ⟨s, ts, hs, hk⟩ := d.exists_first rfl
  intro t ht closes
  rw [hs] at ht
  obtain rfl : s = t := Option.some.inj ht
  rw [closes] at hk
  revert hk
  decide

/-- A name with an opening parenthesis after it is no operand by itself. -/
theorem not_call (d : Derivation .basic) (callee : Terminal .identifier) (opening : Terminal .openParen)
    {r ts : List Token} (h : d.tokens ++ r = callee.token :: opening.token :: ts)
    (stops : Stops .call d.tokens r) : False := by
  cases d with
  | number literal => exact literal.kind_ne callee (by decide) (List.cons.inj h).1
  | name word =>
    -- here alone the last token of the phrase matters
    obtain ⟨-, rfl⟩ := List.cons.inj h
    exact (stops opening.token rfl).2 opening.kind_eq word.token rfl word.kind_eq
  | group opening' d closing => exact opening'.kind_ne callee (by decide) (List.cons.inj h).1

end Derivation

/-! ## What a token begins

Two productions of a nonterminal differ at a token: at the first, or, where a name is taken for an operand
and for a callee, at the second. So what a phrase begins with says which production made it. -/

section Begins

variable {tier : Tier} {op : BinaryOp} {sign : Sign} {r ts : List Token}

theorem link_of_operator (level : op.tier? = some tier) (operator : Terminal op.kind)
    {e : Derivation (.links tier)} (h : e.tokens ++ r = operator.token :: ts) (stops : Stops (.links tier) e.tokens r) :
    ∃ right more, e = .link op level operator right more ∧ right.tokens ++ (more.tokens ++ r) = ts := by
  cases e with
  | noLink =>
    rw [Derivation.tokens, List.nil_append] at h
    exact (not_stops_operator level operator.kind_eq (h ▸ stops)).elim
  | link op' level' operator' right more =>
    rw [Derivation.tokens, List.cons_append, List.append_assoc] at h
    obtain ⟨same, rfl⟩ := List.cons.inj h
    obtain rfl : op' = op := BinaryOp.kind_inj (by rw [← operator'.kind_eq, same, operator.kind_eq])
    obtain rfl := Terminal.ext same
    exact ⟨right, more, rfl, rfl⟩

theorem signed_of_mark (mark : Terminal sign.kind) {e : Derivation .unary} (h : e.tokens ++ r = mark.token :: ts) :
    ∃ d, e = .signed sign mark d ∧ d.tokens ++ r = ts := by
  cases e with
  | signed sign' mark' d =>
    obtain ⟨same, rfl⟩ := List.cons.inj h
    obtain rfl : sign' = sign := Sign.kind_inj (by rw [← mark'.kind_eq, same, mark.kind_eq])
    obtain rfl := Terminal.ext same
    exact ⟨d, rfl, rfl⟩
  | unsigned d => exact (d.not_signed mark h).elim

theorem number_of_literal (literal : Terminal .number) {e : Derivation .basic}
    (h : e.tokens ++ r = literal.token :: ts) : e = .number literal ∧ r = ts := by
  cases e with
  | number literal' =>
    obtain ⟨same, rfl⟩ := List.cons.inj h
    obtain rfl := Terminal.ext same
    exact ⟨rfl, rfl⟩
  | name word => exact (word.kind_ne literal (by decide) (List.cons.inj h).1).elim
  | group opening d closing => exact (opening.kind_ne literal (by decide) (List.cons.inj h).1).elim

/-- What begins with a name, and is no call, is that name. -/
theorem name_of_word (word : Terminal .identifier) {e : Derivation .basic} (h : e.tokens ++ r = word.token :: ts) :
    e = .name word ∧ r = ts := by
  cases e with
  | number literal => exact (literal.kind_ne word (by decide) (List.cons.inj h).1).elim
  | name word' =>
    obtain ⟨same, rfl⟩ := List.cons.inj h
    obtain rfl := Terminal.ext same
    exact ⟨rfl, rfl⟩
  | group opening d closing => exact (opening.kind_ne word (by decide) (List.cons.inj h).1).elim

theorem argument_of_comma (comma : Terminal .comma) {e : Derivation .further}
    (h : e.tokens ++ r = comma.token :: ts) (stops : Stops .further e.tokens r) :
    ∃ d more, e = .argument comma d more ∧ d.tokens ++ (more.tokens ++ r) = ts := by
  cases e with
  | noArgument =>
    rw [Derivation.tokens, List.nil_append] at h
    exact (not_stops_comma comma.kind_eq (h ▸ stops)).elim
  | argument comma' d more =>
    rw [Derivation.tokens, List.cons_append, List.append_assoc] at h
    obtain ⟨same, rfl⟩ := List.cons.inj h
    obtain rfl := Terminal.ext same
    exact ⟨d, more, rfl, rfl⟩

theorem group_of_paren (paren : Terminal .openParen) {e : Derivation .basic}
    (h : e.tokens ++ r = paren.token :: ts) :
    ∃ d closing, e = .group paren d closing ∧ d.tokens ++ closing.token :: r = ts := by
  cases e with
  | number literal => exact (literal.kind_ne paren (by decide) (List.cons.inj h).1).elim
  | name word => exact (word.kind_ne paren (by decide) (List.cons.inj h).1).elim
  | group paren' d closing =>
    simp only [Derivation.tokens, List.cons_append, List.append_assoc, List.nil_append, List.cons.injEq] at h
    obtain ⟨same, rfl⟩ := h
    obtain rfl := Terminal.ext same
    exact ⟨d, closing, rfl, rfl⟩

theorem emptyCall_of_callee (callee : Terminal .identifier) (paren : Terminal .openParen)
    (closing : Terminal .closeParen) {e : Derivation .call}
    (h : e.tokens ++ r = callee.token :: paren.token :: closing.token :: ts) (stops : Stops .call e.tokens r) :
    e = .emptyCall callee paren closing ∧ r = ts := by
  cases e with
  | emptyCall callee' paren' closing' =>
    simp only [Derivation.tokens, List.cons_append, List.nil_append, List.cons.injEq] at h
    obtain ⟨same, same', same'', rfl⟩ := h
    obtain rfl := Terminal.ext same
    obtain rfl := Terminal.ext same'
    obtain rfl := Terminal.ext same''
    exact ⟨rfl, rfl⟩
  | fullCall callee' paren' first more closing' =>
    simp only [Derivation.tokens, List.cons_append, List.append_assoc, List.nil_append, List.cons.injEq] at h
    exact (first.head_ne_closing closing.token (congrArg List.head? h.2.2) closing.kind_eq).elim
  | plainCall d => exact (d.not_call callee paren h stops).elim

/-- What begins with a name and a parenthesis that opens, and does not close at once, is a call with
arguments. -/
theorem fullCall_of_callee (callee : Terminal .identifier) (paren : Terminal .openParen) {e : Derivation .call}
    (h : e.tokens ++ r = callee.token :: paren.token :: ts) (stops : Stops .call e.tokens r)
    (unclosed : ∀ t ∈ ts.head?, t.kind ≠ .closeParen) :
    ∃ first more closing, e = .fullCall callee paren first more closing ∧
      first.tokens ++ (more.tokens ++ closing.token :: r) = ts := by
  cases e with
  | emptyCall callee' paren' closing =>
    simp only [Derivation.tokens, List.cons_append, List.nil_append, List.cons.injEq] at h
    obtain ⟨-, -, rfl⟩ := h
    exact (unclosed closing.token rfl closing.kind_eq).elim
  | fullCall callee' paren' first more closing =>
    simp only [Derivation.tokens, List.cons_append, List.append_assoc, List.nil_append, List.cons.injEq] at h
    obtain ⟨same, same', rfl⟩ := h
    obtain rfl := Terminal.ext same
    obtain rfl := Terminal.ext same'
    exact ⟨first, more, closing, rfl, rfl⟩
  | plainCall d => exact (d.not_call callee paren h stops).elim

end Begins

/-! ## One derivation -/

namespace Derivation

variable {n : Nonterminal}

/-- **Two derivations from one nonterminal that go on in ways that carry on neither are the same, and
go on in the same way.** -/
theorem unique (d d' : Derivation n) {r r' : List Token} (h : d.tokens ++ r = d'.tokens ++ r')
    (stops : Stops n d.tokens r) (stops' : Stops n d'.tokens r') : d = d' ∧ r = r' := by
  -- on the first derivation; its tokens say which production made the second one
  induction d generalizing r r' with
  | expression d ih =>
    cases d' with
    | expression d' =>
      obtain ⟨rfl, rfl⟩ := ih d' h stops stops'
      exact ⟨rfl, rfl⟩
  | product d ih =>
    cases d' with
    | product d' =>
      obtain ⟨rfl, rfl⟩ := ih d' h stops stops'
      exact ⟨rfl, rfl⟩
  | factor d ih =>
    cases d' with
    | factor d' =>
      obtain ⟨rfl, rfl⟩ := ih d' h stops stops'
      exact ⟨rfl, rfl⟩
  | chain first more ih ih' =>
    cases d' with
    | chain first' more' =>
      simp only [tokens, List.append_assoc] at h
      -- the links of either chain end its first operand, and so does what ends a chain without links
      obtain ⟨rfl, hmore⟩ := ih first' h (more.stops_links stops.links) (more'.stops_links stops'.links)
      obtain ⟨rfl, rfl⟩ := ih' more' hmore stops.links.of_append stops'.links.of_append
      exact ⟨rfl, rfl⟩
  | noLink =>
    cases d' with
    | noLink => exact ⟨rfl, h⟩
    | link op level operator right more =>
      simp only [tokens, List.nil_append, List.cons_append] at h
      subst h
      exact (not_stops_operator level operator.kind_eq stops).elim
  | link op level operator right more ih ih' =>
    simp only [tokens, List.append_assoc, List.cons_append] at h
    obtain ⟨right', more', rfl, hright⟩ := link_of_operator level operator h.symm stops'
    obtain ⟨rfl, hmore⟩ :=
      ih right' hright.symm (more.stops_links stops.of_cons) (more'.stops_links stops'.of_cons)
    obtain ⟨rfl, rfl⟩ := ih' more' hmore stops.of_cons.of_append stops'.of_cons.of_append
    exact ⟨rfl, rfl⟩
  | signed sign mark operand ih =>
    obtain ⟨operand', rfl, hoperand⟩ := signed_of_mark mark h.symm
    obtain ⟨rfl, rfl⟩ := ih operand' hoperand.symm stops.of_cons stops'.of_cons
    exact ⟨rfl, rfl⟩
  | unsigned d ih =>
    cases d' with
    | signed sign mark operand =>
      exact (not_signed d mark (by simpa only [tokens, List.cons_append] using h)).elim
    | unsigned d' =>
      obtain ⟨rfl, rfl⟩ := ih d' h stops stops'
      exact ⟨rfl, rfl⟩
  | plainPower d ih =>
    cases d' with
    | plainPower d' =>
      obtain ⟨rfl, rfl⟩ := ih d' h stops.call stops'.call
      exact ⟨rfl, rfl⟩
    | raised base caret exponent =>
      simp only [tokens, List.append_assoc, List.cons_append] at h
      -- both begin with one call, and the caret behind it would carry on the first power
      obtain ⟨-, rfl⟩ := ih base h stops.call (stops_caret caret.kind_eq)
      exact (not_stops_caret caret.kind_eq stops).elim
  | raised base caret exponent ih ih' =>
    cases d' with
    | plainPower d' =>
      simp only [tokens, List.append_assoc, List.cons_append] at h
      obtain ⟨-, rfl⟩ := ih d' h (stops_caret caret.kind_eq) stops'.call
      exact (not_stops_caret caret.kind_eq stops').elim
    | raised base' caret' exponent' =>
      simp only [tokens, List.append_assoc, List.cons_append] at h
      obtain ⟨rfl, hcaret⟩ := ih base' h (stops_caret caret.kind_eq) (stops_caret caret'.kind_eq)
      obtain ⟨ht, hexponent⟩ := List.cons.inj hcaret
      obtain rfl := Terminal.ext ht
      obtain ⟨rfl, rfl⟩ := ih' exponent' hexponent stops.of_append.of_cons stops'.of_append.of_cons
      exact ⟨rfl, rfl⟩
  | emptyCall callee opening closing =>
    obtain ⟨rfl, rfl⟩ := emptyCall_of_callee callee opening closing h.symm stops'
    exact ⟨rfl, rfl⟩
  | fullCall callee opening first more closing ih ih' =>
    simp only [tokens, List.cons_append, List.append_assoc, List.nil_append] at h
    obtain ⟨first', more', closing', rfl, hfirst⟩ :=
      fullCall_of_callee callee opening h.symm stops' first.head_ne_closing
    obtain ⟨rfl, hmore⟩ :=
      ih first' hfirst.symm (more.stops_further closing.kind_eq) (more'.stops_further closing'.kind_eq)
    obtain ⟨rfl, hclosing⟩ := ih' more' hmore (stops_closing closing.kind_eq) (stops_closing closing'.kind_eq)
    obtain ⟨same, rfl⟩ := List.cons.inj hclosing
    obtain rfl := Terminal.ext same
    exact ⟨rfl, rfl⟩
  | plainCall d ih =>
    cases d' with
    | emptyCall callee opening closing =>
      exact (not_call d callee opening (by simpa only [tokens, List.cons_append] using h) stops).elim
    | fullCall callee opening first more closing =>
      exact (not_call d callee opening (by simpa only [tokens, List.cons_append] using h) stops).elim
    | plainCall d' =>
      obtain ⟨rfl, rfl⟩ := ih d' h stops stops'
      exact ⟨rfl, rfl⟩
  | noArgument =>
    cases d' with
    | noArgument => exact ⟨rfl, h⟩
    | argument comma d more =>
      simp only [tokens, List.nil_append, List.cons_append] at h
      subst h
      exact (not_stops_comma comma.kind_eq stops).elim
  | argument comma d more ih ih' =>
    simp only [tokens, List.append_assoc, List.cons_append] at h
    obtain ⟨argument, more', rfl, hargument⟩ := argument_of_comma comma h.symm stops'
    obtain ⟨rfl, hmore⟩ :=
      ih argument hargument.symm (more.stops_argument stops.of_cons) (more'.stops_argument stops'.of_cons)
    obtain ⟨rfl, rfl⟩ := ih' more' hmore stops.of_cons.of_append stops'.of_cons.of_append
    exact ⟨rfl, rfl⟩
  | number literal =>
    obtain ⟨rfl, rfl⟩ := number_of_literal literal h.symm
    exact ⟨rfl, rfl⟩
  | name word =>
    obtain ⟨rfl, rfl⟩ := name_of_word word h.symm
    exact ⟨rfl, rfl⟩
  | group opening d closing ih =>
    simp only [tokens, List.cons_append, List.append_assoc, List.nil_append] at h
    obtain ⟨inner, closing', rfl, hinner⟩ := group_of_paren opening h.symm
    obtain ⟨rfl, hclosing⟩ := ih inner hinner.symm (stops_closing closing.kind_eq) (stops_closing closing'.kind_eq)
    obtain ⟨same, rfl⟩ := List.cons.inj hclosing
    obtain rfl := Terminal.ext same
    exact ⟨rfl, rfl⟩

/-- **The grammar is unambiguous.** -/
theorem eq_of_tokens_eq {d d' : Derivation n} (h : d.tokens = d'.tokens) : d = d' :=
  (d.unique d' (congrArg (· ++ []) h) stops_nil stops_nil).1

end Derivation

end Formula
