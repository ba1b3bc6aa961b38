import Formula.Proofs.Parse.Verdict

/-!
# Parts — how each phrase goes on

For each production of the grammar and each part of it, what stands before the part and what is awaited
there (`Awaits`): the part completes to a phrase, and every phrase that begins with the same tokens has
its own part in the same place. The second half is unambiguity again, used on the parts already read.

Each limit is met where it is checked: a unary is one level deeper than what it stands in, the links of a
chain keep the room of their chain, the further arguments of a call their slots.
-/

namespace Formula

variable {depth room slots : Nat} {tier : Tier} {op : BinaryOp} {sign : Sign} {words : List Token}

theorem wantsOperand_terminal {kind : TokenKind} (t : Terminal kind) (h : kind ∈ openers) (ts : List Token) :
    WantsOperand (ts ++ [t.token]) :=
  wantsOperand_concat ts (t.kind_eq.symm ▸ h)

theorem BinaryOp.kind_mem_openers (op : BinaryOp) : op.kind ∈ openers := by cases op <;> decide

theorem Sign.kind_mem_openers (sign : Sign) : sign.kind ∈ openers := by cases sign <;> decide

/-- **A phrase that is one part awaits it at once**, when nothing else can begin like it. -/
theorem Awaits.one {n m : Nonterminal} {ok : Derivation n → Prop} {okm : Derivation m → Prop}
    (make : Derivation m → Derivation n) (tokens_eq : ∀ d, (make d).tokens = d.tokens) (repeats : n.repeats = false)
    (ends : m.continuers ⊆ n.continuers) (keeps : ∀ d, ok (make d) → okm d)
    (only : ∀ (e : Derivation n) (r : List Token), (e.tokens ++ r).head? = words.head? → Stops n e.tokens r →
      ∃ d, e = make d) : Awaits n ok [] m okm words where
  context := .inl wantsOperand_nil
  moved h := by rw [repeats] at h; cases h
  complete d := ⟨make d, [], by rw [tokens_eq, List.append_nil, List.nil_append]⟩
  align := by
    rintro e r goesOn rfl stops heads
    obtain ⟨d, rfl⟩ := only e r heads stops
    rw [tokens_eq] at stops ⊢
    exact ⟨d, r, rfl, stops.mono ends, keeps d⟩

/-! ## Chains -/

theorem awaits_sum : Awaits .expression (·.Within depth) [] (.chain .addition) (·.Within depth) words := by
  refine Awaits.one .expression (fun _ => rfl) rfl (by decide) (fun _ => id) ?_
  rintro (_ | _) r - -
  exact ⟨_, rfl⟩

theorem awaits_product :
    Awaits (.operand .addition) (·.Within depth) [] (.chain .multiplication) (·.Within depth) words := by
  refine Awaits.one .product (fun _ => rfl) rfl (by decide) (fun _ => id) ?_
  intro e r _ _
  cases e with
  | product d => exact ⟨d, rfl⟩

theorem awaits_factor : Awaits (.operand .multiplication) (·.Within depth) [] .unary (·.Within depth) words := by
  refine Awaits.one .factor (fun _ => rfl) rfl (by decide) (fun _ => id) ?_
  intro e r _ _
  cases e with
  | factor d => exact ⟨d, rfl⟩

theorem awaits_first : Awaits (.chain tier) (·.Within depth) [] (.operand tier) (·.Within depth) words where
  context := .inl wantsOperand_nil
  moved h := nomatch h
  complete d := ⟨.chain d .noLink, [], rfl⟩
  align := by
    rintro (_ | _) r goesOn rfl stops -
    rename_i first more
    refine ⟨first, more.tokens ++ r, by rw [Derivation.tokens, List.append_assoc], ?_, fun h => h.2.1⟩
    exact more.stops_links stops.links

/-- After its first operand a chain goes on with its links, for which there is some room. -/
theorem awaits_links (first : Derivation (.operand tier)) (ends : Stops (.operand tier) first.tokens words)
    (full : depth + room = maxNesting) :
    Awaits (.chain tier) (·.Within depth) first.tokens (.links tier) (fun d => d.length ≤ room ∧ d.Within depth)
      words where
  context := .inr rfl
  moved h := nomatch h
  complete d := ⟨.chain first d, [], by rw [Derivation.tokens, List.append_nil]⟩
  align := by
    rintro (_ | _) r goesOn h stops heads
    rename_i first' more
    rw [Derivation.tokens, List.append_assoc] at h
    obtain ⟨rfl, rfl⟩ := first'.unique first h (more.stops_links stops.links) (ends.of_head?_eq heads)
    refine ⟨more, r, rfl, stops.links.of_append, ?_⟩
    rintro ⟨fits, -, keeps⟩
    exact ⟨by omega, keeps⟩

theorem awaits_right (level : op.tier? = some tier) (operator : Terminal op.kind) :
    Awaits (.links tier) (fun d => d.length ≤ room ∧ d.Within depth) [operator.token] (.operand tier)
      (·.Within depth) words where
  context := .inl (wantsOperand_terminal operator op.kind_mem_openers [])
  moved _ := List.cons_ne_nil _ _
  complete d := ⟨.link op level operator d .noLink, [], rfl⟩
  align := by
    intro e r goesOn h stops _
    obtain ⟨right, more, rfl, rfl⟩ := link_of_operator level operator h stops
    refine ⟨right, more.tokens ++ r, rfl, more.stops_links (Stops.of_cons stops), ?_⟩
    rintro ⟨-, keeps, -⟩
    exact keeps

theorem awaits_moreLinks (level : op.tier? = some tier) (operator : Terminal op.kind)
    (right : Derivation (.operand tier)) (ends : Stops (.operand tier) right.tokens words) :
    Awaits (.links tier) (fun d => d.length ≤ room + 1 ∧ d.Within depth) (operator.token :: right.tokens)
      (.links tier) (fun d => d.length ≤ room ∧ d.Within depth) words where
  context := .inr rfl
  moved _ := List.cons_ne_nil _ _
  complete d := ⟨.link op level operator right d, [], by rw [Derivation.tokens, List.append_nil, List.cons_append]⟩
  align := by
    intro e r goesOn h stops heads
    obtain ⟨right', more, rfl, hright⟩ := link_of_operator level operator h stops
    have stops' := Stops.of_cons stops
    obtain ⟨rfl, rfl⟩ := right'.unique right hright (more.stops_links stops') (ends.of_head?_eq heads)
    refine ⟨more, r, rfl, stops'.of_append, ?_⟩
    rintro ⟨fits, -, keeps⟩
    exact ⟨Nat.le_of_succ_le_succ fits, keeps⟩

/-! ## Signs and powers -/

theorem awaits_signed (mark : Terminal sign.kind) :
    Awaits .unary (·.Within depth) [mark.token] .unary (·.Within (depth + 1)) words where
  context := .inl (wantsOperand_terminal mark sign.kind_mem_openers [])
  moved h := nomatch h
  complete d := ⟨.signed sign mark d, [], by rw [Derivation.tokens, List.append_nil]; rfl⟩
  align := by
    intro e r goesOn h stops _
    obtain ⟨d, rfl, rfl⟩ := signed_of_mark mark h
    exact ⟨d, r, rfl, stops.of_cons, fun keeps => keeps.2⟩

theorem awaits_unsigned (unmarked : ∀ t ∈ words.head?, ∀ sign : Sign, t.kind ≠ sign.kind) :
    Awaits .unary (·.Within depth) [] .power (·.Within (depth + 1)) words := by
  refine Awaits.one .unsigned (fun _ => rfl) rfl (by decide) (fun _ keeps => keeps.2) ?_
  intro e r heads _
  cases e with
  | signed sign mark d => exact (unmarked mark.token heads.symm sign mark.kind_eq).elim
  | unsigned d => exact ⟨d, rfl⟩

theorem awaits_base : Awaits .power (·.Within depth) [] .call (·.Within depth) words where
  context := .inl wantsOperand_nil
  moved h := nomatch h
  complete d := ⟨.plainPower d, [], by rw [Derivation.tokens, List.append_nil]; rfl⟩
  align := by
    rintro e r goesOn rfl stops -
    cases e with
    | plainPower d => exact ⟨d, r, rfl, stops.call, id⟩
    | raised base caret exponent =>
      refine ⟨base, caret.token :: (exponent.tokens ++ r), ?_, stops_caret caret.kind_eq, fun keeps => keeps.1⟩
      rw [Derivation.tokens, List.append_assoc, List.cons_append]

theorem awaits_exponent (base : Derivation .call) (caret : Terminal .caret) :
    Awaits .power (·.Within depth) (base.tokens ++ [caret.token]) .unary (·.Within depth) words where
  context := .inl (wantsOperand_terminal caret (by decide) base.tokens)
  moved h := nomatch h
  complete d := ⟨.raised base caret d, [], by rw [Derivation.tokens, List.append_nil, List.append_assoc]; rfl⟩
  align := by
    intro e r goesOn h stops _
    rw [List.append_assoc] at h
    cases e with
    | plainPower d =>
      obtain ⟨-, rfl⟩ := d.unique base h stops.call (stops_caret caret.kind_eq)
      exact (not_stops_caret caret.kind_eq stops).elim
    | raised base' caret' exponent =>
      rw [Derivation.tokens, List.append_assoc] at h
      obtain ⟨rfl, hcaret⟩ := base'.unique base h (stops_caret caret'.kind_eq) (stops_caret caret.kind_eq)
      obtain ⟨-, rfl⟩ := List.cons.inj hcaret
      exact ⟨exponent, r, rfl, stops.of_append.of_cons, fun keeps => keeps.2⟩

/-! ## Calls and groups -/

theorem awaits_plainCall (unnamed : ∀ t ∈ words.head?, t.kind ≠ .identifier) :
    Awaits .call (·.Within depth) [] .basic (·.Within depth) words := by
  refine Awaits.one .plainCall (fun _ => rfl) rfl (by decide) (fun _ => id) ?_
  intro e r heads _
  cases e with
  | emptyCall callee | fullCall callee => exact (unnamed callee.token heads.symm callee.kind_eq).elim
  | plainCall d => exact ⟨d, rfl⟩

variable (callee : Terminal .identifier) (paren : Terminal .openParen)

theorem awaits_firstArgument (unclosed : ∀ t ∈ words.head?, t.kind ≠ .closeParen) :
    Awaits .call (·.Within depth) [callee.token, paren.token] .expression (·.Within depth) words where
  context := .inl (wantsOperand_terminal paren (by decide) [callee.token])
  moved h := nomatch h
  complete d := ⟨.fullCall callee paren d .noArgument ⟨⟨.closeParen, 0, ""⟩, rfl⟩, _, rfl⟩
  align := by
    intro e r goesOn h stops heads
    obtain ⟨first, more, closing, rfl, rfl⟩ := fullCall_of_callee callee paren h stops (heads ▸ unclosed)
    exact ⟨first, _, rfl, more.stops_further closing.kind_eq, fun keeps => keeps.2.1⟩

/-- After its first argument a call goes on with further ones, for which there are some slots. -/
theorem awaits_further (first : Derivation .expression) (ends : Stops .expression first.tokens words) :
    Awaits .call (·.Within depth) (callee.token :: paren.token :: first.tokens) .further
      (fun d => d.length ≤ maxArguments - 1 ∧ d.Within depth) words where
  context := .inr rfl
  moved h := nomatch h
  complete d := ⟨.fullCall callee paren first d ⟨⟨.closeParen, 0, ""⟩, rfl⟩, _, rfl⟩
  align := by
    intro e r goesOn h stops heads
    obtain ⟨first', more, closing, rfl, hfirst⟩ := fullCall_of_callee callee paren h stops first.head_ne_closing
    obtain ⟨rfl, rfl⟩ := first'.unique first hfirst (more.stops_further closing.kind_eq) (ends.of_head?_eq heads)
    refine ⟨more, _, rfl, stops_closing closing.kind_eq, ?_⟩
    rintro ⟨fits, -, keeps⟩
    exact ⟨Nat.le_sub_of_add_le fits, keeps⟩

theorem awaits_argument (comma : Terminal .comma) :
    Awaits .further (fun d => d.length ≤ slots ∧ d.Within depth) [comma.token] .expression (·.Within depth)
      words where
  context := .inl (wantsOperand_terminal comma (by decide) [])
  moved _ := List.cons_ne_nil _ _
  complete d := ⟨.argument comma d .noArgument, [], rfl⟩
  align := by
    intro e r goesOn h stops _
    obtain ⟨d, more, rfl, rfl⟩ := argument_of_comma comma h stops
    refine ⟨d, more.tokens ++ r, rfl, more.stops_argument (Stops.of_cons stops), ?_⟩
    rintro ⟨-, keeps, -⟩
    exact keeps

theorem awaits_moreArguments (comma : Terminal .comma) (d : Derivation .expression)
    (ends : Stops .expression d.tokens words) :
    Awaits .further (fun d => d.length ≤ slots + 1 ∧ d.Within depth) (comma.token :: d.tokens) .further
      (fun d => d.length ≤ slots ∧ d.Within depth) words where
  context := .inr rfl
  moved _ := List.cons_ne_nil _ _
  complete more := ⟨.argument comma d more, [], by rw [Derivation.tokens, List.append_nil, List.cons_append]⟩
  align := by
    intro e r goesOn h stops heads
    obtain ⟨d', more, rfl, hd⟩ := argument_of_comma comma h stops
    have stops' := Stops.of_cons stops
    obtain ⟨rfl, rfl⟩ := d'.unique d hd (more.stops_argument stops') (ends.of_head?_eq heads)
    refine ⟨more, r, rfl, stops'.of_append, ?_⟩
    rintro ⟨fits, -, keeps⟩
    exact ⟨Nat.le_of_succ_le_succ fits, keeps⟩

theorem awaits_group :
    Awaits .basic (·.Within depth) [paren.token] .expression (·.Within depth) words where
  context := .inl (wantsOperand_terminal paren (by decide) [])
  moved h := nomatch h
  complete d := ⟨.group paren d ⟨⟨.closeParen, 0, ""⟩, rfl⟩, _, rfl⟩
  align := by
    intro e r goesOn h _ _
    obtain ⟨d, closing, rfl, rfl⟩ := group_of_paren paren h
    exact ⟨d, _, rfl, stops_closing closing.kind_eq, id⟩

end Formula
