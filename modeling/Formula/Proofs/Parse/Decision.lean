import Formula.Proofs.Parse.Parts

/-!
# Decisions — each parser of the grammar decides its nonterminal

One theorem for each parser: given that the parsers it calls decide their nonterminals, it decides its
own. The links of a chain and the further arguments of a call are read by loops, so theirs are
inductions, on the room and on the turns; there the verdict begins where the phrase before it has ended.
A unary calls itself with less room, and `decides_unary` is the induction that closes the circle: a
unary with some room decides unaries at the depth that the room leaves.

`decides_expression` is what the rest of the theory is made from.
-/

namespace Formula

/-- The kinds of tokens that link a chain. -/
def Tier.operators : Tier → TokenSet
  | addition => additive
  | multiplication => multiplicative

variable {tier : Tier} {words : List Token} {stop : Stop} {t : Token}

/-! ## The token at the front -/

theorem exists_operator (h : tier.operators.contains t.kind = true) :
    ∃ op : BinaryOp, op.tier? = some tier ∧ t.kind = op.kind := by
  cases tier with
  | addition =>
    rcases List.mem_cons.mp ((FlagSet.contains_ofList _ _).mp h) with hk | hk
    · exact ⟨.add, rfl, hk⟩
    · exact ⟨.sub, rfl, List.mem_singleton.mp hk⟩
  | multiplication =>
    rcases List.mem_cons.mp ((FlagSet.contains_ofList _ _).mp h) with hk | hk
    · exact ⟨.mul, rfl, hk⟩
    · rcases List.mem_cons.mp hk with hk | hk
      · exact ⟨.div, rfl, hk⟩
      · exact ⟨.rem, rfl, List.mem_singleton.mp hk⟩

theorem exists_link (h : tier.operators.contains (⟨words, stop⟩ : Tokens).head.kind = true) :
    ∃ (t : Token) (ts : List Token) (op : BinaryOp), words = t :: ts ∧ op.tier? = some tier ∧ t.kind = op.kind := by
  obtain ⟨t, ts, split, seen⟩ := Tokens.exists_word (by cases tier <;> decide) (by cases tier <;> decide) h
  obtain ⟨op, level, hk⟩ := exists_operator seen
  exact ⟨t, ts, op, split, level, hk⟩

/-- What carries on a chain carries on its last operand, or is an operator of the chain. -/
theorem continuers_links {kind : TokenKind} (h : kind ∈ (Nonterminal.links tier).continuers) :
    kind ∈ (Nonterminal.operand tier).continuers ∨ tier.operators.contains kind = true := by
  revert h
  cases tier <;> cases kind <;> decide

theorem exists_sign (h : signs.contains t.kind = true) : ∃ sign : Sign, t.kind = sign.kind := by
  rcases List.mem_cons.mp ((FlagSet.contains_ofList _ _).mp h) with hk | hk
  · exact ⟨.minus, hk⟩
  · exact ⟨.plus, List.mem_singleton.mp hk⟩

theorem contains_one (kind other : TokenKind) : (FlagSet.ofList [kind]).contains other = true ↔ other = kind := by
  rw [FlagSet.contains_ofList, List.mem_singleton]

theorem exists_word_of_kind {kind : TokenKind} (ends : kind ≠ .endOfInput) (stuck : kind ≠ .invalid)
    (h : (FlagSet.ofList [kind]).contains (⟨words, stop⟩ : Tokens).head.kind = true) :
    ∃ t ts, words = t :: ts ∧ t.kind = kind := by
  have unseen {other : TokenKind} (ne : kind ≠ other) : (FlagSet.ofList [kind]).contains other = false :=
    Bool.eq_false_iff.mpr fun seen => ne ((contains_one kind other).mp seen).symm
  obtain ⟨t, ts, split, seen⟩ := Tokens.exists_word (unseen ends) (unseen stuck) h
  exact ⟨t, ts, split, (contains_one kind t.kind).mp seen⟩

theorem not_seen {kinds : TokenSet} (h : kinds.contains (⟨words, stop⟩ : Tokens).head.kind = false) :
    ∀ t ∈ words.head?, kinds.contains t.kind = false := by
  intro t ht
  cases words with
  | nil => cases ht
  | cons s ts =>
    obtain rfl : s = t := Option.some.inj ht
    exact h

theorem kind_ne_of_not_seen {kind : TokenKind}
    (h : (FlagSet.ofList [kind]).contains (⟨words, stop⟩ : Tokens).head.kind = false) :
    ∀ t ∈ words.head?, t.kind ≠ kind := by
  intro t ht same
  exact Bool.false_ne_true ((not_seen h t ht).symm.trans ((contains_one kind t.kind).mpr same))

namespace Parser

variable {depth : Nat} {operand expression unary : Parser Part}

/-! ## Chains -/

theorem joined_some {op : BinaryOp} (left right : Expr) (h : t.kind = op.kind) :
    joined (some left) t (some right) = some (.binary op left right t.span) := by
  have known : BinaryOp.ofKind? t.kind = some op := by
    rw [h]
    cases op <;> rfl
  simp only [joined, known, Option.bind_eq_bind, Option.bind_some, pure]

theorem stops_links_of_not_seen (ends : Stops (.operand tier) [] words)
    (h : tier.operators.contains (⟨words, stop⟩ : Tokens).head.kind = false) : Stops (.links tier) [] words := by
  intro t ht
  refine ⟨?_, (ends t ht).2⟩
  intro carries
  rcases continuers_links carries with carries | seen
  · exact (ends t ht).1 carries
  · exact Bool.false_ne_true ((not_seen h t ht).symm.trans seen)

/-- **A link past the limit**, at its operator. -/
theorem breaks_tooLong {op : BinaryOp} (level : op.tier? = some tier) (operator : Terminal op.kind)
    {ts : List Token} :
    Breaks (.links tier) (fun d => d.length ≤ 0 ∧ d.Within depth) ⟨.tooDeep, operator.token.offset⟩ []
      (operator.token :: ts) stop where
  offset_eq := rfl
  describes := trivial
  moved _ h := nomatch h
  viable h := nomatch h
  refutes := by
    intro d r goesOn hd stops heads
    obtain ⟨us, rfl⟩ := List.head?_eq_some_iff.mp heads
    obtain ⟨right, more, rfl, -⟩ := link_of_operator level operator hd stops
    refine ⟨rfl, ?_⟩
    rintro ⟨fits, -⟩
    exact Nat.not_succ_le_zero _ fits

/-- **The links of a chain**, read where an operand has ended. -/
theorem decides_links (ho : operand.Decides (.operand tier) (·.Within depth) (fun d => some d.tree)) (room : Nat) :
    ∀ (left : Expr) {words : List Token} (stop : Stop), Stops (.operand tier) [] words →
      Verdict (.links tier) (fun d => d.length ≤ room ∧ d.Within depth) (fun d => some (d.tree left)) words stop
        ((chain tier.operators operand room (some left)).answer ⟨words, stop⟩) := by
  induction room with
  | zero =>
    intro left words stop ends
    -- an operator seen now is one too many, and every phrase that goes on with it breaks the limit
    unfold chain
    rw [answer_sees]
    cases seen : tier.operators.contains (⟨words, stop⟩ : Tokens).head.kind with
    | false => exact .reads .noLink words rfl (stops_links_of_not_seen ends seen) ⟨Nat.le_refl 0, trivial⟩ rfl
    | true =>
      obtain ⟨t, ts, op, rfl, level, hk⟩ := exists_link seen
      exact .fails _ [] (t :: ts) rfl rfl (breaks_tooLong level ⟨t, hk⟩)
  | succ room ih =>
    intro left words stop ends
    unfold chain
    rw [answer_sees]
    cases seen : tier.operators.contains (⟨words, stop⟩ : Tokens).head.kind with
    | false => exact .reads .noLink words rfl (stops_links_of_not_seen ends seen) ⟨Nat.zero_le _, trivial⟩ rfl
    | true =>
      obtain ⟨t, ts, op, rfl, level, hk⟩ := exists_link seen
      rw [if_pos rfl, answer_take, Tokens.head_cons, Tokens.tail_cons]
      refine Verdict.bind [t] (ho ts stop) (awaits_right level ⟨t, hk⟩) ?_
      rintro right rest rfl ends' keeps
      rw [joined_some left right.tree hk]
      refine Verdict.last (t :: right.tokens) (ih _ stop ends'.forget)
        (awaits_moreLinks level ⟨t, hk⟩ right ends') ?_
      rintro more rest' rfl stops ⟨fits, keeps'⟩
      refine ⟨.link op level ⟨t, hk⟩ right more, rfl, ?_, ⟨Nat.succ_le_succ fits, keeps, keeps'⟩, rfl⟩
      -- without more links it is the right operand that ends the phrase
      exact stops.join (ends'.append (right.tokens_ne_nil rfl) [t])

theorem decides_chain {room : Nat} (full : depth + room = maxNesting)
    (ho : operand.Decides (.operand tier) (·.Within depth) (fun d => some d.tree)) :
    (operand >>= chain tier.operators operand room).Decides (.chain tier) (·.Within depth)
      (fun d => some d.tree) := by
  intro words stop
  refine Verdict.bind [] (ho words stop) awaits_first ?_
  rintro first rest rfl ends keeps
  refine Verdict.last first.tokens (decides_links ho room first.tree stop ends.forget)
    (awaits_links first ends full) ?_
  rintro more rest' rfl stops ⟨fits, keeps'⟩
  refine ⟨.chain first more, rfl, ?_, ⟨by omega, keeps, keeps'⟩, rfl⟩
  exact (stops.join ends).mono (by cases tier <;> decide)

theorem decides_multiplication {room : Nat} (full : depth + room = maxNesting)
    (hu : unary.Decides .unary (·.Within depth) (fun d => some d.tree)) :
    (multiplication room unary).Decides (.chain .multiplication) (·.Within depth) (fun d => some d.tree) := by
  refine decides_chain full fun words stop => ?_
  exact Verdict.last [] (hu words stop) awaits_factor fun d _ _ stops keeps => ⟨.factor d, rfl, stops, keeps, rfl⟩

/-- **An expression**, over a way to parse its unaries. -/
theorem decides_addition {room : Nat} (full : depth + room = maxNesting)
    (hu : unary.Decides .unary (·.Within depth) (fun d => some d.tree)) :
    (addition room unary).Decides .expression (·.Within depth) (fun d => some d.tree) := by
  have product : (multiplication room unary).Decides (.operand .addition) (·.Within depth) (fun d => some d.tree) :=
    fun words stop => Verdict.last [] (decides_multiplication full hu words stop) awaits_product
      fun d _ _ stops keeps => ⟨.product d, rfl, stops, keeps, rfl⟩
  intro words stop
  exact Verdict.last [] (decides_chain full product words stop) awaits_sum
    fun d _ _ stops keeps => ⟨.expression d, rfl, stops, keeps, rfl⟩

/-! ## Groups and calls -/

/-- Where no operator carries a phrase on, a last token that is no name ends it. -/
theorem stops_unnamed {n : Nonterminal} (none : n.continuers = []) (unnamed : t.kind ≠ .identifier)
    (ps rest : List Token) : Stops n (ps ++ [t]) rest := by
  refine Stops.of_last ?_ unnamed ps
  intro s _
  rw [none]
  refine ⟨List.not_mem_nil, ?_⟩
  intro _ s' hs'
  cases hs'

/-- **A token that begins no operand**, where one is wanted. -/
theorem breaks_noOperand {ok : Derivation .basic → Prop}
    (none : ∀ t ∈ words.head?, t.kind ∉ Nonterminal.basic.starters) :
    Breaks .basic ok ⟨.noOperand (⟨words, stop⟩ : Tokens).head.kind, (⟨words, stop⟩ : Tokens).head.offset⟩ []
      words stop where
  offset_eq := rfl
  describes := ⟨rfl, wantsOperand_nil⟩
  moved h := nomatch h
  viable _ := ⟨.number ⟨⟨.number, 0, ""⟩, rfl⟩, _, rfl⟩
  refutes := by
    rintro d r goesOn hd - heads
    obtain ⟨t, ts, ht, starts⟩ := d.exists_first rfl
    rw [ht] at hd
    obtain rfl : t :: (ts ++ r) = goesOn := hd
    exact (none t heads.symm starts).elim

theorem breaks_group (paren : Terminal .openParen) (d : Derivation .expression) {rest : List Token}
    (ends : Stops .expression d.tokens rest)
    (unclosed : closing.contains (⟨rest, stop⟩ : Tokens).head.kind = false) :
    Breaks .basic (·.Within depth)
      ⟨.expected closing (⟨rest, stop⟩ : Tokens).head.kind, (⟨rest, stop⟩ : Tokens).head.offset⟩
      (paren.token :: d.tokens) rest stop where
  offset_eq := rfl
  describes := ⟨rfl, (EndsOperand.of_or d.endsOperand rfl).cons paren.token⟩
  moved h := nomatch h
  viable _ := ⟨.group paren d ⟨⟨.closeParen, 0, ""⟩, rfl⟩, _, rfl⟩
  refutes := by
    intro d' r goesOn hd _ heads
    obtain ⟨d', closing, rfl, hd'⟩ := group_of_paren paren hd
    obtain ⟨-, rfl⟩ := d'.unique d hd' (stops_closing closing.kind_eq) (ends.of_head?_eq heads)
    exact (kind_ne_of_not_seen unclosed closing.token heads.symm closing.kind_eq).elim

theorem decides_basic (he : expression.Decides .expression (·.Within depth) (fun d => some d.tree))
    (unnamed : ∀ t ∈ words.head?, t.kind ≠ .identifier) (stop : Stop) :
    Verdict .basic (·.Within depth) (fun d => some d.tree) words stop
      ((basic expression).answer ⟨words, stop⟩) := by
  unfold basic
  rw [answer_peek]
  cases words with
  | nil =>
    refine .fails _ [] [] rfl ?_ (breaks_noOperand fun _ h => nomatch h)
    rw [Tokens.head_nil]
    cases stop <;> rfl
  | cons t ts =>
    rw [Tokens.head_cons]
    cases hk : t.kind with
    | openParen =>
      rw [answer_take, Tokens.tail_cons]
      refine Verdict.bind [t] (he ts stop) (awaits_group ⟨t, hk⟩) ?_
      rintro d rest rfl ends keeps
      cases seen : closing.contains (⟨rest, stop⟩ : Tokens).head.kind with
      | true =>
        obtain ⟨t', ts, rfl, closes⟩ := exists_word_of_kind (by decide) (by decide) seen
        rw [answer_expect seen]
        refine .reads (.group ⟨t, hk⟩ d ⟨t', closes⟩) ts ?_ (stops_unnamed rfl ?_ (t :: d.tokens) ts) keeps rfl
        · simp only [Derivation.tokens, List.cons_append, List.append_assoc, List.nil_append]
        · rw [closes]
          decide
      | false => exact .fails _ (t :: d.tokens) rest rfl (failsAt_expect seen _) (breaks_group ⟨t, hk⟩ d ends seen)
    | number =>
      refine .reads (.number ⟨t, hk⟩) ts rfl (stops_unnamed rfl ?_ [] ts) trivial ?_
      · rw [hk]
        decide
      · rw [answer_take]
        rfl
    | identifier => exact (unnamed t rfl hk).elim
    | plus | minus | star | slash | percent | caret | closeParen | comma | endOfInput | invalid | blank =>
      refine .fails _ [] (t :: ts) rfl ?_ (breaks_noOperand ?_)
      · rw [Tokens.head_cons, hk]
        rfl
      · rintro _ ⟨⟩
        rw [hk]
        decide

/-- **An argument past the limit**, at its comma. -/
theorem breaks_tooManyArguments (comma : Terminal .comma) {ts : List Token} :
    Breaks .further (fun d => d.length ≤ 0 ∧ d.Within depth) ⟨.tooManyArguments, comma.token.offset⟩ []
      (comma.token :: ts) stop where
  offset_eq := rfl
  describes := trivial
  moved _ h := nomatch h
  viable h := nomatch h
  refutes := by
    intro d r goesOn hd stops heads
    obtain ⟨us, rfl⟩ := List.head?_eq_some_iff.mp heads
    obtain ⟨d, more, rfl, -⟩ := argument_of_comma comma hd stops
    refine ⟨rfl, ?_⟩
    rintro ⟨fits, -⟩
    exact Nat.not_succ_le_zero _ fits

/-- **The further arguments of a call**, read where an argument has ended. Each turn takes a comma, so
there are turns enough as long as there are as many as words. -/
theorem decides_further (he : expression.Decides .expression (·.Within depth) (fun d => some d.tree)) (turns : Nat) :
    ∀ (slots : Nat) {words : List Token} (stop : Stop), words.length ≤ turns → Stops .expression [] words →
      Verdict .further (fun d => d.length ≤ slots ∧ d.Within depth) (fun d => d.tree.map some) words stop
        ((moreArguments expression turns slots false).answer ⟨words, stop⟩) := by
  induction turns with
  | zero =>
    intro slots words stop enough ends
    obtain rfl := List.length_eq_zero_iff.mp (Nat.le_zero.mp enough)
    exact .reads .noArgument [] rfl stops_nil ⟨Nat.zero_le _, trivial⟩ rfl
  | succ turns ih =>
    intro slots words stop enough ends
    unfold moreArguments
    rw [answer_sees]
    cases seen : separator.contains (⟨words, stop⟩ : Tokens).head.kind with
    | false =>
      have stops : Stops .further [] words := by
        intro t ht
        refine ⟨?_, (ends t ht).2⟩
        intro carries
        have carries : t.kind ∈ Nonterminal.expression.continuers ++ [.comma] := carries
        rcases List.mem_append.mp carries with hk | hk
        · exact (ends t ht).1 hk
        · exact kind_ne_of_not_seen seen t ht (List.mem_singleton.mp hk)
      exact .reads .noArgument words rfl stops ⟨Nat.zero_le _, trivial⟩ rfl
    | true =>
      obtain ⟨t, ts, rfl, hk⟩ := exists_word_of_kind (by decide) (by decide) seen
      rw [if_pos rfl, answer_take, Tokens.head_cons, Tokens.tail_cons]
      refine Verdict.bind [t] (he ts stop) (awaits_argument ⟨t, hk⟩) ?_
      rintro d rest rfl ends' keeps
      cases slots with
      | zero =>
        -- noted behind the argument, but at its comma
        refine .fails _ [] _ rfl ?_ (breaks_tooManyArguments ⟨t, hk⟩)
        rfl
      | succ slots =>
        -- the comma is gone, so a turn less is enough
        have fewer : rest.length ≤ turns := by
          simp only [List.length_cons, List.length_append] at enough
          omega
        refine Verdict.bind (t :: d.tokens) (ih slots stop fewer ends'.forget)
          (awaits_moreArguments ⟨t, hk⟩ d ends') ?_
        rintro more rest' rfl stops ⟨fits, keeps'⟩
        refine .reads (.argument ⟨t, hk⟩ d more) rest' ?_ ?_ ⟨Nat.succ_le_succ fits, keeps, keeps'⟩ rfl
        · simp only [Derivation.tokens, List.cons_append, List.append_assoc]
        · exact stops.join (ends'.append (d.tokens_ne_nil rfl) [t])

theorem allOf_map_some : ∀ es : List Expr, allOf (es.map some) = some es
  | [] => rfl
  | e :: es => by rw [List.map_cons, allOf, allOf_map_some es, Option.map_some]

theorem breaks_call (callee : Terminal .identifier) (paren : Terminal .openParen) (first : Derivation .expression)
    (more : Derivation .further) {rest : List Token} (ends : Stops .expression first.tokens (more.tokens ++ rest))
    (ends' : Stops .further more.tokens rest)
    (unclosed : closing.contains (⟨rest, stop⟩ : Tokens).head.kind = false) :
    Breaks .call (·.Within depth)
      ⟨.expected closing (⟨rest, stop⟩ : Tokens).head.kind, (⟨rest, stop⟩ : Tokens).head.offset⟩
      (callee.token :: paren.token :: (first.tokens ++ more.tokens)) rest stop where
  offset_eq := rfl
  describes := by
    have last := (EndsOperand.of_or first.endsOperand rfl).append (more.endsOperand.imp_left And.right)
    exact ⟨rfl, (last.cons paren.token).cons callee.token⟩
  moved h := nomatch h
  viable _ := by
    refine ⟨.fullCall callee paren first more ⟨⟨.closeParen, 0, ""⟩, rfl⟩, [⟨.closeParen, 0, ""⟩], ?_⟩
    simp only [Derivation.tokens, List.cons_append, List.append_assoc]
  refutes := by
    intro d r goesOn hd stops heads
    have same : (more.tokens ++ goesOn).head? = (more.tokens ++ rest).head? := by
      rw [List.head?_append, heads, List.head?_append]
    simp only [List.cons_append, List.append_assoc] at hd
    have unclosed' : ∀ t ∈ (first.tokens ++ (more.tokens ++ goesOn)).head?, t.kind ≠ .closeParen :=
      first.head_ne_closing
    -- the call that goes on has the same arguments, so it closes where this one should
    obtain ⟨first', more', closing, rfl, hfirst⟩ := fullCall_of_callee callee paren hd stops unclosed'
    obtain ⟨rfl, hmore⟩ :=
      first'.unique first hfirst (more'.stops_further closing.kind_eq) (ends.of_head?_eq same)
    obtain ⟨rfl, rfl⟩ := more'.unique more hmore (stops_closing closing.kind_eq) (ends'.of_head?_eq heads)
    exact (kind_ne_of_not_seen unclosed closing.token heads.symm closing.kind_eq).elim

theorem decides_call (he : expression.Decides .expression (·.Within depth) (fun d => some d.tree)) :
    (call expression).Decides .call (·.Within depth) (fun d => some d.tree) := by
  intro words stop
  unfold call
  rw [answer_sees]
  cases named : nameStart.contains (⟨words, stop⟩ : Tokens).head.kind with
  | false =>
    have unnamed := kind_ne_of_not_seen named
    exact Verdict.last [] (decides_basic he unnamed stop) (awaits_plainCall unnamed)
      fun d _ _ stops keeps => ⟨.plainCall d, rfl, stops, keeps, rfl⟩
  | true =>
    obtain ⟨t, ts, rfl, hk⟩ := exists_word_of_kind (by decide) (by decide) named
    rw [if_pos rfl, answer_take, Tokens.head_cons, Tokens.tail_cons, answer_sees]
    cases opens : opening.contains (⟨ts, stop⟩ : Tokens).head.kind with
    | false =>
      refine .reads (.plainCall (.name ⟨t, hk⟩)) ts rfl ?_ trivial rfl
      intro s hs
      exact ⟨List.not_mem_nil, fun opened => (kind_ne_of_not_seen opens s hs opened).elim⟩
    | true =>
      obtain ⟨s, us, rfl, hs⟩ := exists_word_of_kind (by decide) (by decide) opens
      rw [if_pos rfl, arguments, answer_assoc, answer_take, Tokens.tail_cons, answer_assoc, answer_sees]
      cases closes : closing.contains (⟨us, stop⟩ : Tokens).head.kind with
      | true =>
        obtain ⟨u, vs, rfl, hu⟩ := exists_word_of_kind (by decide) (by decide) closes
        rw [if_pos rfl, answer_assoc, answer_take]
        have unnamed : u.kind ≠ .identifier := by
          rw [hu]
          decide
        exact .reads (.emptyCall ⟨t, hk⟩ ⟨s, hs⟩ ⟨u, hu⟩) vs rfl (stops_unnamed rfl unnamed [t, s] vs) trivial rfl
      | false =>
        rw [if_neg Bool.false_ne_true, answer_assoc]
        refine Verdict.bind [t, s] (he us stop)
          (awaits_firstArgument ⟨t, hk⟩ ⟨s, hs⟩ (kind_ne_of_not_seen closes)) ?_
        rintro first rest rfl ends keeps
        rw [answer_assoc, answer_wordsLeft, answer_assoc]
        refine Verdict.bind (t :: s :: first.tokens) (decides_further he _ _ stop (Nat.le_refl _) ends.forget)
          (awaits_further ⟨t, hk⟩ ⟨s, hs⟩ first ends) ?_
        rintro more rest rfl ends' ⟨fits, keeps'⟩
        rw [answer_assoc]
        cases seen : closing.contains (⟨rest, stop⟩ : Tokens).head.kind with
        | true =>
          obtain ⟨u, vs, rfl, hu⟩ := exists_word_of_kind (by decide) (by decide) seen
          have within : (Derivation.fullCall ⟨t, hk⟩ ⟨s, hs⟩ first more ⟨u, hu⟩).Within depth :=
            ⟨Nat.add_le_of_le_sub (by decide) fits, keeps, keeps'⟩
          have last : Stops .call (t :: s :: (first.tokens ++ more.tokens) ++ [u]) vs :=
            stops_unnamed rfl (by rw [hu]; decide) _ vs
          simp only [List.cons_append, List.append_assoc] at last
          rw [answer_expect seen]
          refine .reads (.fullCall ⟨t, hk⟩ ⟨s, hs⟩ first more ⟨u, hu⟩) vs ?_ last within ?_
          · simp only [Derivation.tokens, List.cons_append, List.append_assoc, List.nil_append]
          · rw [allOf, allOf_map_some]
            rfl
        | false =>
          refine .fails _ (t :: s :: (first.tokens ++ more.tokens)) rest ?_ (failsAt_expect seen _)
            (breaks_call ⟨t, hk⟩ ⟨s, hs⟩ first more ends ends' seen)
          simp only [List.cons_append, List.append_assoc]

/-! ## Powers and signs -/

theorem decides_power (he : expression.Decides .expression (·.Within depth) (fun d => some d.tree))
    (hu : unary.Decides .unary (·.Within depth) (fun d => some d.tree)) :
    (power expression unary).Decides .power (·.Within depth) (fun d => some d.tree) := by
  intro words stop
  refine Verdict.bind [] (decides_call he words stop) awaits_base ?_
  rintro base rest rfl ends keeps
  rw [answer_sees]
  cases seen : powerMark.contains (⟨rest, stop⟩ : Tokens).head.kind with
  | false =>
    have unmarked : Stops .power [] rest := by
      intro t ht
      refine ⟨fun carries => kind_ne_of_not_seen seen t ht (List.mem_singleton.mp carries), ?_⟩
      intro _ s hs
      cases hs
    exact .reads (.plainPower base) rest rfl (ends.loosen unmarked) keeps rfl
  | true =>
    obtain ⟨t, ts, rfl, hk⟩ := exists_word_of_kind (by decide) (by decide) seen
    rw [if_pos rfl, answer_take, Tokens.head_cons, Tokens.tail_cons]
    have split : base.tokens ++ t :: ts = (base.tokens ++ [t]) ++ ts := by rw [List.append_assoc]; rfl
    rw [List.nil_append, split]
    refine Verdict.bind (base.tokens ++ [t]) (hu ts stop) (awaits_exponent base ⟨t, hk⟩) ?_
    rintro exponent rest' rfl ends' keeps'
    refine .reads (.raised base ⟨t, hk⟩ exponent) rest' ?_ ?_ ⟨keeps, keeps'⟩ ?_
    · simp only [Derivation.tokens, List.cons_append, List.append_assoc, List.nil_append]
    · have ends' : Stops .power exponent.tokens rest' := ends'.mono (by decide)
      have last := ends'.append (exponent.tokens_ne_nil rfl) [t]
      exact last.append (List.cons_ne_nil _ _) base.tokens
    · have known : t.kind = BinaryOp.pow.kind := hk
      rw [joined_some base.tree exponent.tree known]
      rfl

/-- **A signed operand or a power**, a level deeper than it is reached. -/
theorem decides_signed (level : depth + 1 ≤ maxNesting)
    (he : expression.Decides .expression (·.Within (depth + 1)) (fun d => some d.tree))
    (hu : unary.Decides .unary (·.Within (depth + 1)) (fun d => some d.tree)) :
    (signed expression unary).Decides .unary (·.Within depth) (fun d => some d.tree) := by
  intro words stop
  unfold signed
  rw [answer_sees]
  cases seen : signs.contains (⟨words, stop⟩ : Tokens).head.kind with
  | false =>
    have unmarked : ∀ t ∈ words.head?, ∀ sign : Sign, t.kind ≠ sign.kind := by
      intro t ht sign hk
      have unseen := not_seen seen t ht
      rw [hk] at unseen
      revert unseen
      cases sign <;> decide
    exact Verdict.last [] (decides_power he hu words stop) (awaits_unsigned unmarked)
      fun d _ _ stops keeps => ⟨.unsigned d, rfl, stops, ⟨level, keeps⟩, rfl⟩
  | true =>
    obtain ⟨t, ts, rfl, seen'⟩ := Tokens.exists_word (by decide) (by decide) seen
    obtain ⟨sign, hk⟩ := exists_sign seen'
    have known : Sign.ofKind? t.kind = some sign := by
      rw [hk]
      cases sign <;> rfl
    rw [if_pos rfl, answer_take, Tokens.head_cons, Tokens.tail_cons]
    refine Verdict.bind [t] (hu ts stop) (awaits_signed ⟨t, hk⟩) ?_
    rintro operand rest rfl ends keeps
    have last := ends.append (operand.tokens_ne_nil rfl) [t]
    refine .reads (.signed sign ⟨t, hk⟩ operand) rest rfl last ⟨level, keeps⟩ ?_
    rw [known]
    rfl

/-- **A unary with no room is past the limit.** -/
theorem breaks_tooDeep (none : maxNesting ≤ depth) :
    Breaks .unary (·.Within depth) ⟨.tooDeep, (⟨words, stop⟩ : Tokens).head.offset⟩ [] words stop where
  offset_eq := rfl
  describes := trivial
  moved h := nomatch h
  viable h := nomatch h
  refutes := by
    intro d r goesOn _ _ _
    refine ⟨rfl, ?_⟩
    intro keeps
    cases d with
    | signed | unsigned =>
      have level : depth + 1 ≤ maxNesting := keeps.1
      omega

/-- **A unary with some room decides unaries at the depth that the room leaves.** -/
theorem decides_unary (room : Nat) : ∀ {depth : Nat}, depth + room = maxNesting →
    (Parser.unary room).Decides .unary (·.Within depth) (fun d => some d.tree) := by
  -- on the room: every unary inside is one level deeper, and has one level of room less
  induction room with
  | zero =>
    intro depth full words stop
    exact .fails _ [] words rfl rfl (breaks_tooDeep (Nat.le_of_eq full.symm))
  | succ room ih =>
    intro depth full words stop
    have inner : depth + 1 + room = maxNesting := by omega
    rw [Parser.unary, answer_deeper]
    exact decides_signed (by omega) (decides_addition inner (ih inner)) (ih inner) words stop

/-- **An expression with some room decides expressions at the depth that the room leaves.** -/
theorem decides_expression {room : Nat} (full : depth + room = maxNesting) :
    (Parser.expression room).Decides .expression (·.Within depth) (fun d => some d.tree) :=
  decides_addition full (decides_unary room full)

end Parser

end Formula
