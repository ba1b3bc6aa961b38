import Formula.Proofs.Grammar.Oversized
import Formula.Proofs.Parse.Height
import Formula.Proofs.Parse.Recording

/-!
# Surplus — calls with too many arguments, and nothing else wrong

Of a sentence that keeps the nesting limits a parse notes its oversized calls, each once and in the order in which they
are told, and it notes nothing else (`parseFaults_of_nested`). The arguments past those that a call may have are parsed
like any others, so what stands in them is noted as well. What the parsers make of the tokens plays no part in what they
note, so each of them is only said to pass over a phrase (`Parser.Tells`), and parsers in sequence pass over what theirs
pass over (`Parser.Passes.bind`).

So the error is of that kind alone, its place is the comma of the call whose first argument past the limit has been read
first, and there is one message for each call (`surplus_of_nested`).
-/

namespace Formula

/-- The fault that an oversized call is noted as. -/
def Oversized.fault (o : Oversized) : Fault := ⟨.tooManyArguments, o.comma.offset⟩

namespace Parser

variable {α β : Type} {ts us vs : Tokens} {faults more : List Fault}

/-! ## Passing over tokens -/

/-- **A parser passes over some tokens** and notes some faults on the way, whatever it makes of them. -/
def Passes (p : Parser α) (ts us : Tokens) (faults : List Fault) : Prop :=
  (p.answer ts).rest = us ∧ (p.answer ts).faults = faults

theorem passes_pure (a : α) (ts : Tokens) : (pure a : Parser α).Passes ts ts [] := ⟨rfl, rfl⟩

/-- **Parsers in sequence** pass over what the first one passes over, and then over what the second one does. -/
theorem Passes.bind {p : Parser α} {k : α → Parser β} (h : p.Passes ts us faults)
    (next : ∀ a, (k a).Passes us vs more) : (p >>= k).Passes ts vs (faults ++ more) := by
  obtain ⟨rest, noted⟩ := h
  have rest : (p.run ts).rest = us := rest
  have noted : faultsOf (p.run ts).trace = faults := noted
  obtain ⟨rest', noted'⟩ := next (p.run ts).value
  constructor
  · show ((k (p.run ts).value).run (p.run ts).rest).rest = vs
    rw [rest]
    exact rest'
  · show faultsOf ((p.run ts).trace ++ ((k (p.run ts).value).run (p.run ts).rest).trace) = faults ++ more
    rw [faultsOf_append, noted, rest]
    exact congrArg (faults ++ ·) noted'

/-- Nothing is added by a parser that notes nothing. -/
theorem Passes.silent {p : Parser α} {k : α → Parser β} (h : p.Passes ts us faults)
    (next : ∀ a, (k a).Passes us vs []) : (p >>= k).Passes ts vs faults := by
  have all := h.bind next
  rwa [List.append_nil] at all

/-- What is made of a value afterwards changes nothing. -/
theorem Passes.returns {p : Parser α} (h : p.Passes ts us faults) (f : α → β) :
    (p >>= fun a => pure (f a)).Passes ts us faults :=
  h.silent fun a => passes_pure (f a) us

theorem passes_sees {kinds : TokenSet} {seen : Bool} {k : Bool → Parser β} (h : kinds.contains ts.head.kind = seen)
    (next : (k seen).Passes ts us faults) : (sees kinds >>= k).Passes ts us faults := by
  rw [Passes, answer_sees, h]
  exact next

theorem passes_peek {k : Token → Parser β} (next : (k ts.head).Passes ts us faults) :
    (peek >>= k).Passes ts us faults := by
  rw [Passes, answer_peek]
  exact next

theorem passes_take {k : Token → Parser β} (next : (k ts.head).Passes ts.tail us faults) :
    (take >>= k).Passes ts us faults := by
  rw [Passes, answer_take]
  exact next

theorem passes_wordsLeft {k : Nat → Parser β} (next : (k ts.words.length).Passes ts us faults) :
    (wordsLeft >>= k).Passes ts us faults := by
  rw [Passes, answer_wordsLeft]
  exact next

theorem passes_expect {wanted : TokenSet} {k : Option Token → Parser β} (h : wanted.contains ts.head.kind = true)
    (next : (k (some ts.head)).Passes ts.tail us faults) : (expect wanted >>= k).Passes ts us faults := by
  rw [Passes, answer_expect h]
  exact next

theorem passes_fault {cause : FaultCause} {offset : Nat} {k : Unit → Parser β} (next : (k ()).Passes ts us faults) :
    (fault cause offset >>= k).Passes ts us (⟨cause, offset⟩ :: faults) := by
  rw [Passes, answer_fault]
  exact ⟨next.1, congrArg (_ :: ·) next.2⟩

/-! ## Telling oversized calls -/

variable {n : Nonterminal} {depth room : Nat} {tier : Tier} {words rest : List Token} {stop : Stop}
  {operand expression unary : Parser Part}

/-- **A parser tells the oversized calls of a nonterminal**: it passes over a phrase of it, and notes those inside, as
long as the phrase is not nested too deep. -/
def Tells (p : Parser α) (n : Nonterminal) (depth : Nat) : Prop :=
  ∀ d : Derivation n, d.Nested depth → ∀ (before : Nat) (rest : List Token) (stop : Stop), Stops n d.tokens rest →
    p.Passes ⟨d.tokens ++ rest, stop⟩ ⟨rest, stop⟩ ((d.noted none before).map Oversized.fault)

theorem contains_operator {op : BinaryOp} (level : op.tier? = some tier) : tier.operators.contains op.kind = true := by
  cases op <;> cases level <;> decide

/-- Where a chain stops there is no operator of it. -/
theorem unseen_operator {ps : List Token} (stops : Stops (.links tier) ps words) :
    tier.operators.contains (⟨words, stop⟩ : Tokens).head.kind = false := by
  rw [Bool.eq_false_iff]
  intro seen
  obtain ⟨t, ts, op, rfl, level, hk⟩ := exists_link seen
  exact not_stops_operator level hk stops

theorem unseen_kind {kind : TokenKind} (h : ∀ t ∈ words.head?, t.kind ≠ kind) (ends : kind ≠ .endOfInput)
    (stuck : kind ≠ .invalid) : (FlagSet.ofList [kind]).contains (⟨words, stop⟩ : Tokens).head.kind = false := by
  rw [Bool.eq_false_iff]
  intro seen
  obtain ⟨t, ts, rfl, hk⟩ := exists_word_of_kind ends stuck seen
  exact h t rfl hk

theorem unseen_terminal {kind other : TokenKind} (t : Terminal other) (differs : other ≠ kind)
    (ends : kind ≠ .endOfInput) (stuck : kind ≠ .invalid) :
    (FlagSet.ofList [kind]).contains (⟨t.token :: words, stop⟩ : Tokens).head.kind = false := by
  refine unseen_kind ?_ ends stuck
  rintro _ ⟨⟩
  rwa [t.kind_eq]

theorem unseen_comma {ps : List Token} (stops : Stops .further ps words) :
    separator.contains (⟨words, stop⟩ : Tokens).head.kind = false :=
  unseen_kind (fun _ ht hk => not_stops_comma hk (List.eq_cons_of_mem_head? ht ▸ stops)) (by decide) (by decide)

theorem unseen_caret {ps : List Token} (stops : Stops .power ps words) :
    powerMark.contains (⟨words, stop⟩ : Tokens).head.kind = false :=
  unseen_kind (fun _ ht hk => not_stops_caret hk (List.eq_cons_of_mem_head? ht ▸ stops)) (by decide) (by decide)

/-- **The links of a chain**, with room for them. -/
theorem tells_links (ho : operand.Tells (.operand tier) depth) (room : Nat) :
    ∀ (left : Part) (d : Derivation (.links tier)), d.length ≤ room → d.Nested depth →
      ∀ (before : Nat) (rest : List Token) (stop : Stop), Stops (.links tier) d.tokens rest →
        (chain tier.operators operand room left).Passes ⟨d.tokens ++ rest, stop⟩ ⟨rest, stop⟩
          ((d.noted none before).map Oversized.fault) := by
  induction room with
  | zero =>
    intro left d fits keeps before rest stop stops
    cases d with
    | noLink =>
      unfold chain
      exact passes_sees (unseen_operator stops) (passes_pure left _)
    | link => exact absurd fits (Nat.not_succ_le_zero _)
  | succ room ih =>
    intro left d fits keeps before rest stop stops
    cases d with
    | noLink =>
      unfold chain
      exact passes_sees (unseen_operator stops) (passes_pure left _)
    | link op level operator right more =>
      have seen : tier.operators.contains operator.token.kind = true := by
        rw [operator.kind_eq]
        exact contains_operator level
      have stops' := Stops.of_cons stops
      unfold chain
      rw [Derivation.tokens, Derivation.noted, List.map_append, List.cons_append, List.append_assoc]
      refine passes_sees seen (passes_take ?_)
      exact (ho right keeps.1 _ _ stop (more.stops_links stops')).bind fun r =>
        ih _ more (Nat.le_of_succ_le_succ fits) keeps.2 _ rest stop stops'.of_append

theorem tells_chain (full : depth + room = maxNesting) (ho : operand.Tells (.operand tier) depth) :
    (operand >>= chain tier.operators operand room).Tells (.chain tier) depth := by
  intro d keeps before rest stop stops
  cases d with
  | chain first more =>
    obtain ⟨fits, keepsFirst, keepsMore⟩ := keeps
    rw [Derivation.tokens, Derivation.noted, List.map_append, List.append_assoc]
    refine (ho first keepsFirst _ _ stop (more.stops_links stops.links)).bind fun left => ?_
    exact tells_links ho room left more (by omega) keepsMore _ rest stop stops.links.of_append

theorem tells_multiplication (full : depth + room = maxNesting) (hu : unary.Tells .unary depth) :
    (multiplication room unary).Tells (.chain .multiplication) depth := by
  refine tells_chain full fun d keeps => ?_
  cases d with
  | factor d => exact hu d keeps

/-- **An expression**, over a way to parse its unaries. -/
theorem tells_addition (full : depth + room = maxNesting) (hu : unary.Tells .unary depth) :
    (addition room unary).Tells .expression depth := by
  have product : (multiplication room unary).Tells (.operand .addition) depth := by
    intro d keeps
    cases d with
    | product d => exact tells_multiplication full hu d keeps
  intro d keeps
  cases d with
  | expression d => exact tells_chain full product d keeps

/-! ## Calls -/

/-- **The further arguments of a call**: as many as there are slots are kept, the one past them is told, and those after
that are passed over. -/
theorem tells_further (he : expression.Tells .expression depth) (turns : Nat) :
    ∀ (slots : Nat) (told : Bool), (told = true → slots = 0) → ∀ d : Derivation .further, d.length ≤ turns →
      d.Nested depth → ∀ (before : Nat) (rest : List Token) (stop : Stop), Stops .further d.tokens rest →
        (moreArguments expression turns slots told).Passes ⟨d.tokens ++ rest, stop⟩ ⟨rest, stop⟩
          ((d.noted (if told then none else some slots) before).map Oversized.fault) := by
  induction turns with
  | zero =>
    intro slots told dropped d enough keeps before rest stop stops
    cases d with
    | noArgument =>
      rw [Derivation.noted]
      exact passes_pure [] _
    | argument => exact absurd enough (Nat.not_succ_le_zero _)
  | succ turns ih =>
    intro slots told dropped d enough keeps before rest stop stops
    unfold moreArguments
    cases d with
    | noArgument =>
      rw [Derivation.noted]
      exact passes_sees (unseen_comma stops) (passes_pure [] _)
    | argument comma d more =>
      have seen : separator.contains comma.token.kind = true := by
        rw [comma.kind_eq]
        decide
      have stops' := Stops.of_cons stops
      have enough := Nat.le_of_succ_le_succ enough
      have inside := he d keeps.1 (before + 1) _ stop (more.stops_argument stops')
      have later (slots : Nat) (told : Bool) (dropped : told = true → slots = 0) :=
        ih slots told dropped more enough keeps.2 (before + 1 + d.tokens.length) rest stop stops'.of_append
      rw [Derivation.tokens, List.cons_append, List.append_assoc]
      refine passes_sees seen (passes_take ?_)
      -- nothing is told twice: where an argument has been told, no slots are left
      cases told with
      | true =>
        change Passes _ _ _ (((Derivation.argument comma d more).noted none before).map Oversized.fault)
        rw [dropped rfl, Derivation.noted, List.map_append]
        exact inside.bind fun _ => later 0 true fun _ => rfl
      | false =>
        change Passes _ _ _ (((Derivation.argument comma d more).noted (some slots) before).map Oversized.fault)
        cases slots with
        | zero =>
          -- it is told behind the argument, but at the comma before it
          rw [Derivation.noted, List.map_append, List.map_cons]
          exact inside.bind fun _ => passes_fault (later 0 true fun _ => rfl)
        | succ slots =>
          rw [Derivation.noted, List.map_append]
          exact inside.bind fun argument => (later slots false (absurd · Bool.false_ne_true)).returns (argument :: ·)

theorem contains_kind {kind : TokenKind} (t : Terminal kind) : (FlagSet.ofList [kind]).contains t.token.kind = true :=
  (contains_one kind _).mpr t.kind_eq

/-- **The arguments of a call**, from one parenthesis to the other. -/
theorem tells_arguments (he : expression.Tells .expression depth) (paren : Terminal .openParen)
    (first : Derivation .expression) (more : Derivation .further) (closes : Terminal .closeParen)
    (keeps : first.Nested depth) (keeps' : more.Nested depth) (before : Nat) (rest : List Token) (stop : Stop) :
    (arguments expression).Passes ⟨paren.token :: (first.tokens ++ (more.tokens ++ closes.token :: rest)), stop⟩
      ⟨rest, stop⟩ ((first.noted none before ++
        more.noted (some (maxArguments - 1)) (before + first.tokens.length)).map Oversized.fault) := by
  have enough : more.length ≤ (more.tokens ++ closes.token :: rest).length := by
    rw [List.length_append]
    exact Nat.le_trans more.length_le (Nat.le_add_right _ _)
  unfold arguments
  rw [List.map_append]
  refine passes_take (passes_sees (unseen_kind first.head_ne_closing (by decide) (by decide)) ?_)
  refine (he first keeps before _ stop (more.stops_further closes.kind_eq)).bind fun a => passes_wordsLeft ?_
  have inside := tells_further he _ (maxArguments - 1) false (absurd · Bool.false_ne_true) more enough keeps'
    (before + first.tokens.length) (closes.token :: rest) stop (stops_closing closes.kind_eq)
  exact inside.silent fun as => passes_expect (contains_kind closes) (passes_pure (allOf (a :: as)) _)

theorem tells_call (he : expression.Tells .expression depth) : (call expression).Tells .call depth := by
  intro d keeps before rest stop stops
  unfold call
  cases d with
  | emptyCall callee paren closes =>
    refine passes_sees (contains_kind callee) (passes_take (passes_sees (contains_kind paren) ?_))
    refine Passes.returns ?_ _
    unfold arguments
    exact passes_take (passes_sees (contains_kind closes) (passes_take (passes_pure _ _)))
  | fullCall callee paren first more closes =>
    simp only [Derivation.tokens, List.cons_append, List.append_assoc, List.nil_append]
    refine passes_sees (contains_kind callee) (passes_take (passes_sees (contains_kind paren) ?_))
    exact (tells_arguments he paren first more closes keeps.1 keeps.2 (before + 2) rest stop).returns _
  | plainCall d =>
    cases d with
    | name word =>
      -- a parenthesis behind the name would make a call of it
      have plain : ∀ t ∈ rest.head?, t.kind ≠ .openParen := fun t ht opens =>
        (stops t ht).2 opens word.token rfl word.kind_eq
      refine passes_sees (contains_kind word) (passes_take ?_)
      exact passes_sees (unseen_kind plain (by decide) (by decide)) (passes_pure _ _)
    | number literal =>
      simp only [Derivation.tokens, List.cons_append, List.nil_append]
      refine passes_sees (unseen_terminal literal (by decide) (by decide) (by decide)) ?_
      unfold basic
      refine passes_peek ?_
      rw [Tokens.head_cons, literal.kind_eq]
      exact passes_take (passes_pure _ _)
    | group paren d closes =>
      simp only [Derivation.tokens, List.cons_append, List.append_assoc, List.nil_append]
      refine passes_sees (unseen_terminal paren (by decide) (by decide) (by decide)) ?_
      unfold basic
      refine passes_peek ?_
      rw [Tokens.head_cons, paren.kind_eq]
      refine passes_take ?_
      exact (he d keeps (before + 1) _ stop (stops_closing closes.kind_eq)).silent fun e =>
        passes_expect (contains_kind closes) (passes_pure e _)

/-! ## Powers and signs -/

theorem tells_power (he : expression.Tells .expression depth) (hu : unary.Tells .unary depth) :
    (power expression unary).Tells .power depth := by
  intro d keeps before rest stop stops
  unfold power
  cases d with
  | plainPower d =>
    exact (tells_call he d keeps before rest stop stops.call).silent fun base =>
      passes_sees (unseen_caret stops) (passes_pure base _)
  | raised base caret exponent =>
    rw [Derivation.tokens, Derivation.noted, List.map_append, List.append_assoc, List.cons_append]
    refine (tells_call he base keeps.1 before _ stop (stops_caret caret.kind_eq)).bind fun b => ?_
    refine passes_sees (contains_kind caret) (passes_take ?_)
    exact (hu exponent keeps.2 _ rest stop ((stops.of_append.of_cons).mono (by decide))).returns _

/-- **A signed operand or a power**, a level deeper than it is reached. -/
theorem tells_signed (he : expression.Tells .expression (depth + 1)) (hu : unary.Tells .unary (depth + 1)) :
    (signed expression unary).Tells .unary depth := by
  intro d keeps before rest stop stops
  unfold signed
  cases d with
  | signed sign mark operand =>
    have seen : signs.contains mark.token.kind = true := by
      rw [mark.kind_eq]
      cases sign <;> decide
    exact passes_sees seen (passes_take ((hu operand keeps.2 _ rest stop stops.of_cons).returns _))
  | unsigned d =>
    have unseen : signs.contains (⟨d.tokens ++ rest, stop⟩ : Tokens).head.kind = false := by
      rw [Bool.eq_false_iff]
      intro seen
      obtain ⟨t, ts, split, seen'⟩ := Tokens.exists_word (by decide) (by decide) seen
      obtain ⟨sign, hk⟩ := exists_sign seen'
      exact d.not_signed ⟨t, hk⟩ split
    exact passes_sees unseen (tells_power he hu d keeps.2 before rest stop (stops.mono (by decide)))

/-- **A unary with some room tells the calls of unaries at the depth that the room leaves.** -/
theorem tells_unary (room : Nat) : ∀ {depth : Nat}, depth + room = maxNesting →
    (Parser.unary room).Tells .unary depth := by
  -- on the room: every unary inside is one level deeper, and has one level of room less
  induction room with
  | zero =>
    intro depth full d keeps
    cases d with
    | signed | unsigned =>
      have level : depth + 1 ≤ maxNesting := keeps.1
      omega
  | succ room ih =>
    intro depth full d keeps before rest stop stops
    have inner : depth + 1 + room = maxNesting := by omega
    rw [Parser.unary, Passes, answer_deeper]
    exact tells_signed (tells_addition inner (ih inner)) (ih inner) d keeps before rest stop stops

theorem tells_expression (full : depth + room = maxNesting) : (Parser.expression room).Tells .expression depth :=
  tells_addition full (tells_unary room full)

end Parser

/-! ## A whole source -/

variable {source : String} {d : Derivation .expression}

/-- **Of a sentence nested within the limits** the oversized calls are noted, and nothing else. -/
theorem parseFaults_of_nested (words : (Tokens.ofSource source).words = d.tokens) (keeps : d.Nested 0)
    (ended : (Tokens.ofSource source).stop.token.kind = .endOfInput) :
    parseFaults source = (d.noted none 0).map Oversized.fault := by
  have seen : ending.contains (⟨[], (Tokens.ofSource source).stop⟩ : Tokens).head.kind = true :=
    (FlagSet.contains_single _ _).mpr ended
  have inside := Parser.tells_expression (Nat.zero_add maxNesting) d keeps 0 [] (Tokens.ofSource source).stop stops_nil
  rw [List.append_nil, ← words] at inside
  have whole : Parser.whole.Passes (Tokens.ofSource source) (⟨[], (Tokens.ofSource source).stop⟩ : Tokens).tail
      ((d.noted none 0).map Oversized.fault) := by
    rw [Parser.whole, Parser.Passes, Parser.answer_arrive]
    exact inside.silent fun root => Parser.passes_expect seen (Parser.passes_pure root _)
  exact whole.2

/-- A parse of a source that can be read to its end tells nothing but faults. -/
theorem toldOf_of_ended (ended : (Tokens.ofSource source).stop.token.kind = .endOfInput) :
    toldOf (parseOutcome source).trace = [] := by
  have readable : (Tokens.ofSource source).stop.unread? = none := by
    cases stop : (Tokens.ofSource source).stop with
    | endOfInput => rfl
    | invalid =>
      rw [stop] at ended
      cases ended
  obtain ⟨body, us, last, history, closes, trace, -⟩ := whole_history (Tokens.inOrder_ofSource source).words
  have silent : toldOf last = [] := by
    cases closes <;> rfl
  rw [parseOutcome, trace, toldOf_append, toldOf_append, toldOf_arrival, history.told, readable, silent]
  simp only [Option.toList_none, ite_self, List.append_nil]

/-- **Where nothing is told but faults**, the messages are those of the faults. -/
theorem messagesOf_of_untold {trace : List Event} (untold : toldOf trace = []) :
    messagesOf trace = (faultsOf trace).map fun f => .fault f.cause := by
  induction trace with
  | nil => rfl
  | cons event trace ih =>
    cases event with
    | took | opened | closed => exact ih untold
    | unreadable => cases untold
    | fault f => exact congrArg (Diagnostic.fault f.cause :: ·) (ih untold)

theorem FlagSet.ofList_replicate {α : Type} [Flag α] (a : α) (n : Nat) :
    ofList (List.replicate (n + 1) a) = single a := by
  have again : (single a).insert a = single a := by
    rw [insert, single, Nat.or_self]
  have filled (n : Nat) : (List.replicate n a).foldl insert (single a) = single a := by
    induction n with
    | zero => rfl
    | succ n ih => rw [List.replicate_succ, List.foldl_cons, again, ih]
  have first : (empty : FlagSet α).insert a = single a := by
    rw [insert, empty, Nat.zero_or, single]
  rw [ofList, List.replicate_succ, List.foldl_cons, first, filled]

/-- **A sentence nested within the limits in which calls are oversized** has an error of that kind alone, at the comma
of the call whose first argument past the limit has been read to its end first, and one message for each call. -/
theorem surplus_of_nested (valid : ∀ t ∈ (Tokens.ofSource source).toList, t.kind ≠ .invalid)
    (words : d.tokens = (Tokens.ofSource source).words) (keeps : d.Nested 0) (some : d.oversized 0 ≠ []) :
    ∃ e, (Ast.read source).result = .error e ∧ e.kind = .tooManyArguments ∧ e.kinds = FlagSet.single .tooManyArguments ∧
      (∃ o ∈ d.oversized 0, e.offset = o.comma.offset ∧ ∀ o' ∈ d.oversized 0, o' = o ∨ o.read < o'.read) ∧
      (Ast.read source).messages = List.replicate (d.oversized 0).length (.fault .tooManyArguments) := by
  have ended := stop_kind_of_valid valid
  have faults := parseFaults_of_nested words.symm keeps ended
  have same := d.noted_perm_oversized 0
  have told := (d.told_noted none 0).sorted
  cases calls : d.noted none 0 with
  | nil =>
    rw [calls] at same
    exact (some same.nil_eq.symm).elim
  | cons o os =>
    rw [calls] at faults same told
    have count : (d.oversized 0).length = os.length + 1 := same.length_eq.symm
    have causes : (parseFaults source).map (·.cause) = List.replicate (os.length + 1) .tooManyArguments := by
      rw [faults, List.map_map]
      exact List.map_const' ..
    rcases read_of_faults source with ⟨none, -⟩ | ⟨f, fs, e, all, error, result⟩
    · rw [none] at faults
      cases faults
    · rw [ParseError.ofFaults_cons] at error
      obtain rfl := Option.some.inj error
      have first : f = o.fault := (List.cons.inj (all.symm.trans faults)).1
      have kinds := congrArg (List.map FaultCause.kind) causes
      have messages := congrArg (List.map Diagnostic.fault) causes
      rw [all, List.map_map, List.map_replicate] at kinds
      rw [List.map_map, List.map_replicate] at messages
      refine ⟨_, result, ?_, ?_, ⟨o, same.mem_iff.mp List.mem_cons_self, ?_, ?_⟩, ?_⟩
      · rw [first]
        rfl
      · exact (congrArg FlagSet.ofList kinds).trans (FlagSet.ofList_replicate _ _)
      · rw [first]
        rfl
      · intro o' ho'
        rcases List.mem_cons.mp (same.mem_iff.mpr ho') with here | later
        · exact .inl here
        · exact .inr ((List.pairwise_cons.mp told).1 o' later)
      · rw [count]
        exact (messagesOf_of_untold (toldOf_of_ended ended)).trans messages

/-! ## One long call -/

/-- The variable `x` as an argument. -/
def variableAt (offset : Nat) : Derivation .expression :=
  .expression (.chain (.product (.chain (.factor (letter offset)) .noLink)) .noLink)

/-- The end of a call: the variable some more times, and the parenthesis. -/
def listing : Nat → List Char
  | 0 => [')']
  | count + 1 => ',' :: 'x' :: listing count

/-- The further arguments of a long call. -/
def listed : (offset count : Nat) → Derivation .further
  | _, 0 => .noArgument
  | offset, count + 1 => .argument ⟨⟨.comma, offset, ","⟩, rfl⟩ (variableAt (offset + 1)) (listed (offset + 2) count)

/-- A call with the variable as its first argument, and then some more times. -/
def longCall (count : Nat) : String := String.ofList ('f' :: '(' :: 'x' :: listing count)

def longCallTree (count : Nat) : Derivation .expression :=
  .expression (.chain (.product (.chain (.factor (.unsigned (.plainPower (.fullCall ⟨⟨.identifier, 0, "f"⟩, rfl⟩
    ⟨⟨.openParen, 1, "("⟩, rfl⟩ (variableAt 2) (listed 3 count) ⟨⟨.closeParen, 3 + 2 * count, ")"⟩, rfl⟩)))) .noLink))
    .noLink)

theorem step_listing (offset count : Nat) :
    step offset ('x' :: listing count) = .word ⟨.identifier, offset, "x"⟩ (offset + 1) (listing count) := by
  cases count <;> rfl

theorem scan_listing (offset count : Nat) :
    Tokens.ofChars offset (listing count) =
      ⟨(listed offset count).tokens ++ [⟨.closeParen, offset + 2 * count, ")"⟩],
        .endOfInput (offset + 2 * count + 1)⟩ := by
  induction count generalizing offset with
  | zero =>
    have closing : step offset (listing 0) = .word ⟨.closeParen, offset, ")"⟩ (offset + 1) [] := rfl
    rw [Tokens.ofChars_of_word closing, Tokens.ofChars_of_stop rfl]
    rfl
  | succ count ih =>
    have comma : step offset (listing (count + 1)) = .word ⟨.comma, offset, ","⟩ (offset + 1) ('x' :: listing count) :=
      rfl
    rw [Tokens.ofChars_of_word comma, Tokens.ofChars_of_word (step_listing (offset + 1) count), ih,
      show offset + 1 + 1 + 2 * count = offset + 2 * (count + 1) by omega]
    rfl

theorem scan_longCall (count : Nat) :
    Tokens.ofSource (longCall count) = ⟨(longCallTree count).tokens, .endOfInput (3 + 2 * count + 1)⟩ := by
  have callee : step 0 ('f' :: '(' :: 'x' :: listing count) =
      .word ⟨.identifier, 0, "f"⟩ 1 ('(' :: 'x' :: listing count) := rfl
  have paren : step 1 ('(' :: 'x' :: listing count) = .word ⟨.openParen, 1, "("⟩ 2 ('x' :: listing count) := rfl
  rw [Tokens.ofSource, longCall, String.toList_ofList, Tokens.ofChars_of_word callee, Tokens.ofChars_of_word paren,
    Tokens.ofChars_of_word (step_listing 2 count), scan_listing]
  simp only [longCallTree, Derivation.tokens, List.append_nil]
  rfl

section Limits

variable {depth : Nat}

theorem nested_variableAt (level : depth + 1 ≤ maxNesting) (offset : Nat) : (variableAt offset).Nested depth :=
  have here : depth ≤ maxNesting := Nat.le_of_succ_le level
  ⟨here, ⟨here, ⟨level, trivial⟩, trivial⟩, trivial⟩

theorem nested_listed (level : depth + 1 ≤ maxNesting) (offset count : Nat) : (listed offset count).Nested depth := by
  induction count generalizing offset with
  | zero => trivial
  | succ count ih => exact ⟨nested_variableAt level _, ih (offset + 2)⟩

/-- A long call is nested no deeper than a short one. -/
theorem nested_longCall (count : Nat) : (longCallTree count).Nested 0 :=
  have call : (variableAt 2).Nested 1 ∧ (listed 3 count).Nested 1 :=
    ⟨nested_variableAt (by decide) 2, nested_listed (by decide) 3 count⟩
  ⟨by decide, ⟨by decide, ⟨by decide, call⟩, trivial⟩, trivial⟩

end Limits

theorem oversized_listed (offset count before : Nat) : (listed offset count).oversized before = [] := by
  induction count generalizing offset before with
  | zero => rfl
  | succ count ih => exact ih (offset + 2) _

theorem past_listed {slots count : Nat} (more : slots < count) (offset before : Nat) :
    (listed offset count).past slots before =
      some ⟨⟨.comma, offset + 2 * slots, ","⟩, before + 2 * (slots + 1)⟩ := by
  induction slots generalizing count offset before with
  | zero =>
    obtain ⟨count, rfl⟩ := Nat.exists_eq_succ_of_ne_zero (Nat.ne_of_gt more)
    rfl
  | succ slots ih =>
    obtain ⟨count, rfl⟩ := Nat.exists_eq_succ_of_ne_zero (Nat.ne_of_gt (Nat.zero_lt_of_lt more))
    have later := ih (Nat.lt_of_succ_lt_succ more) (offset + 2) (before + 1 + 1)
    rw [show offset + 2 + 2 * slots = offset + 2 * (slots + 1) by omega,
      show before + 1 + 1 + 2 * (slots + 1) = before + 2 * (slots + 1 + 1) by omega] at later
    exact later

/-- **A long call is oversized** by itself only, with more than 256 arguments. -/
theorem oversized_longCall {count : Nat} (more : maxArguments - 1 < count) :
    (longCallTree count).oversized 0 = [⟨⟨.comma, 513, ","⟩, 515⟩] := by
  have past := past_listed more 3 3
  change ((listed 3 count).past (maxArguments - 1) 3).toList ++ ([] ++ (listed 3 count).oversized 3) ++ [] ++ [] = _
  rw [past, oversized_listed]
  rfl

/-- With 257 arguments a call is oversized at its last comma, and that is all that is wrong. -/
theorem surplus_longCall :
    ∃ e, (Ast.read (longCall 256)).result = .error e ∧ e.kind = .tooManyArguments ∧ e.offset = 513 ∧
      (Ast.read (longCall 256)).messages = [.fault .tooManyArguments] := by
  have scanned := scan_longCall 256
  have ended : (Tokens.ofSource (longCall 256)).stop.token.kind = .endOfInput := by
    rw [scanned]
    rfl
  have calls := oversized_longCall (show maxArguments - 1 < 256 by decide)
  obtain ⟨e, result, kind, -, ⟨o, ho, offset, -⟩, messages⟩ := surplus_of_nested
    (valid_of_stop_kind (Tokens.inOrder_ofSource _).words ended) (congrArg Tokens.words scanned).symm
    (nested_longCall 256) (by rw [calls]; exact List.cons_ne_nil _ _)
  rw [calls] at ho messages
  rw [List.mem_singleton.mp ho] at offset
  exact ⟨e, result, kind, offset, messages⟩

end Formula
