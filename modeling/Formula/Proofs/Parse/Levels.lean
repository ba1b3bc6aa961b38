import Formula.Proofs.Parse.Recording

/-!
# Levels — a parse comes back up from every level, and it ends

How deep a parse is nested at some moment is read off its trace: the levels opened by then, less those closed
(`depthOf`). A trace **keeps within** some room when it ends as deep as it begins, goes no less deep than that on the
way, and no more than the room deeper. Two such traces keep within the room one after the other, and a level around
one needs a room more, so every history keeps within its room (`History.keepsWithin`), and with it every routine of
the grammar, whether it comes to a value or gives up.

What makes a parse end is that its tokens run out. No routine takes a token twice or one that is not there, and the
levels that a parse opens are paid for by the tokens that it takes, all but the first one (`Pays`): between two levels
stands a sign, an operator, a parenthesis or a comma. The turns that the loop over arguments has are never what ends
it: where it ends no comma is in front, and more turns change nothing (`moreArguments_of_enough`).

**What it does not say.** Which tokens are left when a parse ends with a fault.
-/

namespace Formula

/-! ## Depth -/

/-- **How deep a trace ends**, counted from where it begins. -/
def depthOf (trace : List Event) : Int := (trace.count .opened : Int) - trace.count .closed

theorem depthOf_append (trace more : List Event) : depthOf (trace ++ more) = depthOf trace + depthOf more := by
  simp only [depthOf, List.count_append]
  omega

/-- **A trace keeps within some room**: it ends as deep as it begins, and at no moment is it less deep than that, or
deeper than there is room. -/
structure KeepsWithin (room : Nat) (trace : List Event) : Prop where
  returns : depthOf trace = 0
  within : ∀ moment, 0 ≤ depthOf (trace.take moment) ∧ depthOf (trace.take moment) ≤ room

namespace KeepsWithin

variable {room : Nat} {trace more : List Event}

/-- A trace that opens and closes nothing keeps its depth. -/
theorem flat (opens : .opened ∉ trace) (closes : .closed ∉ trace) : KeepsWithin room trace := by
  have level (moment : Nat) : depthOf (trace.take moment) = 0 := by
    rw [depthOf, List.count_eq_zero_of_not_mem fun h => opens (List.mem_of_mem_take h),
      List.count_eq_zero_of_not_mem fun h => closes (List.mem_of_mem_take h)]
    rfl
  refine ⟨?_, fun moment => ?_⟩
  · rw [← List.take_length (l := trace), level]
  · rw [level]
    exact ⟨Int.le_refl _, Int.natCast_nonneg room⟩

/-- **One trace after the other** keeps within the room. -/
theorem append (h : KeepsWithin room trace) (h' : KeepsWithin room more) : KeepsWithin room (trace ++ more) := by
  refine ⟨by rw [depthOf_append, h.returns, h'.returns, Int.add_zero], fun moment => ?_⟩
  rw [List.take_append, depthOf_append]
  rcases Nat.le_total moment trace.length with early | late
  · have unbegun : depthOf (more.take (moment - trace.length)) = 0 := by
      rw [Nat.sub_eq_zero_of_le early, List.take_zero]
      rfl
    rw [unbegun, Int.add_zero]
    exact h.within moment
  · rw [List.take_of_length_le late, h.returns, Int.zero_add]
    exact h'.within _

/-- **A level around a trace** needs a room more. -/
theorem deeper (h : KeepsWithin room trace) : KeepsWithin (room + 1) (.opened :: (trace ++ [.closed])) := by
  have opened (trace : List Event) : depthOf (.opened :: trace) = 1 + depthOf trace := depthOf_append [.opened] trace
  have closed : depthOf [.closed] = -1 := rfl
  refine ⟨by rw [opened, depthOf_append, h.returns, closed]; rfl, fun moment => ?_⟩
  cases moment with
  | zero => exact ⟨Int.le_refl _, Int.natCast_nonneg _⟩
  | succ moment =>
    rw [List.take_succ_cons, opened, List.take_append, depthOf_append]
    rcases Nat.lt_or_ge trace.length moment with late | early
    · -- the level has been closed
      rw [List.take_of_length_le (Nat.le_of_lt late), h.returns,
        List.take_of_length_le (show [Event.closed].length ≤ moment - trace.length from Nat.le_sub_of_add_le' late),
        closed]
      omega
    · have unclosed : depthOf ([Event.closed].take (moment - trace.length)) = 0 := by
        rw [Nat.sub_eq_zero_of_le early, List.take_zero]
        rfl
      have inside := h.within moment
      rw [unclosed]
      omega

end KeepsWithin

theorem unnested_arrival (ts : Tokens) : .opened ∉ Parser.arrival ts ∧ .closed ∉ Parser.arrival ts := by
  unfold Parser.arrival
  split <;> simp

/-- **Taking a token** opens and closes nothing. -/
theorem trace_take (ts : Tokens) : .opened ∉ (Parser.take.run ts).trace ∧ .closed ∉ (Parser.take.run ts).trace ∧
    takenOf (Parser.take.run ts).trace = [ts.head] := by
  obtain ⟨words, stop⟩ := ts
  cases words with
  | nil => simp [Parser.take, takenOf]
  | cons t words =>
    obtain ⟨unopened, unclosed⟩ := unnested_arrival ⟨words, stop⟩
    have distinct : .opened ≠ Event.took t ∧ .closed ≠ Event.took t := by simp
    exact ⟨List.not_mem_cons_of_ne_of_not_mem distinct.1 unopened,
      List.not_mem_cons_of_ne_of_not_mem distinct.2 unclosed, congrArg (t :: ·) (takenOf_arrival ⟨words, stop⟩)⟩

theorem keepsWithin_arrival (room : Nat) (ts : Tokens) : KeepsWithin room (Parser.arrival ts) :=
  .flat (unnested_arrival ts).1 (unnested_arrival ts).2

theorem keepsWithin_take (room : Nat) (ts : Tokens) : KeepsWithin room (Parser.take.run ts).trace :=
  have ⟨unopened, unclosed, _⟩ := trace_take ts
  .flat unopened unclosed

variable {room : Nat} {ts us : Tokens} {trace : List Event}

/-- **Every history keeps within its room.** -/
theorem History.keepsWithin (h : History room ts trace us) : KeepsWithin room trace := by
  induction h with
  | idle | notes | surplus => exact .flat (by simp) (by simp)
  | @takes room t words stop => exact keepsWithin_take room ⟨t :: words, stop⟩
  | deeper _ ih => exact ih.deeper
  | next _ _ ih ih' => exact ih.append ih'

/-! ## Routines -/

namespace Parser

/-- **Whatever is in front of it, a routine keeps within some room.** -/
def Keeps {α : Type} (room : Nat) (p : Parser α) : Prop := ∀ ts, KeepsWithin room (p.run ts).trace

theorem Yields.keeps {p : Parser Part} (h : Yields room p) : Keeps room p := fun ts => (h ts).history.keepsWithin

/-- What is needed is taken, or a fault is noted. -/
theorem keeps_expect (room : Nat) (wanted : TokenSet) : Keeps room (expect wanted) := by
  intro ts
  cases seen : wanted.contains ts.head.kind with
  | true =>
    have trace : ((expect wanted).run ts).trace = (take.run ts).trace := by
      simp only [expect, sees, bind_run, seen, if_true, pure_run, List.nil_append, List.append_nil]
    rw [trace]
    exact keepsWithin_take room ts
  | false =>
    simp only [expect, sees, bind_run, seen]
    exact .flat (by simp [peek, Parser.fault]) (by simp [peek, Parser.fault])

/-- **Every routine of the grammar returns to the depth that it was entered at**, and goes no deeper than there is
room, whatever is in front of it; arguments are parsed where a word stands. -/
structure KeepsLevel (room : Nat) : Prop where
  expression : Keeps room (Parser.expression room)
  additions : ∀ fits left, Keeps room (chain additive (multiplication room (Parser.unary room)) fits left)
  multiplication : Keeps room (Parser.multiplication room (Parser.unary room))
  multiplications : ∀ fits left, Keeps room (chain multiplicative (Parser.unary room) fits left)
  unary : Keeps room (Parser.unary room)
  signed : Keeps room (Parser.signed (Parser.expression room) (Parser.unary room))
  power : Keeps room (Parser.power (Parser.expression room) (Parser.unary room))
  call : Keeps room (Parser.call (Parser.expression room))
  arguments : ∀ t words stop,
    KeepsWithin room ((Parser.arguments (Parser.expression room)).run ⟨t :: words, stop⟩).trace
  moreArguments : ∀ turns slots noted, Keeps room (Parser.moreArguments (Parser.expression room) turns slots noted)
  basic : Keeps room (Parser.basic (Parser.expression room))
  expect : ∀ wanted, Keeps room (Parser.expect wanted)

theorem keepsLevel (room : Nat) : KeepsLevel room where
  expression := (yields_expression room).keeps
  additions fits left ts := (does_chain (fun kind => by cases kind <;> decide)
    (yields_multiplication (yields_unary room)) fits left ts).history.keepsWithin
  multiplication := (yields_multiplication (yields_unary room)).keeps
  multiplications fits left ts :=
    (does_chain (fun kind => by cases kind <;> decide) (yields_unary room) fits left ts).history.keepsWithin
  unary := (yields_unary room).keeps
  signed := (yields_signed (yields_expression room) (yields_unary room)).keeps
  power := (yields_power (yields_expression room) (yields_unary room)).keeps
  call := (yields_call (yields_expression room)).keeps
  arguments _ _ _ := (does_arguments (yields_expression room)).history.keepsWithin
  moreArguments turns slots noted ts :=
    (does_moreArguments (yields_expression room) turns slots noted ts).history.keepsWithin
  basic := (yields_basic (yields_expression room)).keeps
  expect := keeps_expect room

/-! ## What levels cost -/

variable {α β : Type}

/-- **A parser pays for the levels that it opens** with the tokens that it takes, all but as many as it has
credit for. -/
def Pays (credit : Nat) (p : Parser α) (ts : Tokens) : Prop :=
  (p.run ts).trace.count .opened ≤ (takenOf (p.run ts).trace).length + credit

namespace Pays

variable {credit more : Nat} {p : Parser α}

protected theorem pure (a : α) : Pays credit (pure a) ts := Nat.zero_le _

/-- **In sequence**, what both need is needed. -/
theorem append {f : α → Parser β} (h : Pays credit p ts) (h' : Pays more (f (p.run ts).value) (p.run ts).rest) :
    Pays (more + credit) (p >>= f) ts := by
  unfold Pays at h h' ⊢
  rw [bind_run, List.count_append, takenOf_append, List.length_append]
  omega

/-- After a parser that has paid for itself. -/
protected theorem bind {f : α → Parser β} (h : Pays 0 p ts) (h' : Pays more (f (p.run ts).value) (p.run ts).rest) :
    Pays more (p >>= f) ts := h.append h'

/-- After a parser that has one level left to pay for. -/
protected theorem owed {f : α → Parser β} (h : Pays 1 p ts) (h' : Pays more (f (p.run ts).value) (p.run ts).rest) :
    Pays (more + 1) (p >>= f) ts := h.append h'

protected theorem sees {kinds : TokenSet} {f : Bool → Parser α} (h : ∀ seen, Pays credit (f seen) ts) :
    Pays credit (sees kinds >>= f) ts := h _

protected theorem peek {f : Token → Parser α} (h : ∀ t, Pays credit (f t) ts) : Pays credit (peek >>= f) ts := h _

protected theorem wordsLeft {f : Nat → Parser α} (h : ∀ n, Pays credit (f n) ts) :
    Pays credit (wordsLeft >>= f) ts := h _

/-- **A token that is taken** pays for one level after it. -/
protected theorem take {f : Token → Parser α} (h : ∀ t us, Pays (credit + 1) (f t) us) :
    Pays credit (take >>= f) ts := by
  have after := h (take.run ts).value (take.run ts).rest
  obtain ⟨unopened, -, taken⟩ := trace_take ts
  unfold Pays at after ⊢
  rw [bind_run, List.count_append, takenOf_append, List.length_append, List.count_eq_zero_of_not_mem unopened, taken,
    List.length_singleton]
  omega

protected theorem arrive {f : Unit → Parser α} (h : Pays credit (f ()) ts) : Pays credit (arrive >>= f) ts := by
  have unopened : Pays 0 arrive ts := Nat.le_trans
    (Nat.le_of_eq (List.count_eq_zero_of_not_mem (unnested_arrival ts).1)) (Nat.zero_le _)
  exact unopened.bind h

protected theorem fault (cause : FaultCause) (offset : Nat) : Pays credit (fault cause offset) ts := Nat.zero_le _

protected theorem tooDeep : Pays credit (tooDeep : Parser (Option α)) ts := Nat.zero_le _

protected theorem expect (wanted : TokenSet) : Pays credit (expect wanted) ts := by
  refine Pays.sees fun seen => ?_
  cases seen with
  | true => exact Pays.take fun t _ => Pays.pure _
  | false => exact Pays.peek fun found => Nat.zero_le _

/-- **A level** is one more to pay for. -/
protected theorem deeper (h : Pays credit p ts) : Pays (credit + 1) (deeper p) ts := by
  unfold Pays at h ⊢
  have taken : takenOf ((Parser.deeper p).run ts).trace = takenOf (p.run ts).trace :=
    (takenOf_append (p.run ts).trace [.closed]).trans (List.append_nil _)
  have opened : ((Parser.deeper p).run ts).trace.count .opened = (p.run ts).trace.count .opened + 1 := by
    simp [Parser.deeper]
  rw [taken, opened]
  omega

end Pays

section Costs

variable {operand expression unary : Parser Part}

theorem pays_chain (h : ∀ ts, Pays 1 operand ts) (operators : TokenSet) (fits : Nat) :
    ∀ (left : Part) (ts : Tokens), Pays 0 (chain operators operand fits left) ts := by
  induction fits with
  | zero =>
    intro left ts
    refine Pays.sees fun seen => ?_
    cases seen with
    | true => exact .tooDeep
    | false => exact .pure _
  | succ fits ih =>
    intro left ts
    refine Pays.sees fun seen => ?_
    cases seen with
    | true => exact Pays.take fun t us => Pays.owed (h us) (ih _ _)
    | false => exact .pure _

theorem pays_multiplication (h : ∀ ts, Pays 1 unary ts) (room : Nat) (ts : Tokens) :
    Pays 1 (multiplication room unary) ts := Pays.owed (h ts) (pays_chain h _ _ _ _)

theorem pays_addition (h : ∀ ts, Pays 1 unary ts) (room : Nat) (ts : Tokens) : Pays 1 (addition room unary) ts :=
  Pays.owed (pays_multiplication h room ts) (pays_chain (pays_multiplication h room) _ _ _ _)

theorem pays_moreArguments (h : ∀ ts, Pays 1 expression ts) (turns : Nat) :
    ∀ (slots : Nat) (noted : Bool) (ts : Tokens), Pays 0 (moreArguments expression turns slots noted) ts := by
  induction turns with
  | zero => exact fun slots noted ts => .pure _
  | succ turns ih =>
    intro slots noted ts
    refine Pays.sees fun seen => ?_
    cases seen with
    | false => exact .pure _
    | true =>
      refine Pays.take fun comma us => Pays.owed (h us) ?_
      cases slots with
      | succ slots => exact (ih slots noted _).bind (.pure _)
      | zero =>
        cases noted with
        | true => exact ih 0 true _
        | false => exact Pays.bind (.fault _ _) (ih 0 true _)

theorem pays_arguments (h : ∀ ts, Pays 1 expression ts) (ts : Tokens) : Pays 0 (arguments expression) ts := by
  refine Pays.take fun _ us => Pays.sees fun seen => ?_
  cases seen with
  | true => exact Pays.take fun _ _ => .pure _
  | false =>
    refine Pays.owed (h us) ?_
    refine Pays.wordsLeft fun turns => ?_
    refine (pays_moreArguments h turns _ _ _).bind ?_
    refine Pays.bind (.expect _) ?_
    split <;> exact .pure _

theorem pays_basic (h : ∀ ts, Pays 1 expression ts) (ts : Tokens) : Pays 0 (basic expression) ts := by
  refine Pays.peek fun t => ?_
  split
  · refine Pays.take fun _ us => Pays.owed (h us) ?_
    refine Pays.bind (.expect _) ?_
    split <;> exact .pure _
  · exact Pays.take fun _ _ => .pure _
  · exact Pays.take fun _ _ => .pure _
  · exact Pays.bind (.fault _ _) (.pure _)

theorem pays_call (h : ∀ ts, Pays 1 expression ts) (ts : Tokens) : Pays 0 (call expression) ts := by
  refine Pays.sees fun named => ?_
  cases named with
  | false => exact pays_basic h ts
  | true =>
    refine Pays.take fun callee us => Pays.sees fun opens => ?_
    cases opens with
    | false => exact .pure _
    | true => exact (pays_arguments h us).bind (.pure _)

theorem pays_power (he : ∀ ts, Pays 1 expression ts) (hu : ∀ ts, Pays 1 unary ts) (ts : Tokens) :
    Pays 0 (power expression unary) ts := by
  refine (pays_call he ts).bind ?_
  refine Pays.sees fun seen => ?_
  cases seen with
  | false => exact .pure _
  | true => exact Pays.take fun operator us => Pays.owed (hu us) (.pure _)

theorem pays_signed (he : ∀ ts, Pays 1 expression ts) (hu : ∀ ts, Pays 1 unary ts) (ts : Tokens) :
    Pays 0 (signed expression unary) ts := by
  refine Pays.sees fun seen => ?_
  cases seen with
  | false => exact pays_power he hu ts
  | true => exact Pays.take fun t us => Pays.owed (hu us) (.pure _)

end Costs

theorem pays_unary : ∀ (room : Nat) (ts : Tokens), Pays 1 (Parser.unary room) ts
  | 0, _ => .tooDeep
  | room + 1, ts => Pays.deeper (pays_signed (pays_addition (pays_unary room) room) (pays_unary room) ts)

theorem pays_expression (room : Nat) (ts : Tokens) : Pays 1 (Parser.expression room) ts :=
  pays_addition (pays_unary room) room ts

/-- **A whole parse** has one level left to pay for. -/
theorem pays_whole (ts : Tokens) : Pays 1 whole ts :=
  Pays.arrive (Pays.owed (pays_expression maxNesting ts) (Pays.bind (.expect _) (.pure _)))

/-! ## The loop over arguments -/

section Turns

variable {expression : Parser Part}

theorem moreArguments_of_unseen (unseen : separator.contains ts.head.kind = false) (turns slots : Nat) (noted : Bool) :
    (moreArguments expression turns slots noted).run ts = ⟨[], ts, []⟩ := by
  cases turns with
  | zero => rfl
  | succ turns => simp [moreArguments, sees, unseen]

/-- **Where words are left for a turn each, the turns do not matter**, and the loop ends where no comma is in
front. -/
theorem moreArguments_of_enough (h : Yields room expression) {turns : Nat} : ∀ {turns' slots : Nat} {noted : Bool}
    {ts : Tokens}, ts.words.length ≤ turns → ts.words.length ≤ turns' →
      (moreArguments expression turns slots noted).run ts = (moreArguments expression turns' slots noted).run ts ∧
        separator.contains ((moreArguments expression turns slots noted).run ts).rest.head.kind = false := by
  induction turns with
  | zero =>
    intro turns' slots noted ts none _
    obtain ⟨words, stop⟩ := ts
    obtain rfl : words = [] := List.length_eq_zero_iff.mp (Nat.le_zero.mp none)
    have unseen : separator.contains (⟨[], stop⟩ : Tokens).head.kind = false := by
      rw [Tokens.head_nil]
      rcases Tokens.kind_stop stop with kind | kind <;> rw [kind] <;> decide
    rw [moreArguments_of_unseen unseen, moreArguments_of_unseen unseen]
    exact ⟨rfl, unseen⟩
  | succ turns ih =>
    intro turns' slots noted ts enough enough'
    cases seen : separator.contains ts.head.kind with
    | false =>
      rw [moreArguments_of_unseen seen, moreArguments_of_unseen seen]
      exact ⟨rfl, seen⟩
    | true =>
      obtain ⟨words, stop⟩ := ts
      obtain ⟨comma, words, rfl, -⟩ := Tokens.exists_word (by decide) (by decide) seen
      rw [List.length_cons] at enough enough'
      obtain ⟨turns', rfl⟩ : ∃ n, turns' = n + 1 := ⟨turns' - 1, by omega⟩
      -- what is left after the argument is no more than what was left after the comma
      have fewer : (expression.run ⟨words, stop⟩).rest.words.length ≤ words.length := by
        have split := congrArg List.length (h ⟨words, stop⟩).history.split.1
        rw [List.length_append] at split
        exact Nat.le.intro ((Nat.add_comm ..).trans split.symm)
      have after {slots : Nat} {noted : Bool} := @ih turns' slots noted (expression.run ⟨words, stop⟩).rest
        (by omega) (by omega)
      cases slots with
      | succ slots =>
        obtain ⟨same, ends⟩ := @after slots noted
        simp only [moreArguments, bind_run, sees, seen, if_true, take, Tokens.tail_cons, pure_run, ← same, ends,
          and_true]
      | zero =>
        obtain ⟨same, ends⟩ := @after 0 true
        cases noted with
        | true =>
          simp only [moreArguments, bind_run, sees, seen, if_true, take, Tokens.tail_cons, ← same, ends, and_true]
        | false =>
          simp only [moreArguments, bind_run, sees, seen, if_true, take, fault, Bool.false_eq_true, if_false,
            Tokens.tail_cons, ← same, ends, and_true]

end Turns

end Parser

/-! ## Sources -/

/-- What the expression of a source comes to, before its end is looked for. -/
def expressionOutcome (source : String) : Outcome (Option Expr) :=
  (Parser.expression maxNesting).run (Tokens.ofSource source)

/-- What looking for the end of a source comes to. -/
def endOutcome (source : String) : Outcome (Option Token) :=
  (Parser.expect ending).run (expressionOutcome source).rest

theorem trace_parseOutcome (source : String) :
    (parseOutcome source).trace =
      Parser.arrival (Tokens.ofSource source) ++ ((expressionOutcome source).trace ++ (endOutcome source).trace) := by
  simp only [parseOutcome, expressionOutcome, endOutcome, Parser.whole, Parser.bind_run, Parser.arrive, Parser.pure_run,
    List.append_nil]

theorem takenOf_parseOutcome (source : String) :
    takenOf (parseOutcome source).trace =
      takenOf (expressionOutcome source).trace ++ takenOf (endOutcome source).trace := by
  rw [trace_parseOutcome, takenOf_append, takenOf_append, takenOf_arrival, List.nil_append]

theorem history_expressionOutcome (source : String) :
    History maxNesting (Tokens.ofSource source) (expressionOutcome source).trace (expressionOutcome source).rest :=
  (Parser.yields_expression maxNesting _).history

/-- **Looking for the end takes the end**, or nothing. -/
theorem takenOf_endOutcome (source : String) :
    takenOf (endOutcome source).trace = [] ∨
      (expressionOutcome source).rest.words = [] ∧
        takenOf (endOutcome source).trace = [(Tokens.ofSource source).stop.token] ∧
        (Tokens.ofSource source).stop.token.kind = .endOfInput := by
  have history := history_expressionOutcome source
  obtain ⟨closes, -⟩ := closes_expect (history.words (Tokens.inOrder_ofSource source).words).2
  rw [← history.split.2]
  change Closes _ (endOutcome source).trace at closes
  generalize (expressionOutcome source).rest = us, (endOutcome source).trace = last at closes
  cases closes with
  | ended offset => exact .inr ⟨rfl, rfl, rfl⟩
  | trailing => exact .inl rfl

/-- **What a parse takes is what a scan lists**, from the front. -/
theorem takenOf_listed (source : String) :
    takenOf (parseOutcome source).trace <+: (Tokens.ofSource source).toList := by
  obtain ⟨words, -⟩ := (history_expressionOutcome source).split
  rw [takenOf_parseOutcome, Tokens.toList]
  rcases takenOf_endOutcome source with none | ⟨all, last, -⟩
  · rw [none, List.append_nil, words, List.append_assoc]
    exact List.prefix_append ..
  · rw [all, List.append_nil] at words
    exact ⟨[], by rw [List.append_nil, last, words]⟩

/-- **A parse of a source ends, and comes back up from every level.** -/
structure ParseEnds (source : String) : Prop where
  /-- A listing of the source hands out its tokens, each once. -/
  lists : ∀ n, ((Cursor.start source).run (List.replicate n .item)).1.filterMap id =
    (Tokens.ofSource source).toList.take n
  /-- The parse takes these tokens from the front, so no more than there are, -/
  takes : takenOf (parseOutcome source).trace <+: (Tokens.ofSource source).toList
  length_le : (takenOf (parseOutcome source).trace).length ≤ (Tokens.ofSource source).toList.length
  /-- and never that of a place where no token begins. -/
  readable : ∀ t ∈ takenOf (parseOutcome source).trace, t.kind ≠ .invalid
  /-- It parses an expression, and then looks for the end: -/
  parts : (parseOutcome source).trace =
    Parser.arrival (Tokens.ofSource source) ++ ((expressionOutcome source).trace ++ (endOutcome source).trace)
  /-- in the first part it does not take the end, -/
  unended : ∀ t ∈ takenOf (expressionOutcome source).trace, t.kind ≠ .endOfInput
  /-- and in the second one it takes it once, or nothing. -/
  ended : takenOf (endOutcome source).trace = [] ∨
    ∃ t, takenOf (endOutcome source).trace = [t] ∧ t.kind = .endOfInput
  /-- It is at no moment deeper than an expression may be nested. -/
  keepsWithin : KeepsWithin maxNesting (parseOutcome source).trace
  /-- Every routine, with any room left, returns to the depth that it was entered at. -/
  returns : ∀ room, Parser.KeepsLevel room
  /-- No turn is missing from the loop over the arguments of a call: with as many turns as there are words left, or
  more, it ends in the same way, with no comma in front. -/
  turns : ∀ room turns slots noted ts, ts.words.length ≤ turns →
    (Parser.moreArguments (Parser.expression room) turns slots noted).run ts =
        (Parser.moreArguments (Parser.expression room) ts.words.length slots noted).run ts ∧
      separator.contains
        ((Parser.moreArguments (Parser.expression room) turns slots noted).run ts).rest.head.kind = false
  /-- A level is opened for the first token, and for each that is taken one more at most. -/
  levels : (parseOutcome source).trace.count .opened ≤ (takenOf (parseOutcome source).trace).length + 1

/-- **Every parse ends, and comes back up from every level.** -/
theorem parseEnds (source : String) : ParseEnds source := by
  obtain ⟨words, -⟩ := (history_expressionOutcome source).words (Tokens.inOrder_ofSource source).words
  have ended : takenOf (endOutcome source).trace = [] ∨
      ∃ t, takenOf (endOutcome source).trace = [t] ∧ t.kind = .endOfInput :=
    (takenOf_endOutcome source).imp_right fun ⟨_, last, kind⟩ => ⟨_, last, kind⟩
  exact {
    lists := fun n => Cursor.run_items (Cursor.sound_start source) n
    takes := takenOf_listed source
    length_le := (takenOf_listed source).length_le
    readable := by
      intro t ht invalid
      rw [takenOf_parseOutcome] at ht
      rcases List.mem_append.mp ht with inside | last
      · have word := words t inside
        rw [invalid] at word
        cases word
      · rcases ended with none | ⟨t', last', kind⟩
        · rw [none] at last
          cases last
        · rw [last', List.mem_singleton] at last
          rw [last, kind] at invalid
          cases invalid
    parts := trace_parseOutcome source
    unended := by
      intro t ht kind
      have word := words t ht
      rw [kind] at word
      cases word
    ended
    keepsWithin := by
      rw [trace_parseOutcome]
      exact (keepsWithin_arrival _ _).append
        ((history_expressionOutcome source).keepsWithin.append (Parser.keeps_expect _ _ _))
    returns := Parser.keepsLevel
    turns := fun room _ _ _ _ enough =>
      Parser.moreArguments_of_enough (Parser.yields_expression room) enough (Nat.le_refl _)
    levels := Parser.pays_whole (Tokens.ofSource source) }

end Formula
