import Formula.Proofs.Compile.Run
import Formula.Proofs.Parse.History
import Formula.Proofs.Token.Listing

/-!
# Recordings — the error of a parse and the messages on the way

A parse notes its faults in its trace. The error that it returns is made from them: kind and place are those of
the first fault, the set of kinds is that of all (`ParseError.ofFaults_cons`). The messages are read off the same
trace: one for each fault, and one for the place where nothing can be read, if the parse gets there. So a source
compiles exactly when there is no message at all (`reports_compileSource`).

What holds along every history is proved by induction on its steps: the words taken are those at the front
(`History.split`), the faults noted at the front stand in order (`History.places`), and the unreadable rest is told
when it comes to the front (`History.told`). A whole parse is a history between the arrival of the first token and
the end (`whole_history`).

What a parse asks of a scanner is one token to begin with and one more for each that it takes. A cursor that is
asked for as many hands out what the parse has taken and what stands at the front when it ends
(`run_parseRequests`), so the parse has met the unreadable place when the cursor has.
-/

namespace Formula

variable {room : Nat} {ts us : Tokens} {trace : List Event}

/-! ## Reading traces -/

theorem takenOf_append (trace more : List Event) : takenOf (trace ++ more) = takenOf trace ++ takenOf more :=
  List.filterMap_append

theorem takenOf_arrival (ts : Tokens) : takenOf (Parser.arrival ts) = [] := by
  unfold Parser.arrival
  split <;> rfl

/-- What a trace tells of the place where nothing can be read. -/
def toldOf (trace : List Event) : List String :=
  trace.filterMap fun
    | .unreadable unread => some unread
    | _ => none

theorem toldOf_append (trace more : List Event) : toldOf (trace ++ more) = toldOf trace ++ toldOf more :=
  List.filterMap_append

theorem toldOf_arrival (ts : Tokens) :
    toldOf (Parser.arrival ts) = if ts.words = [] then ts.stop.unread?.toList else [] := by
  obtain ⟨words, stop⟩ := ts
  cases words <;> cases stop <;> rfl

/-- **There is a message for each fault, and one for what cannot be read.** -/
theorem length_messagesOf (trace : List Event) :
    (messagesOf trace).length = (faultsOf trace).length + (toldOf trace).length := by
  induction trace with
  | nil => rfl
  | cons event trace ih =>
    cases event with
    | took | opened | closed => exact ih
    | unreadable | fault =>
      simp only [messagesOf, faultsOf, toldOf, List.filterMap_cons, Event.diagnostic?, List.length_cons] at ih ⊢
      omega

/-- The places of the faults that are noted at the token at the front. -/
def placesOf (faults : List Fault) : List Nat := (faults.filter (·.cause ≠ .tooManyArguments)).map (·.offset)

theorem placesOf_append (faults more : List Fault) : placesOf (faults ++ more) = placesOf faults ++ placesOf more := by
  simp only [placesOf, List.filter_append, List.map_append]

/-! ## Along a history -/

/-- **What is taken is the words at the front**, in order. -/
theorem History.split (h : History room ts trace us) : ts.words = takenOf trace ++ us.words ∧ us.stop = ts.stop := by
  induction h with
  | idle | notes | surplus => exact ⟨rfl, rfl⟩
  | @takes _ t words stop =>
    refine ⟨?_, rfl⟩
    show t :: words = t :: takenOf (Parser.arrival ⟨words, stop⟩) ++ words
    rw [takenOf_arrival]
    rfl
  | @deeper _ _ _ trace _ ih =>
    have same : takenOf (.opened :: (trace ++ [.closed])) = takenOf trace :=
      (takenOf_append trace [.closed]).trans (List.append_nil _)
    rwa [same]
  | next _ _ ih ih' => exact ⟨by rw [ih.1, ih'.1, takenOf_append, List.append_assoc], ih'.2.trans ih.2⟩

/-- Where all tokens before the stop are words, so are those that are taken, and those that are left. -/
theorem History.words (h : History room ts trace us) (words : ∀ t ∈ ts.words, t.kind.isWord = true) :
    (∀ t ∈ takenOf trace, t.kind.isWord = true) ∧ ∀ t ∈ us.words, t.kind.isWord = true := by
  rw [h.split.1] at words
  exact List.forall_mem_append.mp words

/-- **Tokens one after the other.** -/
def Tokens.Sorted (ts : Tokens) : Prop := ts.toList.Pairwise (·.offset < ·.offset)

theorem Tokens.Sorted.tail {t : Token} {words : List Token} {stop : Stop}
    (h : Tokens.Sorted ⟨t :: words, stop⟩) :
    Tokens.Sorted ⟨words, stop⟩ ∧ t.offset ≤ (⟨words, stop⟩ : Tokens).head.offset := by
  obtain ⟨first, rest⟩ := List.pairwise_cons.mp h
  obtain ⟨more, hmore⟩ := Tokens.toList_eq_head_cons ⟨words, stop⟩
  have next : (⟨words, stop⟩ : Tokens).head ∈ (⟨words, stop⟩ : Tokens).toList := by
    rw [hmore]
    exact List.mem_cons_self
  exact ⟨rest, Nat.le_of_lt (first _ next)⟩

/-- Numbers in order up to one, and from it on. -/
theorem pairwise_join {a b c : Nat} {xs ys : List Nat} (h : (a :: (xs ++ [b])).Pairwise (· ≤ ·))
    (h' : (b :: (ys ++ [c])).Pairwise (· ≤ ·)) : (a :: (xs ++ ys ++ [c])).Pairwise (· ≤ ·) := by
  simp only [List.pairwise_cons, List.pairwise_append, List.mem_append, List.mem_singleton] at h h' ⊢
  grind

/-- **Faults noted at the front stand in order**, between where a history begins and where it ends. -/
theorem History.places (h : History room ts trace us) (sorted : ts.Sorted) :
    us.Sorted ∧ (ts.head.offset :: (placesOf (faultsOf trace) ++ [us.head.offset])).Pairwise (· ≤ ·) := by
  induction h with
  | idle => exact ⟨sorted, by simp [faultsOf, placesOf]⟩
  | @takes _ t words stop =>
    obtain ⟨rest, before⟩ := sorted.tail
    have none : faultsOf (.took t :: Parser.arrival ⟨words, stop⟩) = [] := faultsOf_arrival _
    refine ⟨rest, ?_⟩
    rw [none]
    exact List.pairwise_pair.mpr before
  | notes cause =>
    refine ⟨sorted, ?_⟩
    by_cases many : cause = .tooManyArguments <;> simp [faultsOf, placesOf, many]
  | surplus offset => exact ⟨sorted, by simp [faultsOf, placesOf]⟩
  | @deeper _ _ _ trace _ ih =>
    have same : faultsOf (.opened :: (trace ++ [.closed])) = faultsOf trace :=
      (faultsOf_append trace [.closed]).trans (List.append_nil _)
    rw [same]
    exact ih sorted
  | next _ _ ih ih' =>
    obtain ⟨sorted', before⟩ := ih sorted
    obtain ⟨last, after⟩ := ih' sorted'
    rw [faultsOf_append, placesOf_append]
    exact ⟨last, pairwise_join before after⟩

/-- **What cannot be read is told when it comes to the front.** -/
theorem History.told (h : History room ts trace us) :
    toldOf trace = if ts.words ≠ [] ∧ us.words = [] then ts.stop.unread?.toList else [] := by
  induction h with
  | idle | notes | surplus => exact (if_neg fun h => h.1 h.2).symm
  | @takes _ t words stop =>
    have front : toldOf (.took t :: Parser.arrival ⟨words, stop⟩) = toldOf (Parser.arrival ⟨words, stop⟩) := rfl
    simp only [front, toldOf_arrival, ne_eq, reduceCtorEq, not_false_eq_true, true_and]
  | @deeper _ _ _ trace _ ih =>
    have same : toldOf (.opened :: (trace ++ [.closed])) = toldOf trace :=
      (toldOf_append trace [.closed]).trans (List.append_nil _)
    rw [same, ih]
  | @next _ ts us vs _ _ h h' ih ih' =>
    obtain ⟨taken, stop⟩ := h.split
    rw [toldOf_append, ih, ih', stop]
    by_cases middle : us.words = []
    · -- it is told by the first part, if at all, and stays at the front
      have last : vs.words = [] := (List.append_eq_nil_iff.mp (h'.split.1.symm.trans middle)).2
      simp [middle, last]
    · have begun : ts.words ≠ [] := fun none => middle (List.append_eq_nil_iff.mp (taken.symm.trans none)).2
      simp [middle, begun]

/-! ## A whole parse -/

/-- **How a parse ends**: with the end, which it takes, or with what should have been the end. -/
inductive Closes : Tokens → (trace : List Event) → Prop
  | ended (offset : Nat) : Closes ⟨[], .endOfInput offset⟩ [.took (Stop.endOfInput offset).token]
  | trailing (us : Tokens) : Closes us [.fault ⟨.expected ending us.head.kind, us.head.offset⟩]

theorem closes_expect (words : ∀ t ∈ us.words, t.kind.isWord = true) :
    Closes us ((Parser.expect ending).run us).trace ∧ ((Parser.expect ending).run us).rest = us := by
  obtain ⟨left, stop⟩ := us
  cases left with
  | cons t left =>
    have word := words t List.mem_cons_self
    have unended : ending.contains t.kind = false := by
      revert word
      cases t.kind <;> decide
    simp only [Parser.expect, Parser.sees, Parser.bind_run, Tokens.head_cons, unended]
    exact ⟨.trailing _, rfl⟩
  | nil =>
    cases stop with
    | endOfInput offset =>
      have ended : ending.contains .endOfInput = true := by decide
      simp only [Parser.expect, Parser.sees, Parser.bind_run, Tokens.head_nil, Stop.token, ended]
      exact ⟨.ended offset, rfl⟩
    | invalid offset unread =>
      have stuck : ending.contains .invalid = false := by decide
      simp only [Parser.expect, Parser.sees, Parser.bind_run, Tokens.head_nil, Stop.token, stuck]
      exact ⟨.trailing _, rfl⟩

/-- **A whole parse is a history between the arrival of the first token and the end.** -/
theorem whole_history (words : ∀ t ∈ ts.words, t.kind.isWord = true) :
    ∃ body us last, History maxNesting ts body us ∧ Closes us last ∧
      (Parser.whole.run ts).trace = Parser.arrival ts ++ (body ++ last) ∧ (Parser.whole.run ts).rest = us := by
  have history := (Parser.yields_expression maxNesting ts).history
  obtain ⟨closes, rest⟩ := closes_expect (history.words words).2
  refine ⟨_, _, _, history, closes, ?_, rest⟩
  simp only [Parser.whole, Parser.bind_run, Parser.arrive, Parser.pure_run, List.append_nil]

/-- A whole parse notes what is missing. -/
theorem whole_notes (ts : Tokens) : Parser.whole.Notes ts := by
  intro missing silent
  have noted := (Parser.yields_expression maxNesting ts).notes missing
  simp only [Parser.whole, Parser.bind_run, Parser.arrive, faultsOf_append, List.append_eq_nil_iff] at silent
  exact noted silent.2.1

/-! ## The scanner that a parse asks -/

/-- The faults of a source, as they are noted. -/
def parseFaults (source : String) : List Fault := faultsOf (parseOutcome source).trace

/-- **What a parse asks of the scanner**: the first token, and one more for each that it takes. -/
def parseRequests (source : String) : List Cursor.Request :=
  List.replicate ((takenOf (parseOutcome source).trace).length + 1) .token

/-- Whether the scanner hands out the token of a place where nothing can be read, as far as a parse asks. -/
def scansUnreadable (source : String) : Bool :=
  ((Cursor.start source).run (parseRequests source)).1.any fun t => t.any (·.kind == .invalid)

/-- **What a parse takes and what stands at the front in the end** are words, and then the stop's token as often
as it comes up. -/
theorem Closes.handed {last : List Event} (h : History room ts trace us) (closes : Closes us last) :
    takenOf (trace ++ last) ++ [us.head] <+:
      ts.words ++ List.replicate ((takenOf (trace ++ last)).length + 1) ts.stop.token := by
  obtain ⟨words, stop⟩ := h.split
  rw [takenOf_append, words, ← stop, List.append_assoc, List.append_assoc]
  refine (List.prefix_append_right_inj _).mpr ?_
  cases closes with
  | ended offset =>
    have last : takenOf [.took (Stop.endOfInput offset).token] = [(Stop.endOfInput offset).token] := rfl
    rw [last, List.length_append, List.length_singleton, List.replicate_succ, List.replicate_succ]
    exact List.cons_prefix_cons.mpr ⟨rfl, List.cons_prefix_cons.mpr ⟨rfl, List.nil_prefix⟩⟩
  | trailing us =>
    obtain ⟨left, stop⟩ := us
    cases left <;> exact List.cons_prefix_cons.mpr ⟨rfl, List.nil_prefix⟩

/-- **A cursor that is asked what a parse asks hands out what the parse takes**, and what stands at the front in
the end. -/
theorem run_parseRequests (source : String) :
    ((Cursor.start source).run (parseRequests source)).1 =
      (takenOf (parseOutcome source).trace ++ [(parseOutcome source).rest.head]).map some := by
  obtain ⟨body, us, last, history, closes, trace, rest⟩ := whole_history (Tokens.inOrder_ofSource source).words
  have taken : takenOf (parseOutcome source).trace = takenOf (body ++ last) := by
    rw [parseOutcome, trace, takenOf_append, takenOf_arrival, List.nil_append]
  have handed := List.prefix_iff_eq_take.mp (closes.handed history)
  rw [List.length_append, List.length_singleton] at handed
  rw [parseRequests, taken, Cursor.run_tokens (Cursor.sound_start source) (Nat.le_refl _), parseOutcome, rest, handed]
  rfl

/-- Nothing but the token in front at the end is one that cannot be read. -/
theorem Closes.any_invalid {last : List Event} (h : History room ts trace us) (closes : Closes us last)
    (words : ∀ t ∈ ts.words, t.kind.isWord = true) :
    (takenOf (trace ++ last) ++ [us.head]).any (·.kind == .invalid) = (us.head.kind == .invalid) := by
  have taken : (takenOf trace).any (·.kind == .invalid) = false := by
    rw [List.any_eq_false]
    intro t ht invalid
    have word := (h.words words).1 t ht
    rw [beq_iff_eq.mp invalid] at word
    cases word
  have ending : (takenOf last).any (·.kind == .invalid) = false := by
    cases closes <;> rfl
  rw [takenOf_append, List.any_append, List.any_append, taken, ending, List.any_cons, List.any_nil]
  simp only [Bool.or_false, Bool.false_or]

/-- **A parse tells what cannot be read when the scanner gets there.** -/
theorem length_toldOf (source : String) :
    (toldOf (parseOutcome source).trace).length = if scansUnreadable source then 1 else 0 := by
  have kinds := (Tokens.inOrder_ofSource source).words
  rw [scansUnreadable, run_parseRequests, List.any_map, parseOutcome]
  obtain ⟨body, us, last, history, closes, trace, rest⟩ := whole_history kinds
  obtain ⟨words, stop⟩ := history.split
  have silent : toldOf last = [] := by
    cases closes <;> rfl
  have told : toldOf (Parser.whole.run (Tokens.ofSource source)).trace =
      if us.words = [] then us.stop.unread?.toList else [] := by
    rw [trace, toldOf_append, toldOf_append, silent, List.append_nil, toldOf_arrival, history.told, stop]
    by_cases none : (Tokens.ofSource source).words = []
    · have left : us.words = [] := (List.append_eq_nil_iff.mp (words.symm.trans none)).2
      simp [none, left]
    · simp [none]
  have met : (takenOf (Parser.whole.run (Tokens.ofSource source)).trace ++
      [(Parser.whole.run (Tokens.ofSource source)).rest.head]).any ((fun t => t.any (·.kind == .invalid)) ∘ some) =
        (us.head.kind == .invalid) := by
    rw [trace, takenOf_append, takenOf_arrival, List.nil_append, rest]
    exact closes.any_invalid history kinds
  rw [told, met]
  obtain ⟨left, stop'⟩ := us
  cases left with
  | nil => cases stop' <;> rfl
  | cons t left =>
    have word := (history.words kinds).2 t List.mem_cons_self
    have readable : (t.kind == .invalid) = false := by
      revert word
      cases t.kind <;> decide
    rw [if_neg (List.cons_ne_nil _ _), Tokens.head_cons, readable]
    rfl

/-! ## Faults and messages -/

/-- **Faults that a parse notes at the token at the front stand in order.** -/
theorem places_parseFaults (source : String) : (placesOf (parseFaults source)).Pairwise (· ≤ ·) := by
  have tokens := Tokens.inOrder_ofSource source
  obtain ⟨body, us, last, history, closes, trace, -⟩ := whole_history tokens.words
  obtain ⟨-, order⟩ := history.places tokens.sorted
  have order := (List.pairwise_cons.mp order).2
  rw [parseFaults, parseOutcome, trace, faultsOf_append, faultsOf_arrival, List.nil_append, faultsOf_append,
    placesOf_append]
  cases closes with
  | ended offset =>
    have none : placesOf (faultsOf [.took (Stop.endOfInput offset).token]) = [] := rfl
    rw [none, List.append_nil]
    exact (List.pairwise_append.mp order).1
  | trailing => exact order

/-- **A parse that notes no fault meets the end**, so it tells nothing. -/
theorem toldOf_of_silent {source : String} (silent : parseFaults source = []) :
    toldOf (parseOutcome source).trace = [] := by
  obtain ⟨body, us, last, history, closes, trace, -⟩ := whole_history (Tokens.inOrder_ofSource source).words
  rw [parseFaults, parseOutcome, trace, faultsOf_append, faultsOf_append, List.append_eq_nil_iff,
    List.append_eq_nil_iff] at silent
  cases closes with
  | trailing => cases silent.2.2
  | ended offset =>
    have stop := history.split.2
    have none : (Tokens.ofSource source).stop.unread? = none := by rw [← stop]; rfl
    have closed : toldOf [.took (Stop.endOfInput offset).token] = [] := rfl
    rw [parseOutcome, trace, toldOf_append, toldOf_append, toldOf_arrival, history.told, none, closed]
    simp only [Option.toList_none, ite_self, List.append_nil]

/-- **A message for each fault**, and one for the place where nothing can be read, if the scanner gets there. -/
theorem length_messages_read (source : String) :
    (Ast.read source).messages.length = (parseFaults source).length + if scansUnreadable source then 1 else 0 := by
  rw [← length_toldOf]
  exact length_messagesOf _

/-- **Reading sends no message exactly when it notes no fault.** -/
theorem messages_read_eq_nil_iff (source : String) : (Ast.read source).messages = [] ↔ parseFaults source = [] := by
  have count : (Ast.read source).messages.length =
      (parseFaults source).length + (toldOf (parseOutcome source).trace).length := length_messagesOf _
  constructor
  · intro none
    rw [none, List.length_nil] at count
    exact List.length_eq_zero_iff.mp (Nat.eq_zero_of_add_eq_zero_right count.symm)
  · intro silent
    rw [silent, toldOf_of_silent silent] at count
    exact List.length_eq_zero_iff.mp count

/-- **Reading comes to a tree when no fault is noted**, and to the error of the faults when there are some. -/
theorem read_of_faults (source : String) :
    (parseFaults source = [] ∧ ∃ a, (Ast.read source).result = .ok a) ∨
      ∃ f fs e, parseFaults source = f :: fs ∧ ParseError.ofFaults (f :: fs) = some e ∧
        (Ast.read source).result = .error e := by
  have result : (Ast.read source).result = parseResult source (parseOutcome source).value (parseFaults source) := rfl
  rw [result]
  cases faults : parseFaults source with
  | nil =>
    cases value : (parseOutcome source).value with
    | none => exact (whole_notes _ value faults).elim
    | some root => exact .inl ⟨rfl, _, rfl⟩
  | cons f fs =>
    have error := ParseError.ofFaults_cons f fs
    refine .inr ⟨f, fs, _, rfl, error, ?_⟩
    simp only [parseResult, error]

/-- **What a parse error and the messages beside it say of the faults** that the parse has noted. -/
structure Recorded (source : String) (e : ParseError) (messages : List Diagnostic) : Prop where
  /-- Kind and place are those of the first fault. -/
  first : ∃ f, (parseFaults source).head? = some f ∧ e.kind = f.cause.kind ∧ e.offset = f.offset
  kinds_eq : e.kinds = FlagSet.ofList ((parseFaults source).map (·.cause.kind))
  contains_kinds_iff : ∀ kind, e.kinds.contains kind = true ↔ ∃ f ∈ parseFaults source, f.cause.kind = kind
  contains_kind : e.kinds.contains e.kind = true
  /-- Faults stand in order, those of arguments too many aside. -/
  places : (placesOf (parseFaults source)).Pairwise (· ≤ ·)
  length_messages : messages.length = (parseFaults source).length + if scansUnreadable source then 1 else 0

theorem recorded_of_read_error {source : String} {e : ParseError} (h : (Ast.read source).result = .error e) :
    Recorded source e (Ast.read source).messages := by
  rcases read_of_faults source with ⟨-, a, ok⟩ | ⟨f, fs, e', faults, error, result⟩
  · rw [h] at ok
    cases ok
  · obtain rfl := Except.error.inj (h.symm.trans result)
    obtain rfl := Option.some.inj ((ParseError.ofFaults_cons f fs).symm.trans error)
    have contains (kind : ParseErrorKind) :
        (FlagSet.ofList ((f :: fs).map (·.cause.kind))).contains kind = true ↔
          ∃ g ∈ f :: fs, g.cause.kind = kind := by
      rw [FlagSet.contains_ofList, List.mem_map]
    exact {
      first := ⟨f, by rw [faults, List.head?_cons], rfl, rfl⟩
      kinds_eq := by rw [faults]
      contains_kinds_iff := by rw [faults]; exact contains
      contains_kind := (contains _).mpr ⟨f, List.mem_cons_self, rfl⟩
      places := places_parseFaults source
      length_messages := length_messages_read source }

/-- **Every parse notes a fault or comes to a tree.** -/
theorem settled_parseOutcome (source : String) :
    ¬ (ParseError.ofFaults (parseFaults source) = none ∧ (parseOutcome source).value = none) := by
  rintro ⟨none, missing⟩
  cases faults : parseFaults source with
  | nil => exact whole_notes _ missing faults
  | cons f fs =>
    rw [faults, ParseError.ofFaults_cons] at none
    cases none

/-! ## Compiling -/

section Compiling

variable {source : String} {t : SymbolTable}

/-- A source fails with a parse error when it cannot be read, and its messages are those of reading it. -/
theorem read_error_of_compileSource {e : ParseError} (h : (compileSource source t).result = .error (.parse e)) :
    (Ast.read source).result = .error e ∧ (compileSource source t).messages = (Ast.read source).messages := by
  rcases compileSource_cases source t with ⟨e', read, report⟩ | ⟨a, e', -, -, report⟩ | ⟨a, n, -, -, report⟩
  · rw [report] at h ⊢
    obtain rfl := Failure.parse.inj (Except.error.inj h)
    exact ⟨read, rfl⟩
  · rw [report] at h
    cases h
  · rw [report] at h
    cases h

/-- Where a tree is read no message is sent. -/
theorem messages_of_read_ok {a : Ast} (h : (Ast.read source).result = .ok a) : (Ast.read source).messages = [] := by
  rcases read_of_faults source with ⟨silent, -⟩ | ⟨f, fs, e, -, -, result⟩
  · exact (messages_read_eq_nil_iff source).mpr silent
  · rw [result] at h
    cases h

/-- Where none is read there are messages. -/
theorem messages_of_read_error {e : ParseError} (h : (Ast.read source).result = .error e) :
    (Ast.read source).messages ≠ [] := by
  rcases read_of_faults source with ⟨-, a, ok⟩ | ⟨f, fs, e', faults, -, -⟩
  · rw [h] at ok
    cases ok
  · rw [ne_eq, messages_read_eq_nil_iff, faults]
    exact List.cons_ne_nil f fs

/-- **A source compiles exactly when no message is sent.** -/
theorem exists_ok_iff_messages (source : String) (t : SymbolTable) :
    (∃ n, (compileSource source t).result = .ok n) ↔ (compileSource source t).messages = [] := by
  rcases compileSource_cases source t with ⟨e, read, report⟩ | ⟨a, e, -, -, report⟩ | ⟨a, n, read, -, report⟩
  · rw [report]
    exact iff_of_false (fun ⟨_, h⟩ => nomatch h) (messages_of_read_error read)
  · rw [report]
    exact iff_of_false (fun ⟨_, h⟩ => nomatch h) (List.append_ne_nil_of_right_ne_nil _ (List.cons_ne_nil _ _))
  · rw [report]
    exact iff_of_true ⟨n, rfl⟩ (messages_of_read_ok read)

/-- **A compile error is the only message.** -/
theorem messages_of_compile_error {e : CompileError} (h : (compileSource source t).result = .error (.compile e)) :
    (compileSource source t).messages = [.unresolved e] := by
  rcases compileSource_cases source t with ⟨e', -, report⟩ | ⟨a, e', read, -, report⟩ | ⟨a, n, -, -, report⟩
  · rw [report] at h
    cases h
  · rw [report] at h ⊢
    obtain rfl := Failure.compile.inj (Except.error.inj h)
    rw [messages_of_read_ok read, List.nil_append]
  · rw [report] at h
    cases h

end Compiling

/-- **What compiling a source against a table reports**, in the result and in the messages. -/
structure Reports (source : String) (t : SymbolTable) : Prop where
  ok_iff : (∃ n, (compileSource source t).result = .ok n) ↔ (compileSource source t).messages = []
  /-- What is missing has been noted, by whichever part of the grammar it is missing from. -/
  missing : ∀ room, Parser.NotesMissing room
  /-- A parse has noted a fault in the end, or it has come to a tree. -/
  settled : ¬ (ParseError.ofFaults (parseFaults source) = none ∧ (parseOutcome source).value = none)
  parse : ∀ e, (compileSource source t).result = .error (.parse e) →
    Recorded source e (compileSource source t).messages
  /-- What cannot be read does not compile either, and its faults are recorded. -/
  unread : ∀ e, (Ast.read source).result = .error e → (compileSource source t).result = .error (.parse e) ∧
    Recorded source e (compileSource source t).messages
  /-- A compile error is sent with its own text, and nothing else is. -/
  compile : ∀ e, (compileSource source t).result = .error (.compile e) →
    (compileSource source t).messages.map (fun d => (d.severity, d.message)) = [(.error, e.message)]

/-- **A source compiles exactly when nothing is reported**, and what is reported of a failure are its faults, or its
one compile error. -/
theorem reports_compileSource (source : String) (t : SymbolTable) : Reports source t where
  ok_iff := exists_ok_iff_messages source t
  missing := Parser.notesMissing
  settled := settled_parseOutcome source
  parse := by
    intro e h
    obtain ⟨unread, messages⟩ := read_error_of_compileSource h
    rw [messages]
    exact recorded_of_read_error unread
  unread := by
    intro e h
    rw [compileSource_of_read_error h]
    exact ⟨rfl, recorded_of_read_error h⟩
  compile := by
    intro e h
    rw [messages_of_compile_error h]
    rfl

end Formula
