import Formula.Proofs.Parse.Acceptance
import Formula.Proofs.Parse.Moved
import Formula.Proofs.Parse.Recording

/-!
# White space — it moves what is reported and changes nothing else

White space put in front of the tokens of a source moves them (`Padding.tokens_text`), and a parse of moved tokens is
the parse of the tokens with its places moved (`Parser.moves_whole`). What is read off a parse follows: the tree and
the error have their places moved, and the messages, which name no place, stay as they are. Compiling looks at no span
either (`Expr.compile_move`). `agrees_text` puts both together for a source and the source with the white space in.

An offset that an error names is that of a token. Moved, it is that of the same token of the other source
(`SamePlace`).

**What it does not say.** What white space inside a token does: it may make two tokens of one.
-/

namespace Formula

variable {f : Nat → Nat} {source padded : String}

/-! ## Errors moved -/

def ParseError.move (f : Nat → Nat) (e : ParseError) : ParseError := { e with offset := f e.offset }

def CompileError.move (f : Nat → Nat) : CompileError → CompileError
  | unknownVariable name span => .unknownVariable name (span.move f)
  | unknownFunction name span => .unknownFunction name (span.move f)
  | argumentMismatch name wanted given span => .argumentMismatch name wanted given (span.move f)
  | tooManyArguments name most given span => .tooManyArguments name most given (span.move f)
  | missingArgument name span => .missingArgument name (span.move f)

/-- **A failure with its place moved.** -/
def Failure.move (f : Nat → Nat) : Failure → Failure
  | parse e => .parse (e.move f)
  | compile e => .compile (e.move f)

/-! ## Reading -/

theorem faultsOf_move (trace : List Event) : faultsOf (trace.map (·.move f)) = (faultsOf trace).map (·.move f) := by
  induction trace with
  | nil => rfl
  | cons event trace ih =>
    cases event with
    | took | unreadable | opened | closed => exact ih
    | fault wrong => exact congrArg (wrong.move f :: ·) ih

/-- **Messages name no place.** -/
theorem messagesOf_move (trace : List Event) : messagesOf (trace.map (·.move f)) = messagesOf trace := by
  have same : Event.diagnostic? ∘ (·.move f) = Event.diagnostic? := by
    funext event
    cases event <;> rfl
  rw [messagesOf, List.filterMap_map, same]
  rfl

theorem ParseError.ofFaults_move (faults : List Fault) :
    ofFaults (faults.map (·.move f)) = (ofFaults faults).map (·.move f) := by
  cases faults with
  | nil => rfl
  | cons first more =>
    have kinds : ((first :: more).map (·.move f)).map (·.cause.kind) = (first :: more).map (·.cause.kind) :=
      List.map_map
    rw [ofFaults_cons, List.map_cons, ofFaults_cons, ← List.map_cons, kinds]
    rfl

section Read

-- two sources whose tokens differ in place only
variable (tokens : Tokens.ofSource padded = (Tokens.ofSource source).move f)
include tokens

theorem parseOutcome_move : parseOutcome padded = (parseOutcome source).move f (Parser.movePart f) := by
  rw [parseOutcome, tokens]
  exact Parser.moves_whole _

theorem messages_read_move : (Ast.read padded).messages = (Ast.read source).messages := by
  have moved : (Ast.read padded).messages = messagesOf ((parseOutcome source).trace.map (·.move f)) := by
    rw [Ast.read, parseOutcome_move tokens]
    rfl
  exact moved.trans (messagesOf_move _)

/-- The result of reading is that of the parse. -/
theorem read_result_move :
    (Ast.read padded).result =
      parseResult padded (Parser.movePart f (parseOutcome source).value) ((parseFaults source).map (·.move f)) := by
  rw [parseFaults, ← faultsOf_move, Ast.read, parseOutcome_move tokens]
  rfl

/-- **The tree of a source is read with its spans moved.** -/
theorem read_ok_move {a : Ast} (h : (Ast.read source).result = .ok a) :
    (Ast.read padded).result = .ok ⟨padded, a.root.move f⟩ := by
  have result : parseResult source (parseOutcome source).value (parseFaults source) = .ok a := h
  unfold parseResult at result
  split at result
  next => cases result
  next root none value =>
    obtain rfl := Except.ok.inj result
    have silent : ParseError.ofFaults ((parseFaults source).map (·.move f)) = Option.none := by
      rw [ParseError.ofFaults_move, none]
      rfl
    rw [read_result_move tokens, value]
    simp only [parseResult, silent]
    rfl
  next => cases result

/-- **The error of a source comes with its offset moved.** -/
theorem read_error_move {e : ParseError} (h : (Ast.read source).result = .error e) :
    (Ast.read padded).result = .error (e.move f) := by
  have result : parseResult source (parseOutcome source).value (parseFaults source) = .error e := h
  unfold parseResult at result
  split at result
  next e' some =>
    obtain rfl := Except.error.inj result
    have error : ParseError.ofFaults ((parseFaults source).map (·.move f)) = Option.some (e'.move f) := by
      rw [ParseError.ofFaults_move, some]
      rfl
    rw [read_result_move tokens]
    simp only [parseResult, error]
  next => cases result
  next none missing => exact (settled_parseOutcome source ⟨none, missing⟩).elim

end Read

/-! ## Compiling -/

theorem mapError_bind {ε α β : Type} (g : ε → ε) (x : Except ε α) (k : α → Except ε β) :
    (x >>= k).mapError g = x.mapError g >>= fun a => (k a).mapError g := by
  cases x <;> rfl

section Compile

variable (f : Nat → Nat) (t : SymbolTable)

theorem resolve_move (name : String) (span : Span) :
    resolve t name (span.move f) = (resolve t name span).mapError (·.move f) := by
  unfold resolve
  cases t.findVariable? name <;> rfl

theorem callee_move (name : String) (given : Nat) (span : Span) :
    callee t name given (span.move f) = (callee t name given span).mapError (·.move f) := by
  unfold callee
  cases t.findFunction? name with
  | none => rfl
  | some g =>
    dsimp only
    split
    next => rfl
    next =>
      split
      next => rfl
      next => rfl

theorem length_moveAll (es : List Expr) : (moveAll f es).length = es.length := by
  induction es with
  | nil => rw [moveAll]
  | cons e es ih => rw [moveAll, List.length_cons, ih, List.length_cons]

mutual
/-- **Compiling an expression with its spans moved** gives the same node, or the same error with its span moved. -/
theorem Expr.compile_move : ∀ e : Expr, (e.move f).compile t = (e.compile t).mapError (·.move f)
  | .number value span => by rw [Expr.move, Expr.compile, Expr.compile]; rfl
  | .identifier name span => by
    rw [Expr.move, Expr.compile, Expr.compile]
    exact resolve_move f t name span
  | .unary sign operand span => by
    rw [Expr.move, Expr.compile, Expr.compile, mapError_bind, Expr.compile_move operand]
    rfl
  | .binary op left right span => by
    rw [Expr.move, Expr.compile, Expr.compile, mapError_bind, Expr.compile_move left]
    refine congrArg _ (funext fun l => ?_)
    rw [mapError_bind, Expr.compile_move right]
    rfl
  | .call name arguments span => by
    rw [Expr.move, Expr.compile, Expr.compile, mapError_bind, length_moveAll, callee_move]
    refine congrArg _ (funext fun g => ?_)
    rw [mapError_bind, compileAll_move arguments]
    refine congrArg _ (funext fun args => ?_)
    cases Node.calling g args <;> rfl
/-- Compiling some expressions with their spans moved. -/
theorem compileAll_move : ∀ es : List Expr,
    compileAll t (moveAll f es) = (compileAll t es).mapError (·.move f)
  | [] => by rw [moveAll, compileAll]; rfl
  | e :: es => by
    rw [moveAll, compileAll, compileAll, mapError_bind, Expr.compile_move e]
    refine congrArg _ (funext fun n => ?_)
    rw [mapError_bind, compileAll_move es]
    rfl
end

end Compile

/-- **What compiling a source comes to is the same for both**, up to where a failure lies. -/
theorem compileSource_move (tokens : Tokens.ofSource padded = (Tokens.ofSource source).move f) (t : SymbolTable) :
    (compileSource padded t).result = (compileSource source t).result.mapError (·.move f) := by
  rcases compileSource_cases source t with
    ⟨e, read, report⟩ | ⟨a, e, read, compiled, report⟩ | ⟨a, n, read, compiled, report⟩
  · rw [report, compileSource_of_read_error (read_error_move tokens read)]
    rfl
  · have compiles := Expr.compile_move f t a.root
    rw [compiled] at compiles
    rw [report, compileSource_of_error (read_ok_move tokens read) compiles]
    rfl
  · have compiles := Expr.compile_move f t a.root
    rw [compiled] at compiles
    rw [report, compileSource_of_ok (read_ok_move tokens read) compiles]
    rfl

/-! ## Two sources -/

/-- **Two offsets are those of the same token** of two sequences. -/
def SamePlace (ts us : Tokens) (x y : Nat) : Prop :=
  ∃ (i : Nat) (t u : Token), ts.toList[i]? = some t ∧ us.toList[i]? = some u ∧ t.offset = x ∧ u.offset = y

/-- The offset of a parse error is that of a token. -/
theorem exists_token_of_read_error {e : ParseError} (h : (Ast.read source).result = .error e) :
    ∃ (i : Nat) (t : Token), (Tokens.ofSource source).toList[i]? = some t ∧ t.offset = e.offset := by
  rcases read_cases source with ⟨d, -, -, -, result⟩ | ⟨wrong, taken, left, e', breaks, result, -, offset⟩
  · rw [result] at h
    cases h
  · obtain rfl := Except.error.inj (h.symm.trans result)
    obtain ⟨us, all, -, -⟩ := (Tokens.inOrder_ofSource source).cut breaks.split
    refine ⟨taken.length, _, ?_, (offset.trans breaks.offset_eq).symm⟩
    rw [all, List.getElem?_append_right (Nat.le_refl _), Nat.sub_self]
    rfl

/-- **Two sources agree but for places**: the tokens of one are those of the other, moved. -/
structure Agrees (source padded : String) (f : Nat → Nat) : Prop where
  tokens : Tokens.ofSource padded = (Tokens.ofSource source).move f
  read_ok_iff : (∃ a, (Ast.read padded).result = .ok a) ↔ ∃ a, (Ast.read source).result = .ok a
  read_ok : ∀ a, (Ast.read source).result = .ok a → (Ast.read padded).result = .ok ⟨padded, a.root.move f⟩
  read_error : ∀ e, (Ast.read source).result = .error e →
    ∃ e', (Ast.read padded).result = .error e' ∧ e'.kind = e.kind ∧ e'.kinds = e.kinds ∧
      SamePlace (Tokens.ofSource source) (Tokens.ofSource padded) e.offset e'.offset
  messages : (Ast.read padded).messages = (Ast.read source).messages
  /-- The node is the same, or the error is, but for its place. -/
  compile : ∀ t, (compileSource padded t).result = (compileSource source t).result.mapError (·.move f)

theorem agrees_of_tokens (tokens : Tokens.ofSource padded = (Tokens.ofSource source).move f) :
    Agrees source padded f where
  tokens := tokens
  read_ok_iff := by
    cases read : (Ast.read source).result with
    | ok a => exact iff_of_true ⟨_, read_ok_move tokens read⟩ ⟨a, rfl⟩
    | error e =>
      rw [read_error_move tokens read]
      exact iff_of_false (fun ⟨_, h⟩ => nomatch h) fun ⟨_, h⟩ => nomatch h
  read_ok _ h := read_ok_move tokens h
  read_error := by
    intro e h
    obtain ⟨i, t, found, here⟩ := exists_token_of_read_error h
    refine ⟨e.move f, read_error_move tokens h, rfl, rfl, i, t, t.move f, found, ?_, here, congrArg f here⟩
    rw [tokens, Tokens.toList_move, List.getElem?_map, found]
    rfl
  messages := messages_read_move tokens
  compile := compileSource_move tokens

/-- **White space in front of the tokens of a source** moves what is reported of it and changes nothing else. -/
theorem agrees_text (p : Padding source) : Agrees source p.text (place p.before) := agrees_of_tokens p.tokens_text

/-- White space in front of both tokens of a source that breaks off between them. -/
def spacedNumeral : Padding "1e5x" where
  before
    | 0 => [' ']
    | 3 => ['\t', ' ']
    | _ => []
  pads := by
    have scan : Tokens.ofSource "1e5x" = ⟨[⟨.number, 0, "1e5"⟩, ⟨.identifier, 3, "x"⟩], .endOfInput 4⟩ := by
      have source : "1e5x".toList = ['1', 'e', '5', 'x'] := rfl
      rw [Tokens.ofSource, source]
      repeat rw [Tokens.ofChars_of_word rfl]
      rw [Tokens.ofChars_of_stop rfl]
      rfl
    rw [scan]
    constructor
    · intro x
      split
      · exact List.forall_mem_singleton.mpr rfl
      · exact List.forall_mem_cons.mpr ⟨rfl, List.forall_mem_singleton.mpr rfl⟩
      · exact List.forall_mem_nil _
    · intro x _ some
      split at some
      · exact ⟨_, List.mem_cons_self, rfl⟩
      · exact ⟨_, List.mem_cons_of_mem _ List.mem_cons_self, rfl⟩
      · exact (some rfl).elim

theorem agrees_spacedNumeral : spacedNumeral.text = " 1e5\t x" ∧
    Agrees "1e5x" " 1e5\t x" (place spacedNumeral.before) := by
  have text : spacedNumeral.text = " 1e5\t x" := rfl
  exact ⟨text, text ▸ agrees_text spacedNumeral⟩

end Formula
