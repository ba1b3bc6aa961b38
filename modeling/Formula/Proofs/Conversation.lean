import Formula.CommandLine.Run
import Formula.Proofs.Compile.Run

/-!
# Conversations — what is remembered from line to line

A conversation remembers one line, and replies to the next one with it. What it remembers can be said without it:
the most recent line, `ast` aside, that was read as an expression, whether or not that compiled (`lastFormula`). One
exchange keeps that (`follows_exchange`), so it holds all along (`follows_exchanges`). Two things come of it: the
tree that `ast` asks for is always there, as the remembered line has been read before; and every other line is
replied to from the line and the table (`formulaReply`).

A reply is the messages that are sent, each with its severity and its wording, and what is written after them. What
comes to standard output of all replies is said with the messages and without (`Reply.text_false`,
`Reply.text_true`).

**What it does not say.** Where the lines come from.
-/

namespace Formula.CommandLine

/-! ## What is remembered -/

/-- Whether a line is read as an expression. It need not compile. -/
def isFormula (line : String) : Bool := line != treeWord && (Ast.read line).result.isOk

/-- **The most recent line that is read as an expression**, none when there is no such line. -/
def lastFormula (lines : List String) : Option String := lines.reverse.find? isFormula

theorem lastFormula_concat (lines : List String) (line : String) :
    lastFormula (lines ++ [line]) = if isFormula line then some line else lastFormula lines := by
  rw [lastFormula, List.reverse_append, List.reverse_singleton, List.singleton_append, List.find?_cons]
  cases isFormula line <;> rfl

/-- The line that is remembered can be read. -/
theorem exists_read_of_lastFormula {lines : List String} {source : String} (h : lastFormula lines = some source) :
    ∃ a, (Ast.read source).result = .ok a := by
  have formula := List.find?_some h
  rw [isFormula, Bool.and_eq_true] at formula
  cases read : (Ast.read source).result with
  | ok a => exact ⟨a, rfl⟩
  | error e =>
    rw [read] at formula
    cases formula.2

/-! ## What is replied to a line -/

/-- **The reply to a line that is to be a formula**: its value, or its faults, or its compile error. -/
def formulaReply (t : SymbolTable) (line : String) : Reply :=
  let compiled := compileSource line t
  match compiled.result with
  | .ok n => ⟨compiled.messages, valueLine Decimal.shortestText (n.valueIn t)⟩
  | .error (.parse _) => ⟨compiled.messages ++ [.notParsed line], ""⟩
  | .error (.compile _) => ⟨compiled.messages, ""⟩

/-- What a handler is sent of a reply: the severity and the wording of each message. -/
def Reply.sent (r : Reply) : List (Severity × String) := r.messages.map fun d => (d.severity, d.message)

/-- **What is replied to a line after some lines**, and what is remembered then. -/
structure Exchange.Follows (t : SymbolTable) (before : List String) (line : String) (e : Exchange) : Prop where
  last_eq : e.last = lastFormula (before ++ [line])
  /-- The tree of the line that is remembered is written, and nothing is sent. -/
  tree : line = treeWord → ∀ source, lastFormula before = some source →
    ∃ a, (Ast.read source).result = .ok a ∧ e.reply.sent = [] ∧ e.reply.output = a.outline
  /-- No line is remembered: that is sent, and nothing is written. -/
  untold : line = treeWord → lastFormula before = none →
    e.reply.sent = [(.info, "No expression has been parsed yet")] ∧ e.reply.output = ""
  /-- The lines before do not matter. -/
  formula : line ≠ treeWord → e.reply = formulaReply t line
  /-- A line that cannot be read is sent back after its faults, and nothing is written. -/
  unread : line ≠ treeWord → ∀ error, (Ast.read line).result = .error error →
    e.reply.messages = (Ast.read line).messages ++ [.notParsed line] ∧
      e.reply.sent.getLast? = some (.error, "Failed to build AST: " ++ line) ∧ e.reply.output = ""

variable {t : SymbolTable} {before : List String} {line : String}

/-- The reply to a line that cannot be read. -/
theorem formulaReply_of_unread {error : ParseError} (unread : (Ast.read line).result = .error error) :
    formulaReply t line = ⟨(Ast.read line).messages ++ [.notParsed line], ""⟩ := by
  rw [formulaReply, compileSource_of_read_error unread]

/-- A formula is replied to, and remembered if it can be read. -/
theorem formulaExchange_eq (formula : line ≠ treeWord) (last : Option String) :
    formulaExchange t last line = ⟨formulaReply t line, if isFormula line then some line else last⟩ := by
  have other : (line != treeWord) = true := bne_iff_ne.mpr formula
  rcases compileSource_cases line t with
    ⟨e, read, report⟩ | ⟨a, e, read, compiled, report⟩ | ⟨a, n, read, compiled, report⟩
  · have kept : isFormula line = false := by rw [isFormula, read, Except.isOk, Except.toBool, Bool.and_false]
    simp only [formulaExchange, formulaReply, read, report, kept, Bool.false_eq_true, if_false]
  · have remembered : isFormula line = true := by rw [isFormula, read, other]; rfl
    simp only [formulaExchange, formulaReply, read, report, Ast.compile, compiled, remembered, if_true]
  · have remembered : isFormula line = true := by rw [isFormula, read, other]; rfl
    simp only [formulaExchange, formulaReply, read, report, Ast.compile, compiled, remembered, if_true, List.append_nil]

/-- **One exchange** replies from the line that is remembered, and remembers its own if that can be read. -/
theorem follows_exchange (t : SymbolTable) (before : List String) (line : String) :
    (exchange t (lastFormula before) line).Follows t before line := by
  by_cases asks : line = treeWord
  · have unread : isFormula line = false := by rw [isFormula, asks, bne_self_eq_false, Bool.false_and]
    have replied : exchange t (lastFormula before) line = ⟨treeReply (lastFormula before), lastFormula before⟩ :=
      if_pos asks
    rw [replied]
    exact {
      last_eq := by rw [lastFormula_concat, unread]; rfl
      tree := by
        intro _ source last
        obtain ⟨a, read⟩ := exists_read_of_lastFormula last
        refine ⟨a, read, ?_⟩
        simp only [last, treeReply, read, Reply.sent, List.map_nil, and_self]
      untold := by
        intro _ none
        rw [none]
        exact ⟨rfl, rfl⟩
      formula := fun formula => (formula asks).elim
      unread := fun formula => (formula asks).elim }
  · have replied : exchange t (lastFormula before) line = formulaExchange t (lastFormula before) line := if_neg asks
    rw [replied, formulaExchange_eq asks]
    exact {
      last_eq := (lastFormula_concat before line).symm
      tree := fun h => (asks h).elim
      untold := fun h => (asks h).elim
      formula := fun _ => rfl
      unread := by
        intro _ error read
        rw [formulaReply_of_unread read]
        refine ⟨rfl, ?_, rfl⟩
        rw [Reply.sent, List.map_append, List.map_singleton, List.getLast?_concat]
        rfl }

/-! ## A whole conversation -/

/-- **The exchanges of some lines**, one for each, from what is remembered before. -/
def exchanges (t : SymbolTable) : (last : Option String) → List String → List Exchange
  | _, [] => []
  | last, line :: lines =>
    let e := exchange t last line
    e :: exchanges t e.last lines

/-- **Along all lines, each exchange follows those before it.** -/
theorem follows_exchanges (before lines : List String) {i : Nat} (h : lines[i]? = some line) :
    ∃ e, (exchanges t (lastFormula before) lines)[i]? = some e ∧
      e.Follows t (before ++ lines.take i) line := by
  induction lines generalizing before i with
  | nil => cases h
  | cons first lines ih =>
    have follows := follows_exchange t before first
    cases i with
    | zero =>
      obtain rfl := Option.some.inj h
      refine ⟨_, rfl, ?_⟩
      rw [List.take_zero, List.append_nil]
      exact follows
    | succ i =>
      obtain ⟨e, he, hf⟩ := ih (before ++ [first]) h
      refine ⟨e, ?_, ?_⟩
      · rw [exchanges, List.getElem?_cons_succ, follows.last_eq]
        exact he
      · rw [List.append_assoc, List.singleton_append] at hf
        exact hf

theorem length_exchanges (last : Option String) (lines : List String) :
    (exchanges t last lines).length = lines.length := by
  induction lines generalizing last with
  | nil => rfl
  | cons line lines ih => exact congrArg (· + 1) (ih _)

/-- **The lines that a conversation reaches**: those before the first that ends it, or all. -/
def reached (lines : List String) : List String := lines.takeWhile (· != quitWord)

theorem reached_cons (line : String) (lines : List String) :
    reached (line :: lines) = if line = quitWord then [] else line :: reached lines := by
  rw [reached, List.takeWhile_cons]
  by_cases quits : line = quitWord
  · rw [quits, bne_self_eq_false]
    rfl
  · rw [bne_iff_ne.mpr quits, if_neg quits]
    rfl

/-- **A conversation is the exchanges of the lines that it reaches.** -/
theorem conversation_text (last : Option String) (lines : List String) :
    conversation t last (lines.map .text) =
      ⟨(exchanges t last (reached lines)).map (·.reply), true⟩ := by
  induction lines generalizing last with
  | nil => rfl
  | cons line lines ih =>
    rw [List.map_cons, conversation, reached_cons]
    by_cases quits : line = quitWord
    · rw [if_pos quits, if_pos quits]
      rfl
    · rw [if_neg quits, if_neg quits]
      exact congrArg (Transcript.cons _) (ih _)

/-- A message as a line: its severity in brackets, and its wording. -/
def messageLine (m : Severity × String) : String := "[" ++ m.1.text ++ "] " ++ m.2 ++ "\n"

theorem Reply.text_true (r : Reply) : r.text true = r.output := String.empty_append

theorem Reply.text_false (r : Reply) : r.text false = String.join (r.sent.map messageLine) ++ r.output := by
  have lines : r.sent.map messageLine = r.messages.map Diagnostic.line := List.map_map
  rw [lines]
  rfl

/-- **What a conversation on some lines comes to**: an exchange for each line that it reaches, and nothing else. -/
structure Converses (t : SymbolTable) (lines : List String) (es : List Exchange) : Prop where
  transcript : conversation t none (lines.map .text) = ⟨es.map (·.reply), true⟩
  length_eq : es.length = (reached lines).length
  follows : ∀ (i : Nat) (line : String), (reached lines)[i]? = some line →
    ∃ e, es[i]? = some e ∧ e.Follows t ((reached lines).take i) line
  /-- With messages dropped the outputs are written, in order. -/
  quiet : ∀ text, ((conversation t none (lines.map .text)).output true text).stdout =
    text ++ String.join (es.map (·.reply.output))
  /-- Otherwise what is sent stands before each output, a line for each message. -/
  loud : ∀ text, ((conversation t none (lines.map .text)).output false text).stdout =
    text ++ String.join (es.map fun e =>
      String.join (e.reply.sent.map messageLine) ++ e.reply.output)

/-- **A conversation remembers the most recent line that is read as an expression**, shows its tree when asked for
it, and replies to every other line from the line and the table. -/
theorem converses_exchanges (t : SymbolTable) (lines : List String) :
    Converses t lines (exchanges t none (reached lines)) where
  transcript := conversation_text none lines
  length_eq := length_exchanges none _
  follows := fun _ _ h => follows_exchanges [] _ h
  quiet text := by
    rw [conversation_text, Transcript.output, List.map_map]
    exact congrArg (text ++ String.join ·) (List.map_congr_left fun e _ => e.reply.text_true)
  loud text := by
    rw [conversation_text, Transcript.output, List.map_map]
    exact congrArg (text ++ String.join ·) (List.map_congr_left fun e _ => e.reply.text_false)

end Formula.CommandLine
