import Formula.CommandLine.Lines
import Formula.Decimal.Shortest
import Formula.Decimal.Significant
import Formula.Expr.Outline
import Formula.Report

/-!
# Answers — what is replied to each line of input

Lines of input are answered one after the other, in one of two ways.

As a **table** each line is a formula: its value with twenty significant digits, or the line itself
marked as failed.

In **conversation** a line is a formula too, and its value has the shortest text; but `ast` asks for the
tree of the last line that was a formula, whether or not that line compiled, and `q` ends the
conversation. What the conversation remembers between lines is only that last line (`Exchange.last`), so
every answer but that to `ast` depends on its line and the table alone.

A **reply** has the messages that are sent while a line is answered beside what is written after them.
They become text only when the reply is written, unless they are to be dropped.
-/

namespace Formula.CommandLine

/-- Some messages as lines of output, none when they are to be dropped. -/
def shown (quiet : Bool) (ds : List Diagnostic) : String :=
  if quiet then "" else String.join (ds.map Diagnostic.line)

def valueLine (write : Float → String) : Option Float → String
  | some x => write x ++ "\n"
  | none => ""

/-- **The reply to a line**: the messages that are sent, and what is written after them. -/
structure Reply where
  messages : List Diagnostic
  output : String
deriving DecidableEq, Repr

/-- A reply as it is written. -/
def Reply.text (quiet : Bool) (r : Reply) : String := shown quiet r.messages ++ r.output

/-- **The replies to some lines**, and whether every line reached was readable. -/
structure Transcript where
  replies : List Reply
  /-- Whether no unreadable line was met. -/
  readable : Bool
deriving DecidableEq, Repr

def Transcript.cons (reply : Reply) (t : Transcript) : Transcript := { t with replies := reply :: t.replies }

/-! ## Tables -/

/-- How many significant digits a table shows. -/
def tableDigits : Nat := 20

/-- **The reply to a line of a table.** -/
def tableReply (t : SymbolTable) (line : String) : Reply :=
  let r := compileSource line t
  match r.result with
  | .ok n => ⟨r.messages, valueLine (Decimal.significantText · tableDigits) (n.valueIn t)⟩
  | .error _ => ⟨r.messages, s!"[FAIL] {line}\n"⟩

def tableTranscript (t : SymbolTable) : List Line → Transcript
  | [] => ⟨[], true⟩
  | .unreadable :: _ => ⟨[], false⟩
  | .text line :: ls => (tableTranscript t ls).cons (tableReply t line)

/-! ## Conversations -/

def quitWord : String := "q"

def treeWord : String := "ast"

/-- **A reply, and the last line that was a formula** once it has been given. -/
structure Exchange where
  reply : Reply
  last : Option String
deriving DecidableEq, Repr

/-- The reply to a line that asks for the tree. -/
def treeReply : (last : Option String) → Reply
  | some source =>
    match (Ast.read source).result with
    | .ok a => ⟨[], a.outline⟩
    | .error _ => ⟨[], ""⟩
  | none => ⟨[.nothingParsed], ""⟩

/-- The exchange on a line that is to be a formula. -/
def formulaExchange (t : SymbolTable) (last : Option String) (line : String) : Exchange :=
  let parsed := Ast.read line
  match parsed.result with
  | .error _ => ⟨⟨parsed.messages ++ [.notParsed line], ""⟩, last⟩
  | .ok a =>
    let compiled := a.compile t
    let value := match compiled.result with
      | .ok n => valueLine Decimal.shortestText (n.valueIn t)
      | .error _ => ""
    ⟨⟨parsed.messages ++ compiled.messages, value⟩, some line⟩

/-- **The exchange on a line of a conversation.** -/
def exchange (t : SymbolTable) (last : Option String) (line : String) : Exchange :=
  if line = treeWord then ⟨treeReply last, last⟩ else formulaExchange t last line

/-- **The replies of a conversation**, up to the line that ends it. -/
def conversation (t : SymbolTable) : (last : Option String) → List Line → Transcript
  | _, [] => ⟨[], true⟩
  | _, .unreadable :: _ => ⟨[], false⟩
  | last, .text line :: ls =>
    if line = quitWord then ⟨[], true⟩
    else
      let e := exchange t last line
      (conversation t e.last ls).cons e.reply

end Formula.CommandLine
