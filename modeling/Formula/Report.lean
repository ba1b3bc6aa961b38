import Formula.Diagnostic
import Formula.Parse.Expression
import Formula.Symbol.Builtin
import Formula.Token.Scan

/-!
# From source to value — results with their messages

The whole way of a source: read into a tree, compiled against a table, evaluated. Each stretch of it
answers with a **report**, the result and the messages sent on the way, in order.

A parse has a tree exactly when it found no fault. The error of a parse is made from all its faults; the
compile error is also sent as a message. Evaluating a source that does not compile gives what is not a
number.
-/

namespace Formula

/-- **A result and the messages sent on the way to it.** -/
structure Report (α : Type) where
  result : α
  messages : List Diagnostic

/-- **Why a source has no value**: it is no expression, or the expression does not compile. -/
inductive Failure
  | parse (e : ParseError)
  | compile (e : CompileError)
deriving DecidableEq, Repr

namespace Failure

/-- Where the failure lies. -/
def offset : Failure → Nat
  | parse e => e.offset
  | compile e => e.span.offset

/-- How many bytes of the source are at fault; none for a parse. -/
def size : Failure → Nat
  | parse _ => 0
  | compile e => e.span.length

def message : Failure → String
  | parse e => e.message
  | compile e => e.message

/-- How many arguments the function takes, when a call has another number. -/
def wantedArguments? : Failure → Option Nat
  | compile (.argumentMismatch _ wanted _ _) => some wanted
  | _ => none

/-- How many arguments the call has, when the function takes another number. -/
def givenArguments? : Failure → Option Nat
  | compile (.argumentMismatch _ _ given _) => some given
  | _ => none

end Failure

def parseOutcome (source : String) : Outcome (Option Expr) := Parser.whole.run (Tokens.ofSource source)

/-- The result that the value and the faults of a parse make. -/
def parseResult (source : String) (root : Option Expr) (faults : List Fault) : Except ParseError Ast :=
  match ParseError.ofFaults faults, root with
  | some e, _ => .error e
  | none, some root => .ok ⟨source, root⟩
  | none, none => .error (.single .expectedExpression 0)

/-- **The tree of a source.** -/
def Ast.read (source : String) : Report (Except ParseError Ast) :=
  let o := parseOutcome source
  ⟨parseResult source o.value (faultsOf o.trace), messagesOf o.trace⟩

/-- **A tree compiled against a table.** -/
def Ast.compile (a : Ast) (t : SymbolTable) : Report (Except CompileError Node) :=
  match a.root.compile t with
  | .ok n => ⟨.ok n, []⟩
  | .error e => ⟨.error e, [.unresolved e]⟩

/-- **A source compiled against a table.** -/
def compileSource (source : String) (t : SymbolTable) : Report (Except Failure Node) :=
  let parsed := Ast.read source
  match parsed.result with
  | .error e => ⟨.error (.parse e), parsed.messages⟩
  | .ok a =>
    let compiled := a.compile t
    match compiled.result with
    | .error e => ⟨.error (.compile e), parsed.messages ++ compiled.messages⟩
    | .ok n => ⟨.ok n, parsed.messages ++ compiled.messages⟩

/-- The value of a node, its cells read from a table. -/
def Node.valueIn (n : Node) (t : SymbolTable) : Option Float := n.eval t.value

/-- **The value of a source**, not a number when it does not compile. -/
def evaluateSource (source : String) (t : SymbolTable) : Report (Option Float) :=
  let compiled := compileSource source t
  match compiled.result with
  | .error _ => ⟨some Binary64.nan, compiled.messages⟩
  | .ok n => ⟨n.valueIn t, compiled.messages⟩

end Formula
